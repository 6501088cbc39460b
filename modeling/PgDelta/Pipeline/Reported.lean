import PgDelta.Pipeline.Causes

/-!
Which error a load returns when a worker has failed.

The reader learns of the failure from the event queue, when it collects the
acknowledgements of a block or when a send has failed. Until then it goes on
reading, and what ends the load in the meantime is an error of its own. And a
send that failed takes whatever event comes first for the cause, also where that
is the acknowledgement of another worker.
-/

namespace PgDelta.Pipeline

open PgDelta.Lib PgDelta.Builders PgDelta.Types PgDelta.Scan PgDelta.Sink PgDelta.Copy

variable {P : Platform} {n : ℕ}

namespace System

variable {L : Load} {s t u : System P n}

/-! ### Receiving from the pool -/

def Receiving (s : System P n) : Prop :=
  s.point = .failedSend ∨ ∃ block acks events, s.point = .collecting block acks events

/-- The event that the reader is about to receive carries an error of a worker. -/
def TakesFailure (s : System P n) (e : Error) : Prop :=
  s.Receiving ∧ s.events.head? = some (.failed e)

/-- An acknowledgement stands at the head of the event queue. -/
def ackFirst (s : System P n) : Bool :=
  match s.events with
  | .closed _ :: _ => true
  | _ => false

/-- The step does not find an acknowledgement behind a send that failed, and it
is not kept from the pool: the input has a next chunk, which the scanner
accepts, and the caller lets the load go on. -/
def undisturbed (s : System P n) : Label n → Bool
  | .worker _ _ => true
  | .reader o =>
    match s.point with
    | .reading =>
      match s.reader.chunks with
      | [] => false
      | chunk :: _ => (s.reader.scanner.feed chunk.bytes).isOk
    | .handling [] => o.progress (s.reader.progress none)
    | .failedSend => !s.ackFirst
    | _ => true

theorem exited_of_allExited [NeZero n] (h : s.allExited = true) :
    ∃ i, (s.workers i).status.isExited = true :=
  ⟨0, (List.all_eq_true.mp h) 0 (List.mem_finRange 0)⟩

theorem Accounted.handles [NeZero n] (h : s.Accounted L) (haligned : s.Aligned L)
    (hdead : s.SomeDead) {event : Event} {events : List Event}
    (hp : s.point = .handling (event :: events)) (o : Outside) :
    (s.reader.onEvent (n := n) L.cfg s.store event o).1.isOk = true := by
  have hstanding := h.standing
  obtain ⟨-, haligned⟩ := haligned
  simp only [Standing, hp, Settled] at hstanding haligned
  obtain ⟨here, hwithin, hfollows⟩ := haligned
  cases hcurrent : s.reader.current with
  | none =>
    rw [hcurrent] at hstanding
    exact absurd hstanding.1 (not_quiet_of_dead hdead)
  | some block =>
    cases here with
    | none =>
      rw [hwithin.1] at hcurrent
      cases hcurrent
    | some table =>
      rcases hwithin with ⟨-, hnone, -⟩ | ⟨hskipping, -, block', hblock, htable⟩
      · rw [hnone] at hcurrent
        cases hcurrent
      · obtain ⟨here', hfollow, -⟩ := Option.bind_eq_some_iff.mp ((follows_cons _ _ _).symm.trans
          hfollows)
        cases event with
        | copyRows payload =>
          simp [Reader.onEvent, Reader.onCopyRows, hskipping, hblock, Except.isOk, Except.toBool]
        | copyEnd name =>
          obtain ⟨rfl, -⟩ : table = name ∧ none = here' := by simpa [Event.follow] using hfollow
          simp [Reader.onEvent, Reader.onCopyEnd, hskipping, hblock, htable, Except.isOk,
            Except.toBool]
        | copyStart name columns => simp [Event.follow] at hfollow
        | dumpVersion dumpedBy fromDatabase => simp [Event.follow] at hfollow
        | table definition => simp [Event.follow] at hfollow

/-! ### The step that ends a load -/

theorem dispatching_not_done (sends : List (Fin n × Job)) (after : After) (events : List Event)
    (r : Except Error LoadReport) : (s.dispatching sends after events).point ≠ .done r := by
  cases sends with
  | cons send sends => simp [dispatching]
  | nil => cases after <;> simp [dispatching, resume]

/-- While a worker is dead, the step that ends the load takes an error of the
pool exactly when it is not disturbed. -/
theorem Doomed.takes_iff [NeZero n] {tables : List TableStats} (h : s.Doomed tables)
    (haccounted : s.Accounted L) (haligned : s.Aligned L) (hrunning : s.isDone = false)
    {o : Outside} (hstep : step L s (.reader o) = some t) {r : Except Error LoadReport}
    (hdone : t.point = .done r) :
    (∃ e, r = .error e ∧ s.TakesFailure e) ↔ s.undisturbed (.reader o) = true := by
  have hstanding := haccounted.standing
  have hphase := h.phase
  have hnotReceiving : ¬ s.Receiving → ¬ ∃ e, r = .error e ∧ s.TakesFailure e := by
    rintro hnot ⟨e, -, hreceiving, -⟩
    exact hnot hreceiving
  cases hp : s.point with
  | reading =>
    refine iff_of_false (hnotReceiving (by simp [Receiving, hp])) fun hgoes => ?_
    simp only [undisturbed, hp] at hgoes
    cases hchunks : s.reader.chunks with
    | nil => simp [hchunks] at hgoes
    | cons chunk chunks =>
      simp only [step, readerStep, hp, readChunk, hchunks, Option.some.injEq] at hstep
      cases hfeed : s.reader.scanner.feed chunk.bytes with
      | error e => simp [hchunks, hfeed, Except.isOk, Except.toBool] at hgoes
      | ok r =>
        simp only [hfeed] at hstep
        subst hstep
        cases hdone
  | handling events =>
    cases events with
    | nil =>
      refine iff_of_false (hnotReceiving (by simp [Receiving, hp])) fun hgoes => ?_
      simp only [undisturbed, hp] at hgoes
      simp only [step, readerStep, hp, endOfChunk, hgoes, if_true, Option.some.injEq] at hstep
      subst hstep
      cases hdone
    | cons event events =>
      have hok := haccounted.handles haligned h.dead hp o
      simp only [step, readerStep, hp, handleEvent, Option.some.injEq] at hstep
      split at hstep
      next e σ hevent =>
        rw [hevent] at hok
        cases hok
      next reaction σ hevent =>
        subst hstep
        exact absurd hdone (dispatching_not_done _ _ _ _)
  | dispatching i job rest after events =>
    simp only [step, readerStep, hp, sendJob] at hstep
    split_ifs at hstep
    · obtain rfl := Option.some.inj hstep
      cases hdone
    · obtain rfl := Option.some.inj hstep
      exact absurd hdone (dispatching_not_done _ _ _ _)
  | failedSend =>
    -- whatever comes first out of the channel is taken for the cause
    simp only [step, readerStep, hp, receiveCause] at hstep
    simp only [Standing, hp] at hstanding
    obtain ⟨⟨i, hi⟩, block, ctx, stage, hhand⟩ := hstanding
    cases hevents : s.events with
    | nil => exact absurd hevents (hhand.events_ne_nil hi)
    | cons event queue =>
      cases event with
      | failed e =>
        simp only [hevents, Option.some.injEq] at hstep
        subst hstep
        refine iff_of_true ⟨e, (Point.done.inj hdone).symm, .inl hp, by simp [hevents]⟩ ?_
        simp [undisturbed, hp, ackFirst, hevents]
      | closed c =>
        refine iff_of_false ?_ (by simp [undisturbed, hp, ackFirst, hevents])
        rintro ⟨e, -, -, hhead⟩
        simp [hevents] at hhead
  | collecting block acks events =>
    simp only [step, readerStep, hp, receiveAck] at hstep
    simp only [Standing, hp] at hstanding
    obtain ⟨-, ctx, collected, hhand, hacks, hlen⟩ := hstanding
    cases hevents : s.events with
    | nil =>
      simp only [hevents] at hstep
      split_ifs at hstep with hall
      obtain ⟨i, hi⟩ := exited_of_allExited hall
      exact absurd hevents (hhand.events_ne_nil (i := i) hi)
    | cons event queue =>
      cases event with
      | failed e =>
        simp only [hevents, Option.some.injEq] at hstep
        subst hstep
        exact iff_of_true ⟨e, (Point.done.inj hdone).symm, .inr ⟨_, _, _, hp⟩, by simp [hevents]⟩
          (by simp [undisturbed, hp])
      | closed c =>
        -- the dead worker's acknowledgement is outstanding, so this is not the last
        have hmore := haccounted.not_closing h.dead hp hevents
        simp only [hevents, Option.some.injEq, acknowledged] at hstep
        split at hstep
        · subst hstep
          cases hdone
        · rename_i hlast
          exact absurd (Nat.le_of_not_lt hlast) hmore
  | committing dumpedBy b => simp [pastPhaseOne, hp] at hphase
  | recording report => simp [pastPhaseOne, hp] at hphase
  | done result => simp [isDone, hp] at hrunning

/-! ### The run that ends there -/

theorem point_of_done [NeZero n] {a : Label n} {r : Except Error LoadReport}
    (hdone : s.point = .done r) (hmove : Move L s a t) : t.point = .done r := by
  cases hmove with
  | job => exact hdone
  | jobFailed => exact hdone
  | sendAck => exact hdone
  | sendFailure => exact hdone
  | exit => exact hdone
  | leave => exact hdone
  | stop o e hphase queue hqueue => simp [hdone] at hphase
  | _ => simp_all

theorem reader_of_done [NeZero n] {a : Label n} (hrunning : s.isDone = false)
    (hmove : Move L s a t) {r : Except Error LoadReport} (hdone : t.point = .done r) :
    ∃ o, a = .reader o := by
  have hsame : t.point = s.point → False := by
    intro heq
    simp [isDone, ← heq, hdone] at hrunning
  cases a with
  | reader o => exact ⟨o, rfl⟩
  | worker i faults => cases hmove <;> exact (hsame rfl).elim

theorem Doomed.takes_along [NeZero n] {tables : List TableStats} (h : u.Doomed tables)
    (haccounted : u.Accounted L) (haligned : u.Aligned L) (hrunning : u.isDone = false)
    {labels : List (Label n)} (hrun : runFrom (step L) u labels = some t)
    (halong : Along (step L) (fun s a => s.undisturbed a = true) u labels)
    {r : Except Error LoadReport} (hdone : t.point = .done r) :
    ∃ e, r = .error e ∧ ∃ before v, before <+: labels ∧ runFrom (step L) u before = some v ∧
      v.TakesFailure e := by
  induction labels generalizing u with
  | nil =>
    obtain rfl : u = t := by simpa using hrun
    simp [isDone, hdone] at hrunning
  | cons a labels ih =>
    obtain ⟨v, hstep, hrest⟩ := runFrom_cons.mp hrun
    have hmove := step_move hstep
    cases hv : v.isDone with
    | false =>
      obtain ⟨e, hr, before, w, hbefore, hw, htakes⟩ := ih (h.move haccounted haligned hmove)
        (haccounted.move haligned hmove) (haligned.move hmove) hv hrest (halong.2 v hstep)
      exact ⟨e, hr, a :: before, w, (List.prefix_cons_inj a).mpr hbefore,
        runFrom_cons.mpr ⟨v, hstep, hw⟩, htakes⟩
    | true =>
      -- the run ends here, and keeps its result
      obtain ⟨r', hr'⟩ : ∃ r', v.point = .done r' := by
        unfold isDone at hv
        split at hv
        next r' hp => exact ⟨r', hp⟩
        next => cases hv
      have hkeep := runFrom_invariant (fun s a t hs hstep => point_of_done hs (step_move hstep))
        hr' hrest
      obtain rfl : r' = r := Point.done.inj (hkeep.symm.trans hdone)
      obtain ⟨o, rfl⟩ := reader_of_done hrunning hmove hr'
      obtain ⟨e, hr, htakes⟩ := (h.takes_iff haccounted haligned hrunning hstep hr').mpr halong.1
      exact ⟨e, hr, [], u, List.nil_prefix, rfl, htakes⟩

/-- Once a worker has failed while a load is on its way, a run whose steps are
not disturbed returns an error that some worker's event carries; and wherever
the load ends, the error is one of the pool exactly when that step is not
disturbed. -/
theorem cause_iff [NeZero n] {σ : Store P} (h : Reachable L σ u) {i : Fin n} {e₀ : Error}
    (hfailing : (u.workers i).status = .failing e₀) (hrunning : u.isDone = false)
    {labels : List (Label n)} (hrun : runFrom (step L) u labels = some t) :
    (Along (step L) (fun s a => s.undisturbed a = true) u labels → ∀ r, t.point = .done r →
      ∃ e, r = .error e ∧ ∃ before v, before <+: labels ∧ runFrom (step L) u before = some v ∧
        v.TakesFailure e) ∧
    ∀ o w r, t.isDone = false → step L t (.reader o) = some w → w.point = .done r →
      ((∃ e, r = .error e ∧ t.TakesFailure e) ↔ t.undisturbed (.reader o) = true) := by
  have hdoomed := h.doomed hfailing
  obtain ⟨haccounted, haligned⟩ := h.accounted
  constructor
  · intro halong r hdone
    exact hdoomed.takes_along haccounted haligned hrunning hrun halong hdone
  · intro o w r hgoing hstep hdone
    have hreach : Reachable L σ t := h.trans hrun
    obtain ⟨haccounted', haligned'⟩ := hreach.accounted
    have hkeep : ∀ (s : System P n) a t', (s.Accounted L ∧ s.Aligned L) ∧
        s.Doomed u.reader.tables → step L s a = some t' →
          (t'.Accounted L ∧ t'.Aligned L) ∧ t'.Doomed u.reader.tables := by
      rintro s a t' ⟨⟨haccounted, haligned⟩, hdoomed⟩ hstep
      have hmove := step_move hstep
      exact ⟨⟨haccounted.move haligned hmove, haligned.move hmove⟩,
        hdoomed.move haccounted haligned hmove⟩
    have hdoomed' := (runFrom_invariant hkeep ⟨h.accounted, hdoomed⟩ hrun).2
    exact hdoomed'.takes_iff haccounted' haligned' hgoing hstep hdone

def failsWith (s : System P n) (i : Fin n) (e : Error) : Bool :=
  match (s.workers i).status with
  | .failing e' => e' == e
  | _ => false

theorem status_of_failsWith {i : Fin n} {e : Error} (h : s.failsWith i e = true) :
    (s.workers i).status = .failing e := by
  unfold failsWith at h
  split at h
  next e' he => rw [he, eq_of_beq h]
  next => cases h

/-- The second worker's error is returned. -/
theorem cause_iff_reported :
    ∃ u t : System .plain 2, Reachable mismatched (fun _ => []) u ∧
      (u.workers 1).status = .failing (.fieldCountMismatch 2 1) ∧ u.isDone = false ∧
      runFrom (step mismatched) u reporting = some t ∧
      Along (step mismatched) (fun s a => s.undisturbed a = true) u reporting ∧
      t.point = .done (.error (.fieldCountMismatch 2 1)) ∧
      ∃ e, (.error (.fieldCountMismatch 2 1) : Except Error LoadReport) = .error e ∧
        ∃ before v, before <+: reporting ∧ runFrom (step mismatched) u before = some v ∧
          v.TakesFailure e := by
  have hrun : ((runFrom (step mismatched) (start mismatched (fun _ => []) {} : System .plain 2)
      closing).any fun u => u.failsWith 1 (.fieldCountMismatch 2 1) && !u.isDone &&
        checkedAlong (step mismatched) undisturbed u reporting &&
        (runFrom (step mismatched) u reporting).any fun t =>
          t.stopsWith (.fieldCountMismatch 2 1)) = true := by decide +kernel
  obtain ⟨u, hu, hcheck⟩ := exists_reachable hrun
  simp only [Bool.and_eq_true, Bool.not_eq_true'] at hcheck
  obtain ⟨⟨⟨hfails, hrunning⟩, hchecked⟩, hany⟩ := hcheck
  obtain ⟨t, ht, hstops⟩ := (Option.any_eq_true _ _).mp hany
  have hfailing := status_of_failsWith hfails
  have halong : Along (step mismatched) (fun s a => s.undisturbed a = true) u reporting :=
    along_of_checkedAlong (fun _ _ h => h) hchecked
  have hdone := point_of_stopsWith hstops
  exact ⟨u, t, hu, hfailing, hrunning, ht, halong, hdone,
    (cause_iff hu hfailing hrunning ht).1 halong _ hdone⟩

/-- Under the schedule `overtaken`, a worker has failed and reported it, and the
reader returns the text of a pool that has stopped, which no worker ever
reports. -/
theorem cause_counterexample :
    ∃ s t : System .plain 2, Reachable mismatched (fun _ => []) s ∧ s.point = .failedSend ∧
      .failed (.fieldCountMismatch 2 1) ∈ s.events ∧
      step mismatched s (.reader {}) = some t ∧ t.point = .done (.error poolStopped) ∧
      ∀ v : System .plain 2, Reachable mismatched (fun _ => []) v →
        .failed poolStopped ∉ v.events := by
  have hrun : ((runFrom (step mismatched) (start mismatched (fun _ => []) {} : System .plain 2)
      overtaken).any fun s => s.atFailedSend && (failedOf s.events).contains
        (.fieldCountMismatch 2 1) && (step mismatched s (.reader {})).any
        fun t => t.stopsWith poolStopped) = true := by decide +kernel
  obtain ⟨s, hs, hcheck⟩ := exists_reachable hrun
  obtain ⟨hcheck, hany⟩ := Bool.and_eq_true_iff.mp hcheck
  obtain ⟨hfailed, hreported⟩ := Bool.and_eq_true_iff.mp hcheck
  obtain ⟨t, hstep, hstops⟩ := (Option.any_eq_true _ _).mp hany
  have hp := point_of_atFailedSend hfailed
  refine ⟨s, t, hs, hp, ?_, hstep, point_of_stopsWith hstops, ?_⟩
  · rw [List.contains_iff_mem] at hreported
    obtain ⟨event, hevent, he⟩ := List.mem_filterMap.mp hreported
    cases event with
    | closed c => cases he
    | failed e =>
      obtain rfl := Option.some.inj he
      exact hevent
  · intro v hv hmem
    exact (hv.honest.2 _ hmem).ne_poolStopped rfl

end System

end PgDelta.Pipeline
