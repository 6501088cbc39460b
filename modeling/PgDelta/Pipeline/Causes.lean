import PgDelta.Pipeline.Progress
import PgDelta.Types.Refusals

/-!
A load fails when a worker does.

A worker never finds a block without its context, so that the text of a pool
that has stopped is never a worker's own error. Once a worker's loop has ended
in an error, the load attempts no commit and ends in an error as well.
-/

namespace PgDelta.Pipeline

open PgDelta.Lib PgDelta.Builders PgDelta.Types PgDelta.Scan PgDelta.Sink PgDelta.Copy

variable {P : Platform} {n : ℕ}

/-! ### The errors of a worker -/

def OfWorker (e : Error) : Prop := e.isIo = false ∨ e = ColumnBuilder.panicked

theorem OfWorker.ne_poolStopped {e : Error} (h : OfWorker e) : e ≠ poolStopped := by
  rintro rfl
  rcases h with h | h
  · cases h
  · exact absurd h (by decide)

theorem WorkerBlock.new_error {ctx : BlockCtx} {path : FilePath} {faults : JobFaults} {e : Error}
    (h : WorkerBlock.new ctx path faults = .error e) : OfWorker e := by
  unfold WorkerBlock.new TableWriter.new at h
  cases hfault : faults.writer with
  | none => simp [hfault] at h
  | some message =>
    simp only [hfault, Except.error.injEq] at h
    subst h
    exact .inl rfl

theorem WorkerBlock.flush_error {b : WorkerBlock} {faults : JobFaults} {e : Error}
    (h : b.flush faults = .error e) : OfWorker e := by
  unfold WorkerBlock.flush at h
  split at h
  next e' hfinish =>
    obtain rfl := Except.error.inj h
    exact BatchBuilder.finish_error hfinish
  next => cases h
  next batch builder hfinish =>
    split at h
    next e' hwrite =>
      obtain rfl := Except.error.inj h
      unfold TableWriter.write at hwrite
      split at hwrite
      · obtain rfl := Except.error.inj hwrite
        exact .inl rfl
      · cases hwrite
    next => cases h

theorem WorkerBlock.row_error {b : WorkerBlock} {ctx : BlockCtx} {faults : JobFaults}
    {line : Bytes} {e : Error} (h : b.row ctx faults line = .error e) : OfWorker e := by
  unfold WorkerBlock.row at h
  split at h
  next e' hdecode =>
    obtain rfl := Except.error.inj h
    exact .inl (decodeRow_plain _ _ _ _ hdecode)
  next scratch ranges hdecode =>
    split at h
    next e' happend =>
      obtain rfl := Except.error.inj h
      exact .inl (BatchBuilder.appendRowRanges_plain _ _ _ _ happend)
    next builder happend =>
      split at h
      · exact WorkerBlock.flush_error h
      · cases h

theorem WorkerBlock.rows_error {b : WorkerBlock} {ctx : BlockCtx} {faults : JobFaults}
    {lines : List Bytes} {e : Error} (h : b.rows ctx faults lines = .error e) : OfWorker e := by
  induction lines generalizing b with
  | nil => cases h
  | cons line lines ih =>
    simp only [WorkerBlock.rows] at h
    split at h
    next e' hrow =>
      obtain rfl := Except.error.inj h
      exact WorkerBlock.row_error hrow
    next b' written hrow =>
      split at h
      next e' hrows =>
        obtain rfl := Except.error.inj h
        exact ih hrows
      next => cases h

theorem closeBlock_error {b : WorkerBlock} {generation : ℕ} {faults : JobFaults} {e : Error}
    (h : LoopState.closeBlock (P := P) b generation faults = .error e) : OfWorker e := by
  unfold LoopState.closeBlock at h
  split at h
  next e' hflush =>
    obtain rfl := Except.error.inj h
    exact WorkerBlock.flush_error hflush
  next b' written hflush =>
    split at h
    next e' hstage =>
      obtain rfl := Except.error.inj h
      unfold TableWriter.stage at hstage
      split at hstage
      · obtain rfl := Except.error.inj hstage
        exact .inl rfl
      · cases hstage
    next => cases h

theorem Worker.Sound.context {run i : ℕ} {w : Worker P} (h : w.Sound run i)
    (hrun : w.status = .running) {generation : ℕ} {bytes : Bytes} {jobs : List Job}
    (hjobs : w.jobs = .rows generation bytes :: jobs) :
    (w.state.ctxs generation).isSome = true := by
  rcases h with hexited | ⟨ctx, stage, taken, queued, written, c, hfollows⟩
  · rw [hrun] at hexited
    cases hexited
  · cases hfollows with
    | fresh => cases hjobs
    | opening hstage => cases hjobs
    | working hstage block hdata =>
      cases queued with
      | nil =>
        simp only [jobsOf, List.map_nil, List.nil_append] at hjobs
        split at hjobs <;> cases hjobs
      | cons payload queued =>
        simp only [jobsOf, List.map_cons, List.cons_append, List.cons.injEq, Job.rows.injEq]
          at hjobs
        obtain ⟨⟨rfl, -⟩, -⟩ := hjobs
        simp [LoopState.holding]
    | acking hdata => cases hrun
    | idle hdata => cases hjobs
    | dead hstage hdead =>
      rw [hrun] at hdead
      cases hdead

/-- Whatever ends a worker's loop is an error of its own. -/
theorem Worker.Sound.handle_error {run i : ℕ} {w : Worker P} (h : w.Sound run i)
    (hrun : w.status = .running) {job : Job} {jobs : List Job} (hjobs : w.jobs = job :: jobs)
    {path : FilePath} {faults : JobFaults} {e : Error}
    (hhandle : w.state.handle (P := P) path job faults = .error e) : OfWorker e := by
  unfold LoopState.handle at hhandle
  split at hhandle
  · exact .inr (Except.error.inj hhandle).symm
  · cases job with
    | openBlock ctx => cases hhandle
    | rows generation bytes =>
      obtain ⟨ctx, hctx⟩ := Option.isSome_iff_exists.mp (h.context hrun hjobs)
      simp only [LoopState.onRows, hctx] at hhandle
      split at hhandle
      next e' hblock =>
        obtain rfl := Except.error.inj hhandle
        unfold LoopState.blockFor at hblock
        split at hblock
        · cases hblock
        · exact WorkerBlock.new_error hblock
      next b hblock =>
        split at hhandle
        next e' hrows =>
          obtain rfl := Except.error.inj hhandle
          exact WorkerBlock.rows_error hrows
        next => cases hhandle
    | close generation =>
      simp only [LoopState.onClose] at hhandle
      split at hhandle
      · cases hhandle
      · split at hhandle
        next e' hclose =>
          obtain rfl := Except.error.inj hhandle
          exact closeBlock_error hclose
        next => cases hhandle

namespace System

variable {L : Load} {s : System P n}

/-- No worker fails, or has failed, but with an error of its own. -/
def Honest (s : System P n) : Prop :=
  (∀ i e, (s.workers i).status = .failing e → OfWorker e) ∧
    ∀ e, .failed e ∈ s.events → OfWorker e

theorem Honest.setWorker (h : s.Honest) {i : Fin n} {w : Worker P}
    (hw : ∀ e, w.status = .failing e → OfWorker e) :
    ∀ j e, (Function.update s.workers i w j).status = .failing e → OfWorker e := by
  intro j e hj
  rcases eq_or_ne j i with rfl | hji
  · exact hw e (by simpa using hj)
  · exact h.1 j e (by simpa [hji] using hj)

theorem Honest.move [NeZero n] {t : System P n} {a : Label n} (h : s.Honest)
    (haccounted : s.Accounted L) (hmove : Move L s a t) : t.Honest := by
  have hqueue : ∀ {queue : List (WorkerEvent P)}, queue <:+ s.events →
      ∀ e, .failed e ∈ queue → OfWorker e :=
    fun hsuffix e he => h.2 e (hsuffix.subset he)
  cases hmove with
  | event o event events hp reaction σ hevent =>
    refine ⟨?_, ?_⟩
    · intro i e hi
      simp only [dispatching_workers] at hi
      exact h.1 i e hi
    · intro e he
      cases hsends : reaction.sends with
      | nil =>
        simp only [dispatching, hsends] at he
        exact h.2 e he
      | cons send sends =>
        simp only [dispatching, hsends] at he
        exact h.2 e he
  | send o i job rest after events hp halive hroom =>
    refine ⟨?_, ?_⟩
    · intro j e hj
      simp only [dispatching_workers] at hj
      exact h.setWorker (i := i)
        (w := { s.workers i with jobs := (s.workers i).jobs ++ [job] }) (h.1 i) j e hj
    · intro e he
      cases rest <;> exact h.2 e he
  | ack o block acks events hp c queue hq hmore =>
    exact ⟨h.1, hqueue (hq ▸ List.suffix_cons _ queue)⟩
  | close o block acks events hp c queue hq hlast =>
    exact ⟨h.1, hqueue (hq ▸ List.suffix_cons _ queue)⟩
  | interrupt o block acks events hp c queue hq hlast =>
    exact ⟨h.1, hqueue (hq ▸ List.suffix_cons _ queue)⟩
  | stop o e hphase queue hsuffix => exact ⟨h.1, hqueue hsuffix⟩
  | job i faults hrun job jobs hjobs handled hhandle =>
    refine ⟨h.setWorker fun e he => ?_, h.2⟩
    simp only [Handled.status] at he
    split at he <;> cases he
  | jobFailed i faults hrun job jobs hjobs e hhandle =>
    refine ⟨h.setWorker fun e' he => ?_, h.2⟩
    obtain rfl : e = e' := by simpa using he
    exact (haccounted.standing.sound i).handle_error hrun hjobs hhandle
  | sendAck i faults c hstatus hroom =>
    exact ⟨h.setWorker fun e he => (by cases he), fun e he => h.2 e (by simpa using he)⟩
  | sendFailure i faults e hstatus hroom =>
    refine ⟨h.setWorker fun e he => (by cases he), fun e' he => ?_⟩
    rcases List.mem_append.mp he with he | he
    · exact h.2 e' he
    · obtain rfl : e' = e := by simpa using he
      exact h.1 i e' hstatus
  | exit i faults hstatus => exact ⟨h.setWorker fun e he => (by cases he), h.2⟩
  | leave i faults hstatus hjobs hdone => exact ⟨h.setWorker fun e he => (by cases he), h.2⟩
  | _ => exact h

theorem Reachable.honest [NeZero n] {σ : Store P} (h : Reachable L σ s) : s.Honest := by
  obtain ⟨faults, labels, hrun⟩ := h
  have hkeep : ∀ (s : System P n) a t, (s.Accounted L ∧ s.Aligned L) ∧ s.Honest →
      step L s a = some t → (t.Accounted L ∧ t.Aligned L) ∧ t.Honest := by
    rintro s a t ⟨⟨haccounted, haligned⟩, hhonest⟩ hstep
    have hmove := step_move hstep
    exact ⟨⟨haccounted.move haligned hmove, haligned.move hmove⟩, hhonest.move haccounted hmove⟩
  have hstart : (start L σ faults : System P n).Honest := by
    refine ⟨fun i e hi => ?_, fun e he => ?_⟩
    · cases hi
    · cases he
  exact (runFrom_invariant hkeep
    ⟨⟨accounted_start L σ faults, aligned_start L σ faults⟩, hstart⟩ hrun).2

/-! ### A failure is never lost -/

/-- Some worker's loop has ended in an error. -/
def SomeDead (s : System P n) : Prop := ∃ i, (s.workers i).status.isDead = true

def stopsWith (s : System P n) (e : Error) : Bool :=
  match s.point with
  | .done (.error e') => e' == e
  | _ => false

theorem point_of_stopsWith {e : Error} (h : s.stopsWith e = true) :
    s.point = .done (.error e) := by
  unfold stopsWith at h
  split at h
  next e' hp => rw [hp, eq_of_beq h]
  next => cases h

/-- Phase two has begun, or would have been reported as done. -/
def pastPhaseOne (s : System P n) : Bool :=
  match s.point with
  | .committing _ _ | .recording _ | .done (.ok _) => true
  | _ => false

/-- Once a commit has been attempted, the reader is past phase one and every
worker is idle or gone. -/
def CommitsLast (s : System P n) : Prop :=
  s.trace.attempts ≠ [] →
    (s.pastPhaseOne = true ∨ s.isDone = true) ∧
      ∀ i, s.workers i = {} ∨ s.workers i = { status := .exited }

theorem CommitsLast.move [NeZero n] {t : System P n} {a : Label n} (h : s.CommitsLast)
    (hstanding : s.Standing L) (hmove : Move L s a t) : t.CommitsLast := by
  -- In phase one nothing has been attempted yet.
  have hphase : s.pastPhaseOne = false → s.isDone = false → s.trace.attempts = [] := by
    intro hpast hdone
    by_contra hne
    rcases (h hne).1 with h | h
    · rw [hpast] at h
      cases h
    · rw [hdone] at h
      cases h
  -- A worker that moves is neither idle nor gone.
  have hworker : ∀ {i : Fin n} {w : Worker P} {more written},
      WorkerMove L.run i (s.workers i) w more written → s.trace.attempts = [] := by
    intro i w more written hmove
    by_contra hne
    rcases (h hne).2 i with hw | hw
    · exact hmove.ne_idle hw
    · have hexited := hmove.not_exited
      rw [hw] at hexited
      cases hexited
  unfold Standing at hstanding
  intro hattempts
  cases hmove with
  | burst o dumpedBy b hp hover b' σ attempts hburst =>
    simp only [hp] at hstanding
    exact ⟨.inl rfl, fun i => .inl (congrFun hstanding.1 i)⟩
  | report o dumpedBy b hp hover hok hm =>
    simp only [hp] at hstanding
    exact ⟨.inl rfl, fun i => .inl (congrFun hstanding.1 i)⟩
  | succeed o dumpedBy b hp hover hok hm =>
    simp only [hp] at hstanding
    exact ⟨.inl rfl, fun i => .inl (congrFun hstanding.1 i)⟩
  | recorded o report hp loadId σ hrecorded =>
    simp only [hp] at hstanding
    exact ⟨.inl rfl, fun i => .inl (congrFun hstanding.1 i)⟩
  | commitFailed o dumpedBy b hp hover table e hfail =>
    simp only [hp] at hstanding
    exact ⟨.inr rfl, fun i => .inl (congrFun hstanding.1 i)⟩
  | stopRecord o report hp e σ hrecord =>
    simp only [hp] at hstanding
    exact ⟨.inr rfl, fun i => .inl (congrFun hstanding.1 i)⟩
  | leave i faults hstatus hjobs hdone =>
    obtain ⟨hphase, hworkers⟩ := h hattempts
    refine ⟨hphase, fun j => ?_⟩
    rcases eq_or_ne j i with rfl | hji
    · rcases hworkers j with hw | hw
      · right
        simp [setWorker, hw]
      · simp [hw] at hstatus
    · simpa [setWorker, hji] using hworkers j
  | job i faults hrun job jobs hjobs handled hhandle =>
    exact absurd (hworker (.job job jobs faults handled hrun hjobs hhandle)) hattempts
  | jobFailed i faults hrun job jobs hjobs e hhandle =>
    exact absurd (hworker (.jobFailed job jobs faults e hrun hjobs hhandle)) hattempts
  | sendAck i faults c hstatus hroom => exact absurd (hworker (.sendAck c hstatus)) hattempts
  | sendFailure i faults e hstatus hroom =>
    exact absurd (hworker (.sendFailure e hstatus)) hattempts
  | exit i faults hstatus => exact absurd (hworker (.exit hstatus)) hattempts
  | event o event events hp reaction σ hevent =>
    rw [dispatching_trace] at hattempts
    exact absurd (hphase (by simp [pastPhaseOne, hp]) (by simp [isDone, hp])) hattempts
  | send o i job rest after events hp halive hroom =>
    have hnone := hphase (by simp [pastPhaseOne, hp]) (by simp [isDone, hp])
    rw [dispatching_trace] at hattempts
    cases job <;> exact absurd hnone hattempts
  | stop o e hphase' queue hsuffix =>
    refine absurd (hphase ?_ ?_) hattempts <;>
      rcases hphase' with hp | ⟨events, hp⟩ | hp | ⟨block, acks, events, hp⟩ <;>
      simp [pastPhaseOne, isDone, hp]
  | read o hp chunk chunks hc scanner events hf =>
    exact absurd (hphase (by simp [pastPhaseOne, hp]) (by simp [isDone, hp])) hattempts
  | finish o hp hc he hf dumpedBy hd =>
    exact absurd (hphase (by simp [pastPhaseOne, hp]) (by simp [isDone, hp])) hattempts
  | next o hp =>
    exact absurd (hphase (by simp [pastPhaseOne, hp]) (by simp [isDone, hp])) hattempts
  | sendFailed o i job rest after events hp hdead =>
    exact absurd (hphase (by simp [pastPhaseOne, hp]) (by simp [isDone, hp])) hattempts
  | ack o block acks events hp c queue hq hmore =>
    exact absurd (hphase (by simp [pastPhaseOne, hp]) (by simp [isDone, hp])) hattempts
  | close o block acks events hp c queue hq hlast =>
    exact absurd (hphase (by simp [pastPhaseOne, hp]) (by simp [isDone, hp])) hattempts
  | stopEvent o event events hp e σ hevent =>
    exact absurd (hphase (by simp [pastPhaseOne, hp]) (by simp [isDone, hp])) hattempts
  | interrupt o block acks events hp c queue hq hlast =>
    exact absurd (hphase (by simp [pastPhaseOne, hp]) (by simp [isDone, hp])) hattempts

theorem Reachable.commitsLast [NeZero n] {σ : Store P} (h : Reachable L σ s) : s.CommitsLast := by
  obtain ⟨faults, labels, hrun⟩ := h
  have hkeep : ∀ (s : System P n) a t, (s.Accounted L ∧ s.Aligned L) ∧ s.CommitsLast →
      step L s a = some t → (t.Accounted L ∧ t.Aligned L) ∧ t.CommitsLast := by
    rintro s a t ⟨⟨haccounted, haligned⟩, hlast⟩ hstep
    have hmove := step_move hstep
    exact ⟨⟨haccounted.move haligned hmove, haligned.move hmove⟩,
      hlast.move haccounted.standing hmove⟩
  have hstart : (start L σ faults : System P n).CommitsLast := fun h => absurd rfl h
  exact (runFrom_invariant hkeep
    ⟨⟨accounted_start L σ faults, aligned_start L σ faults⟩, hstart⟩ hrun).2

/-- A worker has died, nothing has been committed, and the tables whose blocks
have been recorded are the given ones. -/
structure Doomed (tables : List TableStats) (s : System P n) : Prop where
  dead : s.SomeDead
  attempts : s.trace.attempts = []
  phase : s.pastPhaseOne = false
  tables : s.reader.tables = tables

/-- The pool is not as it was before the block while a worker is dead. -/
theorem not_quiet_of_dead (h : s.SomeDead) {queue : List (WorkerEvent P)} :
    ¬ Pool.Quiet (⟨s.workers, queue, s.trace⟩ : Pool P n) := by
  rintro ⟨hworkers, -⟩
  obtain ⟨i, hi⟩ := h
  rw [show s.workers = _ from hworkers] at hi
  cases hi

theorem SomeDead.setWorker (h : s.SomeDead) {i : Fin n} {w : Worker P}
    (hw : (s.workers i).status.isDead = true → w.status.isDead = true) :
    ∃ j, (Function.update s.workers i w j).status.isDead = true := by
  obtain ⟨j, hj⟩ := h
  refine ⟨j, ?_⟩
  rcases eq_or_ne j i with rfl | hji
  · simpa using hw hj
  · simpa [hji] using hj

/-- The last acknowledgement of a block does not come while a worker is dead. -/
theorem Accounted.not_closing (h : s.Accounted L) (hdead : s.SomeDead) {block : OpenBlock}
    {acks : Acks P} {events : List Event} (hp : s.point = .collecting block acks events)
    {c : BlockClosed P} {queue : List (WorkerEvent P)} (hq : s.events = .closed c :: queue) :
    ¬ n ≤ acks.acked + 1 := by
  intro hlast
  have hstanding := h.standing
  simp only [Standing, hp] at hstanding
  obtain ⟨-, ctx, collected, hhand, hacks, -⟩ := hstanding
  rw [hacks, length_collected] at hlast
  exact not_quiet_of_dead hdead (hhand.close hq (by simpa [Acks.start] using hlast))

theorem Doomed.move [NeZero n] {tables : List TableStats} {t : System P n} {a : Label n}
    (h : s.Doomed tables) (haccounted : s.Accounted L) (haligned : s.Aligned L)
    (hmove : Move L s a t) : t.Doomed tables := by
  have hphase := h.phase
  cases hmove with
  | read o hp chunk chunks hc scanner events hf => exact ⟨h.dead, h.attempts, rfl, h.tables⟩
  | finish o hp hc he hf dumpedBy hd =>
    -- phase two begins with all workers idle, and one is dead
    have hquiet := (haccounted.move haligned (.finish o hp hc he hf dumpedBy hd)).standing
    exact absurd hquiet (not_quiet_of_dead h.dead)
  | next o hp => exact ⟨h.dead, h.attempts, rfl, h.tables⟩
  | event o event events hp reaction σ hevent =>
    have htables : reaction.reader.tables = s.reader.tables := by
      cases Reader.onEvent_reacts hevent <;> rfl
    refine ⟨?_, ?_, ?_, ?_⟩
    · simpa [SomeDead] using h.dead
    · simpa using h.attempts
    · cases hsends : reaction.sends with
      | cons send sends => rfl
      | nil => cases hafter : reaction.after <;> rfl
    · simpa [htables] using h.tables
  | send o i job rest after events hp halive hroom =>
    refine ⟨?_, ?_, ?_, ?_⟩
    · simp only [SomeDead, dispatching_workers]
      exact h.dead.setWorker fun hi => hi
    · rw [dispatching_trace]
      cases job <;> exact h.attempts
    · cases rest with
      | cons send sends => rfl
      | nil => cases after <;> rfl
    · rw [dispatching_tables]
      exact h.tables
  | sendFailed o i job rest after events hp hdead => exact ⟨h.dead, h.attempts, rfl, h.tables⟩
  | ack o block acks events hp c queue hq hmore => exact ⟨h.dead, h.attempts, rfl, h.tables⟩
  | close o block acks events hp c queue hq hlast =>
    -- the dead worker never acknowledges the block
    exact absurd hlast (haccounted.not_closing h.dead hp hq)
  | interrupt o block acks events hp c queue hq hlast =>
    exact absurd hlast (haccounted.not_closing h.dead hp hq)
  | burst o dumpedBy b hp hover b' σ attempts hburst => simp [pastPhaseOne, hp] at hphase
  | report o dumpedBy b hp hover hok hm => simp [pastPhaseOne, hp] at hphase
  | succeed o dumpedBy b hp hover hok hm => simp [pastPhaseOne, hp] at hphase
  | recorded o report hp loadId σ hrecorded => simp [pastPhaseOne, hp] at hphase
  | commitFailed o dumpedBy b hp hover table e hfail => simp [pastPhaseOne, hp] at hphase
  | stopRecord o report hp e σ hrecord => simp [pastPhaseOne, hp] at hphase
  | stop o e hphase' queue hsuffix => exact ⟨h.dead, h.attempts, rfl, h.tables⟩
  | stopEvent o event events hp e σ hevent => exact ⟨h.dead, h.attempts, rfl, h.tables⟩
  | job i faults hrun job jobs hjobs handled hhandle =>
    refine ⟨h.dead.setWorker fun hi => ?_, h.attempts, h.phase, h.tables⟩
    rw [hrun] at hi
    cases hi
  | jobFailed i faults hrun job jobs hjobs e hhandle =>
    exact ⟨h.dead.setWorker fun _ => rfl, h.attempts, h.phase, h.tables⟩
  | sendAck i faults c hstatus hroom =>
    refine ⟨h.dead.setWorker fun hi => ?_, h.attempts, h.phase, h.tables⟩
    rw [hstatus] at hi
    cases hi
  | sendFailure i faults e hstatus hroom =>
    exact ⟨h.dead.setWorker fun _ => rfl, h.attempts, h.phase, h.tables⟩
  | exit i faults hstatus => exact ⟨h.dead.setWorker fun _ => rfl, h.attempts, h.phase, h.tables⟩
  | leave i faults hstatus hjobs hdone =>
    exact ⟨h.dead.setWorker fun _ => rfl, h.attempts, h.phase, h.tables⟩

/-- Where a worker has just failed, the load is doomed. -/
theorem Reachable.doomed [NeZero n] {σ : Store P} (h : Reachable L σ s) {i : Fin n} {e : Error}
    (hfailing : (s.workers i).status = .failing e) : s.Doomed s.reader.tables := by
  have hdead : s.SomeDead := ⟨i, by rw [hfailing]; rfl⟩
  have hworker : ¬ (s.workers i = {} ∨ s.workers i = { status := .exited }) := by
    rintro (hw | hw) <;> simp [hw] at hfailing
  refine ⟨hdead, ?_, ?_, rfl⟩
  · by_contra hattempts
    exact hworker ((h.commitsLast hattempts).2 i)
  · have hstanding := h.accounted.1.standing
    unfold Standing at hstanding
    unfold pastPhaseOne
    split
    next hp =>
      simp only [hp] at hstanding
      exact absurd (.inl (congrFun hstanding.1 i)) hworker
    next hp =>
      simp only [hp] at hstanding
      exact absurd (.inl (congrFun hstanding.1 i)) hworker
    next hp =>
      simp only [hp] at hstanding
      exact absurd (hstanding.2 i) hworker
    next => rfl

/-- A failure is never lost: a load one of whose workers has failed attempts no
commit, records no further block, and ends in an error. -/
theorem failure_never_lost [NeZero n] {σ : Store P} (h : Reachable L σ s) {i : Fin n} {e : Error}
    (hfailing : (s.workers i).status = .failing e) :
    (∀ labels t, runFrom (step L) s labels = some t →
      t.trace.attempts = [] ∧ t.pastPhaseOne = false ∧ t.reader.tables = s.reader.tables) ∧
      Inevitably (step L) (fun t => ∃ e, t.point = .done (.error e)) s := by
  have hkeep : ∀ (t : System P n) a u, (t.Accounted L ∧ t.Aligned L) ∧ t.Doomed s.reader.tables →
      step L t a = some u → (u.Accounted L ∧ u.Aligned L) ∧ u.Doomed s.reader.tables := by
    rintro t a u ⟨⟨haccounted, haligned⟩, hdoomed⟩ hstep
    have hmove := step_move hstep
    exact ⟨⟨haccounted.move haligned hmove, haligned.move hmove⟩,
      hdoomed.move haccounted haligned hmove⟩
  have hs := And.intro h.accounted (h.doomed hfailing)
  refine ⟨fun labels t hrun => ?_, ?_⟩
  · have hdoomed := (runFrom_invariant hkeep hs hrun).2
    exact ⟨hdoomed.attempts, hdoomed.phase, hdoomed.tables⟩
  · refine (h.inevitably_finished.with_invariant hkeep hs).mono ?_
    rintro t ⟨⟨hdone, -⟩, -, hdoomed⟩
    have hphase := hdoomed.phase
    cases hp : t.point with
    | done result =>
      cases result with
      | error e => exact ⟨e, rfl⟩
      | ok report => simp [pastPhaseOne, hp] at hphase
    | _ => simp [isDone, hp] at hdone

/-- The second worker's row has a field too many. -/
theorem failure_never_lost_mismatched :
    ∃ s : System .plain 2, Reachable mismatched (fun _ => []) s ∧
      (s.workers 1).status = .failing (.fieldCountMismatch 2 1) ∧
      Inevitably (step mismatched) (fun t => ∃ e, t.point = .done (.error e)) s := by
  have hrun : ((runFrom (step mismatched) (start mismatched (fun _ => []) {} : System .plain 2)
      closing).any fun s =>
        match (s.workers 1).status with
        | .failing e => e == .fieldCountMismatch 2 1
        | _ => false) = true := by decide +kernel
  obtain ⟨s, hs, hcheck⟩ := exists_reachable hrun
  have hfailing : (s.workers 1).status = .failing (.fieldCountMismatch 2 1) := by
    split at hcheck
    next e he => rw [he, eq_of_beq hcheck]
    next => cases hcheck
  exact ⟨s, hs, hfailing, (failure_never_lost hs hfailing).2⟩

end System

end PgDelta.Pipeline
