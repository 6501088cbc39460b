import PgDelta.Manifest.Appending
import PgDelta.Pipeline.Causes

/-!
What a load leaves visible when it fails.

Until phase two, a load does no more to storage than create empty tables. Phase
two ends in an error of its own, which counts the tables that were committed.
Behind it comes one call that can still fail, the append to the load history.
-/

namespace PgDelta.Pipeline

open PgDelta.Lib PgDelta.Builders PgDelta.Types PgDelta.Scan PgDelta.Sink

variable {P : Platform} {n : ℕ}

theorem Reader.onEvent_store [NeZero n] (cfg : LoadConfig) (σ : Store P) (r : Reader P)
    (event : Event) (o : Outside) :
    (r.onEvent (n := n) cfg σ event o).2 = σ ∨
      ∃ preloaded table schema, (r.onEvent (n := n) cfg σ event o).2 =
        (finishOpen P preloaded table schema cfg.mode σ o.openTable).2 := by
  cases event with
  | copyStart table names =>
    simp only [onEvent, onCopyStart]
    split_ifs
    · exact .inl rfl
    · exact .inl rfl
    · unfold openWanted
      split
      next => exact .inl rfl
      next =>
        split
        next => exact .inl rfl
        next columns _ =>
          split
          next => exact .inl rfl
          next preloaded _ =>
            right
            refine ⟨preloaded, table,
              arrowSchema columns cfg.wideNumericAsDecimal cfg.nativeArrays, ?_⟩
            split
            next hopen => rw [hopen]
            next hopen => rw [hopen]
    · exact .inl rfl
  | _ => exact .inl rfl

theorem Burst.step_call {cfg : LoadConfig} {σ σ' : Store P} {b b' : Burst P} {i : ℕ}
    {faults : CommitFaults} {attempts : List Attempt}
    (h : b.step cfg σ i faults = some (b', σ', attempts)) : σ.Call σ' := by
  unfold Burst.step at h
  split at h
  next => cases h
  next t _ =>
    split at h <;>
    · simp only [Option.some.injEq, Prod.mk.injEq] at h
      obtain ⟨-, rfl, -⟩ := h
      exact .nothing
  next t actions _ =>
    have hcall := commit_call σ t.table.uri actions faults.commit
    split at h
    next hcommit =>
      simp only [Option.some.injEq, Prod.mk.injEq] at h
      obtain ⟨-, rfl, -⟩ := h
      rwa [hcommit] at hcall
    next hcommit =>
      simp only [Option.some.injEq, Prod.mk.injEq] at h
      obtain ⟨-, rfl, -⟩ := h
      rwa [hcommit] at hcall
  next t version _ =>
    split at h <;>
    · simp only [Option.some.injEq, Prod.mk.injEq] at h
      obtain ⟨-, rfl, -⟩ := h
      exact .nothing

namespace System

variable {L : Load} {s : System P n}

theorem dispatching_store (s : System P n) (sends : List (Fin n × Job)) (after : After)
    (events : List Event) : (s.dispatching sends after events).store = s.store := by
  cases sends <;> rfl

theorem Move.grows [NeZero n] {t : System P n} {a : Label n} (h : Move L s a t) :
    s.store.Grows t.store := by
  have hevent : ∀ (event : Event) (o : Outside),
      s.store.Grows (s.reader.onEvent (n := n) L.cfg s.store event o).2 := by
    intro event o
    rcases s.reader.onEvent_store (n := n) L.cfg s.store event o with
      hsame | ⟨preloaded, table, schema, hopen⟩
    · rw [hsame]
      exact .refl _
    · rw [hopen]
      exact (finishOpen_call P _ _ _ _ _ _).grows
  have happend := fun report faults =>
    Manifest.append_grows P L.cfg.outputUri L.run report s.store faults
  cases h with
  | event o event events hp reaction σ h =>
    rw [dispatching_store]
    simpa [h] using hevent event o
  | stopEvent o event events hp e σ h => simpa [h] using hevent event o
  | send o i job rest after events hp halive hroom =>
    rw [dispatching_store]
    exact .refl _
  | burst o dumpedBy b hp hover b' σ attempts h => exact (Burst.step_call h).grows
  | recorded o report hp loadId σ h => simpa [h] using happend report o.history
  | stopRecord o report hp e σ h => simpa [h] using happend report o.history
  | _ => exact .refl _

/-- Whatever happens in a load, every version of every table stays where it
was. -/
theorem Reachable.grows [NeZero n] {σ : Store P} (h : Reachable L σ s) : σ.Grows s.store := by
  obtain ⟨faults, labels, hrun⟩ := h
  have hkeep : ∀ (s : System P n) a t, σ.Grows s.store → step L s a = some t → σ.Grows t.store :=
    fun s a t hs hstep => hs.trans (step_move hstep).grows
  exact runFrom_invariant hkeep (Store.Grows.refl σ) hrun

/-! ### Before the first commit -/

/-- An error of phase two, which says how many tables were committed. -/
def isCommitFailed : Error → Bool
  | .commitFailed _ _ _ _ => true
  | _ => false

def Hidden (σ : Store P) (s : System P n) : Prop :=
  match s.point with
  | .committing _ b => s.reader.openTables = [] → b.isOver = true ∧ σ.OnlyCreated s.store
  | .recording _ => s.reader.openTables = [] → σ.OnlyCreated s.store
  | .done (.ok _) => True
  | .done (.error e) => isCommitFailed e = true ∨ σ.OnlyCreated s.store
  | _ => σ.OnlyCreated s.store

/-- An append to the history succeeds, unless no table was opened and the append
leaves storage as opening the history has left it. -/
def HistoryKept (L : Load) (s : System P n) : Label n → Prop
  | .reader o => ∀ report, s.point = .recording report →
      (∃ loadId σ, Manifest.append P L.cfg.outputUri L.run report s.store o.history =
        (.ok loadId, σ)) ∨
      s.reader.openTables = [] ∧
        (Manifest.append P L.cfg.outputUri L.run report s.store o.history).2 =
          (Manifest.openSink P L.cfg.outputUri L.run s.store o.history).2
  | .worker _ _ => True

theorem isOver_start {cfg : LoadConfig} {r : Reader P} (h : r.openTables = []) :
    (Burst.start cfg r).isOver = true := by
  simp [Burst.start, Burst.fill, Burst.assign, Burst.isOver, h]

theorem onEvent_onlyCreated [NeZero n] {σ : Store P} (h : σ.OnlyCreated s.store) (event : Event)
    (o : Outside) : σ.OnlyCreated (s.reader.onEvent (n := n) L.cfg s.store event o).2 := by
  rcases s.reader.onEvent_store (n := n) L.cfg s.store event o with
    hsame | ⟨preloaded, table, schema, hopen⟩
  · rwa [hsame]
  · rw [hopen]
    exact h.finishOpen _ _ _ _ _

theorem Hidden.dispatching {σ : Store P} (h : σ.OnlyCreated s.store) (sends : List (Fin n × Job))
    (after : After) (events : List Event) : (s.dispatching sends after events).Hidden σ := by
  cases sends with
  | cons send sends => exact h
  | nil =>
    cases after with
    | _ => exact h

theorem Hidden.move [NeZero n] {σ : Store P} {t : System P n} {a : Label n} (h : s.Hidden σ)
    (hkept : HistoryKept L s a) (hmove : Move L s a t) : t.Hidden σ := by
  unfold Hidden at h
  cases hmove with
  | read o hp chunk chunks hc scanner events hf =>
    rw [hp] at h
    exact h
  | finish o hp hc he hf dumpedBy hd =>
    rw [hp] at h
    exact fun hnone => ⟨isOver_start hnone, h⟩
  | next o hp =>
    rw [hp] at h
    exact h
  | event o event events hp reaction σ' hevent =>
    rw [hp] at h
    apply Hidden.dispatching
    simpa [hevent] using onEvent_onlyCreated (L := L) h event o
  | send o i job rest after events hp halive hroom =>
    rw [hp] at h
    exact Hidden.dispatching (s := { s.setWorker i { s.workers i with
      jobs := (s.workers i).jobs ++ [job] } with trace := recordDispatch s.trace job }) h rest
        after events
  | sendFailed o i job rest after events hp hdead =>
    rw [hp] at h
    exact h
  | ack o block acks events hp c queue hq hmore =>
    rw [hp] at h
    exact h
  | close o block acks events hp c queue hq hlast =>
    rw [hp] at h
    exact h
  | burst o dumpedBy b hp hover b' σ' attempts hburst =>
    -- without targets the burst is over from the start
    rw [hp] at h
    intro hnone
    rw [(h hnone).1] at hover
    cases hover
  | report o dumpedBy b hp hover hok hm =>
    rw [hp] at h
    exact fun hnone => (h hnone).2
  | succeed o dumpedBy b hp hover hok hm => trivial
  | recorded o report hp loadId σ' hrecorded => trivial
  | stop o e hphase queue hqueue =>
    right
    rcases hphase with hp | ⟨events, hp⟩ | hp | ⟨block, acks, events, hp⟩ <;>
    · rw [hp] at h
      exact h
  | stopEvent o event events hp e σ' hevent =>
    rw [hp] at h
    right
    simpa [hevent] using onEvent_onlyCreated (L := L) h event o
  | interrupt o block acks events hp c queue hq hlast =>
    rw [hp] at h
    exact .inr h
  | commitFailed o dumpedBy b hp hover table e hfail => exact .inl rfl
  | stopRecord o report hp e σ' hrecord =>
    rw [hp] at h
    right
    -- only an append that changes nothing may fail here
    rcases hkept report hp with ⟨loadId, σ'', hok⟩ | ⟨hnone, hsame⟩
    · rw [hrecord] at hok
      cases hok
    · rw [hrecord] at hsame
      rw [show σ' = _ from hsame]
      rcases Manifest.openSink_store P L.cfg.outputUri L.run s.store o.history with
        hopen | ⟨preloaded, -, hopen⟩
      · rw [hopen]
        exact h hnone
      · rw [hopen]
        exact (h hnone).finishOpen _ _ _ _ _
  | job i faults hrun job jobs hjobs handled hhandle => exact h
  | jobFailed i faults hrun job jobs hjobs e hhandle => exact h
  | sendAck i faults c hstatus hroom => exact h
  | sendFailure i faults e hstatus hroom => exact h
  | exit i faults hstatus => exact h
  | leave i faults hstatus hjobs hdone => exact h

theorem hidden_start (L : Load) (σ : Store P) (faults : StartFaults) :
    (start L σ faults : System P n).Hidden σ := by
  unfold Hidden start
  cases hstart : startError L faults with
  | some e => exact .inr (Store.OnlyCreated.refl σ)
  | none => exact Store.OnlyCreated.refl σ

/-- Where every append to the history succeeds, or has nothing to record, a
load that returns another error than that of phase two has changed nothing that
can be seen. -/
theorem only_commitFailed_shows [NeZero n] {σ : Store P} {faults : StartFaults}
    {labels : List (Label n)} (hkept : Along (step L) (HistoryKept L) (start L σ faults) labels)
    (hrun : runFrom (step L) (start L σ faults) labels = some s) {e : Error}
    (hpoint : s.point = .done (.error e)) (he : isCommitFailed e = false) :
    σ.Unchanged s.store := by
  have hkeep : ∀ (s : System P n) a t, s.Hidden σ → HistoryKept L s a → step L s a = some t →
      t.Hidden σ := fun s a t hs ha hstep => hs.move ha (step_move hstep)
  have hhidden := runFrom_invariant_along hkeep (hidden_start L σ faults) hkept hrun
  simp only [Hidden, hpoint, he] at hhidden
  exact (hhidden.resolve_left (by simp)).unchanged

/-- One table with one row. -/
def single : Load where
  cfg := { outputUri := "out" }
  input :=
    { chunks :=
        [⟨unlines newline [ascii "-- Dumped by pg_dump version 17.2", ascii "CREATE TABLE t (",
            ascii "    a integer", ascii ");", ascii "COPY t (a) FROM stdin;", ascii "1",
            ascii "\\."], 0⟩] }

def blockDecoded : List (Label 1) := List.replicate 4 (.worker 0 {})

/-- The only worker decodes the block while the reader waits for it. -/
def blockClosed : List (Label 1) := List.replicate 9 (.reader {}) ++ blockDecoded ++ [.reader {}]

def isRecording (s : System P n) : Bool :=
  match s.point with
  | .recording _ => true
  | _ => false

theorem historyKept_of_never [NeZero n] {labels : List (Label n)}
    (h : ∀ i < labels.length,
      (runFrom (step L) s (labels.take i)).all (fun t => !t.isRecording) = true) :
    Along (step L) (HistoryKept L) s labels := by
  apply along_of_take
  intro i hi t ht
  have hnever := h i hi
  rw [ht] at hnever
  cases hlabel : labels[i] with
  | worker j faults => trivial
  | reader o =>
    intro report hp
    simp [isRecording, hp] at hnever

/-- The caller interrupts the load behind its only block, and its table is
there without a row. -/
theorem only_commitFailed_shows_interrupted :
    ∃ s : System .plain 1, runFrom (step single) (start single (fun _ => []) {})
        (blockClosed ++ [.reader { progress := fun _ => false }]) = some s ∧
      s.point = .done (.error .interrupted) ∧ s.store "out/t" ≠ [] ∧
      Store.Unchanged (fun _ => []) s.store := by
  have hrun : (runFrom (step single) (start single (fun _ => []) {} : System .plain 1)
      (blockClosed ++ [.reader { progress := fun _ => false }])).any
        (fun s => s.stopsWith .interrupted && !(s.store "out/t").isEmpty) = true := by
    decide +kernel
  obtain ⟨s, hs, hcheck⟩ := (Option.any_eq_true _ _).mp hrun
  obtain ⟨hstops, hstore⟩ := Bool.and_eq_true_iff.mp hcheck
  have hp := point_of_stopsWith hstops
  refine ⟨s, hs, hp, by simpa using hstore, ?_⟩
  exact only_commitFailed_shows (historyKept_of_never (by decide +kernel)) hs hp rfl

/-- The table of `single`, there already and without rows. -/
def standing : Store .plain :=
  fun uri => if uri = "out/t" then [⟨⟨[("a", .int32)], by simp⟩, []⟩] else []

/-- The row is committed, the append to the history fails, and the error that is
returned says nothing of a commit. -/
theorem only_commitFailed_shows_counterexample :
    ∃ s : System .plain 1, Reachable single standing s ∧
      s.point = .done (.error (.delta "refused")) ∧ isCommitFailed (.delta "refused") = false ∧
      standing "out/t" ≠ [] ∧ s.store "out/t" ≠ standing "out/t" ∧
      ∃ row ∈ s.store.visible "out/t", row ∉ standing.visible "out/t" := by
  have hrun : (runFrom (step single) (start single standing {} : System .plain 1)
      (blockClosed ++ List.replicate 6 (.reader {}) ++
        [.reader { history := { commit := { commit := .failed "refused" } } }])).any
        (fun s => s.stopsWith (.delta "refused") && (s.store "out/t").length == 2 &&
          (s.store.visible "out/t").length == 1) = true := by
    decide +kernel
  obtain ⟨s, hs, hcheck⟩ := exists_reachable hrun
  simp only [Bool.and_eq_true, beq_iff_eq] at hcheck
  obtain ⟨⟨hstops, hversions⟩, hrows⟩ := hcheck
  obtain ⟨row, hrow⟩ := List.length_eq_one_iff.mp hrows
  refine ⟨s, hs, point_of_stopsWith hstops, rfl, by simp [standing], ?_, row, by simp [hrow], ?_⟩
  · intro hsame
    rw [hsame] at hversions
    simp [standing] at hversions
  · simp [standing, Store.visible, Version.rows]

end System

end PgDelta.Pipeline
