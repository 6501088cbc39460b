import PgDelta.Lib.Replay
import PgDelta.Pipeline.Visibility

/-!
Phase two as commits made one after another.

Many commits are in flight at once, each somewhere between its calls to storage.
`Serial` says that storage nevertheless holds what a log of commits leaves that
is replayed on the tables as phase two found them, and which of the targets have
their commit in that log.
-/

namespace PgDelta.Pipeline

open PgDelta.Lib PgDelta.Builders PgDelta.Types PgDelta.Scan PgDelta.Sink

variable {P : Platform} {n : ℕ}

namespace Burst

variable {cfg : LoadConfig} {σ σ' : Store P} {b b' : Burst P} {i : ℕ} {faults : CommitFaults}
  {attempts : List Attempt}

/-! ### What a step can do -/

/-- Everything that one step of phase two can do. -/
inductive Moves (cfg : LoadConfig) (σ : Store P) (b : Burst P) (i : ℕ) (faults : CommitFaults) :
    Burst P → Store P → List Attempt → Prop
  /-- The actions of a commit cannot be put together. -/
  | refused (t : CommitTarget P) (hi : b.flight[i]? = some ⟨t, .begun⟩) (e : Error)
      (h : prepareCommit P t.table t.actions cfg.mode (newSchema t) faults = .error e) :
      Moves cfg σ b i faults (b.settle cfg.concurrency i t.qualified (.error e)) σ
        [⟨t.table.uri, false, false⟩]
  | prepared (t : CommitTarget P) (hi : b.flight[i]? = some ⟨t, .begun⟩)
      (actions : List (Action P))
      (h : prepareCommit P t.table t.actions cfg.mode (newSchema t) faults = .ok actions) :
      Moves cfg σ b i faults { b with flight := b.flight.set i ⟨t, .prepared actions⟩ } σ []
  /-- The commit fails, and nothing becomes visible. -/
  | failed (t : CommitTarget P) (actions : List (Action P))
      (hi : b.flight[i]? = some ⟨t, .prepared actions⟩) (message : String) :
      Moves cfg σ b i faults (b.settle cfg.concurrency i t.qualified (.error (delta message))) σ
        [⟨t.table.uri, false, false⟩]
  /-- The commit takes effect, and its answer is lost. -/
  | lost (t : CommitTarget P) (actions : List (Action P))
      (hi : b.flight[i]? = some ⟨t, .prepared actions⟩) (latest : Version P)
      (hlatest : (σ t.table.uri).getLast? = some latest) (message : String)
      (h : faults.commit = .lost message) :
      Moves cfg σ b i faults (b.settle cfg.concurrency i t.qualified (.error (delta message)))
        (σ.push t.table.uri (latest.apply actions)) [⟨t.table.uri, true, false⟩]
  | committed (t : CommitTarget P) (actions : List (Action P))
      (hi : b.flight[i]? = some ⟨t, .prepared actions⟩) (latest : Version P)
      (hlatest : (σ t.table.uri).getLast? = some latest) (h : faults.commit = .done) :
      Moves cfg σ b i faults
        { b with flight := b.flight.set i ⟨t, .committed (σ t.table.uri).length⟩ }
        (σ.push t.table.uri (latest.apply actions)) []
  /-- The table cannot be loaded again behind its commit. -/
  | unloaded (t : CommitTarget P) (version : ℕ)
      (hi : b.flight[i]? = some ⟨t, .committed version⟩) (message : String)
      (h : faults.reload = some message) :
      Moves cfg σ b i faults (b.settle cfg.concurrency i t.qualified (.error (delta message))) σ
        [⟨t.table.uri, true, false⟩]
  | finished (t : CommitTarget P) (version : ℕ)
      (hi : b.flight[i]? = some ⟨t, .committed version⟩) :
      Moves cfg σ b i faults (b.settle cfg.concurrency i t.qualified (.ok version)) σ
        [⟨t.table.uri, true, true⟩]

theorem step_moves (h : b.step cfg σ i faults = some (b', σ', attempts)) :
    Moves cfg σ b i faults b' σ' attempts := by
  unfold step at h
  split at h
  next => cases h
  next t hi =>
    split at h
    next e hprepare =>
      simp only [Option.some.injEq, Prod.mk.injEq] at h
      obtain ⟨rfl, rfl, rfl⟩ := h
      exact .refused t hi e hprepare
    next actions hprepare =>
      simp only [Option.some.injEq, Prod.mk.injEq] at h
      obtain ⟨rfl, rfl, rfl⟩ := h
      exact .prepared t hi actions hprepare
  next t actions hi =>
    unfold commit at h
    cases hlatest : (σ t.table.uri).getLast? with
    | none =>
      simp only [hlatest, Option.some.injEq, Prod.mk.injEq] at h
      obtain ⟨rfl, rfl, rfl⟩ := h
      have hnone : σ t.table.uri = [] := List.getLast?_eq_none_iff.mp hlatest
      have hfailed := @Moves.failed P cfg σ b i faults t actions hi "Not a Delta table"
      simpa [hnone] using hfailed
    | some latest =>
      have hsome : σ t.table.uri ≠ [] := by
        intro hnone
        simp [hnone] at hlatest
      cases hcommit : faults.commit with
      | done =>
        simp only [hlatest, hcommit, Option.some.injEq, Prod.mk.injEq] at h
        obtain ⟨rfl, rfl, rfl⟩ := h
        exact .committed t actions hi latest hlatest hcommit
      | failed message =>
        simp only [hlatest, hcommit, Option.some.injEq, Prod.mk.injEq] at h
        obtain ⟨rfl, rfl, rfl⟩ := h
        have hfailed := @Moves.failed P cfg σ b i faults t actions hi message
        simpa [Outcome.takesEffect] using hfailed
      | lost message =>
        simp only [hlatest, hcommit, Option.some.injEq, Prod.mk.injEq] at h
        obtain ⟨rfl, rfl, rfl⟩ := h
        have hlost := @Moves.lost P cfg σ b i faults t actions hi latest hlatest message hcommit
        simpa [Outcome.takesEffect, hsome] using hlost
  next t version hi =>
    split at h
    next message hreload =>
      simp only [Option.some.injEq, Prod.mk.injEq] at h
      obtain ⟨rfl, rfl, rfl⟩ := h
      exact .unloaded t version hi message hreload
    next =>
      simp only [Option.some.injEq, Prod.mk.injEq] at h
      obtain ⟨rfl, rfl, rfl⟩ := h
      exact .finished t version hi

/-! ### The targets that are left -/

def unsettled (b : Burst P) : List (CommitTarget P) := b.flight.map InFlight.target ++ b.waiting

@[simp] theorem unsettled_fill (concurrency : ℕ) (b : Burst P) :
    (b.fill concurrency).unsettled = b.unsettled := by
  simp [unsettled, fill, Function.comp_def]

theorem mem_fill {concurrency : ℕ} {b : Burst P} {c : InFlight P}
    (h : c ∈ (b.fill concurrency).flight) : c ∈ b.flight ∨ c.stage = .begun := by
  simp only [fill, List.mem_append, List.mem_map] at h
  rcases h with h | ⟨t, -, rfl⟩
  · exact .inl h
  · exact .inr rfl

theorem isOver_iff {b : Burst P} : b.isOver = true ↔ b.unsettled = [] := by
  simp [isOver, unsettled]

end Burst

def InFlight.isCommitted (c : InFlight P) : Bool :=
  match c.stage with
  | .committed _ => true
  | _ => false

theorem Burst.filter_fill (concurrency : ℕ) (b : Burst P) :
    (b.fill concurrency).flight.filter InFlight.isCommitted =
      b.flight.filter InFlight.isCommitted := by
  rw [fill, List.filter_append]
  have hnone : ((b.waiting.take (concurrency - b.flight.length)).map
      fun target => ({ target := target } : InFlight P)).filter InFlight.isCommitted = [] := by
    rw [List.filter_eq_nil_iff]
    intro c hc
    obtain ⟨t, -, rfl⟩ := List.mem_map.mp hc
    simp [InFlight.isCommitted]
  rw [hnone, List.append_nil]

/-- Replacing one commit in flight takes it out and puts the other one in. -/
theorem perm_cons_eraseIdx {α : Type*} {xs : List α} {i : ℕ} {x : α} (h : xs[i]? = some x) :
    xs.Perm (x :: xs.eraseIdx i) := by
  obtain ⟨hi, rfl⟩ := List.getElem?_eq_some_iff.mp h
  exact (List.getElem_cons_eraseIdx_perm hi).symm

/-! ### One log of commits -/

/-- A commit that is over: its outcome, and whether its version became visible. -/
structure CommitResult (P : Platform) where
  target : CommitTarget P
  outcome : Except Error ℕ
  visible : Bool

def CommitResult.attempt (c : CommitResult P) : Attempt :=
  ⟨c.target.table.uri, c.visible, c.outcome.isOk⟩

def Prepares (cfg : LoadConfig) (t : CommitTarget P) (actions : List (Action P)) : Prop :=
  ∃ faults, prepareCommit P t.table t.actions cfg.mode (Burst.newSchema t) faults = .ok actions

/-- Commits in the order in which they became visible. -/
abbrev CommitLog (P : Platform) := List (CommitTarget P × List (Action P))

/-- A log under the locations of its tables. -/
def CommitLog.edits (log : CommitLog P) : List (String × List (Action P)) :=
  log.map fun e => (e.1.table.uri, e.2)

/-- What storage holds behind the commits of a log. -/
def CommitLog.on (log : CommitLog P) (σ : Store P) : Store P :=
  replay Version.apply σ log.edits

@[simp] theorem CommitLog.edits_append (log more : CommitLog P) :
    CommitLog.edits (log ++ more) = log.edits ++ more.edits :=
  List.map_append

theorem CommitLog.on_concat {σ : Store P} {log : CommitLog P} {t : CommitTarget P}
    {latest : Version P} (h : (log.on σ t.table.uri).getLast? = some latest)
    (actions : List (Action P)) :
    CommitLog.on (log ++ [(t, actions)]) σ =
      (log.on σ).push t.table.uri (latest.apply actions) := by
  rw [on, edits_append]
  exact (replay_concat _ _ _).trans (bump_of_some h)

/-- What phase two has done to the targets and to storage. -/
structure Serial (cfg : LoadConfig) (σ₁ : Store P) (targets : List (CommitTarget P))
    (σ : Store P) (b : Burst P) (attempts : List Attempt) (log : CommitLog P)
    (settled : List (CommitResult P)) : Prop where
  store : σ = log.on σ₁
  total : b.total = targets.length
  /-- Every target is settled, in flight or waiting. -/
  partition : targets.Perm (settled.map CommitResult.target ++ b.unsettled)
  outcomes : b.outcomes = settled.map fun c => (c.target.qualified, c.outcome)
  attempts : attempts = settled.map CommitResult.attempt
  prepared : ∀ e ∈ log, Prepares cfg e.1 e.2
  pending : ∀ t actions, ⟨t, .prepared actions⟩ ∈ b.flight → Prepares cfg t actions
  /-- The commits that are visible are those of the log. -/
  visible : (log.map Prod.fst).Perm
    ((settled.filter CommitResult.visible).map CommitResult.target ++
    (b.flight.filter InFlight.isCommitted).map InFlight.target)
  standing : ∀ e ∈ log, σ₁ e.1.table.uri ≠ []
  succeeded : ∀ c ∈ settled, c.outcome.isOk = true → c.visible = true
  /-- A commit knows the version that it made. -/
  versions : ∀ t v, ⟨t, .committed v⟩ ∈ b.flight ∨ ⟨t, .ok v, true⟩ ∈ settled →
    ∃ before actions after, log = before ++ (t, actions) :: after ∧
      v = (CommitLog.on before σ₁ t.table.uri).length

namespace Serial

variable {cfg : LoadConfig} {σ₁ σ : Store P} {targets : List (CommitTarget P)} {b : Burst P}
  {attempts : List Attempt} {log : CommitLog P} {settled : List (CommitResult P)}

theorem known (more : CommitLog P) {t : CommitTarget P} {v : ℕ}
    (h : ∃ before actions after, log = before ++ (t, actions) :: after ∧
      v = (CommitLog.on before σ₁ t.table.uri).length) :
    ∃ before actions after, log ++ more = before ++ (t, actions) :: after ∧
      v = (CommitLog.on before σ₁ t.table.uri).length := by
  obtain ⟨before, actions, after, rfl, hv⟩ := h
  exact ⟨before, actions, after ++ more, by simp, hv⟩

theorem start (cfg : LoadConfig) (σ₁ : Store P) (r : Reader P) :
    Serial cfg σ₁ (Burst.assign r.openTables r.staged) σ₁ (Burst.start cfg r) [] [] [] where
  store := rfl
  total := by
    have hlength : ∀ (targets : List (CommitTarget P)) staged,
        (Burst.assign targets staged).length = targets.length := by
      intro targets
      induction targets with
      | nil => exact fun _ => rfl
      | cons t targets ih => exact fun staged => congrArg (· + 1) (ih _)
    exact (hlength _ _).symm
  partition := by
    rw [Burst.start, Burst.unsettled_fill]
    exact List.Perm.refl _
  outcomes := rfl
  attempts := rfl
  prepared := by simp
  pending t actions h := by
    rcases Burst.mem_fill h with h | h
    · cases h
    · cases h
  visible := by
    rw [Burst.start, Burst.filter_fill]
    exact List.Perm.refl _
  standing := by simp
  succeeded := by simp
  versions t v h := by
    rcases h with h | h
    · rcases Burst.mem_fill h with h | h
      · cases h
      · cases h
    · cases h

/-- A commit in flight comes to its end, and may have become visible with
it. -/
theorem settle (h : Serial cfg σ₁ targets σ b attempts log settled) {i : ℕ} {c : InFlight P}
    (hi : b.flight[i]? = some c) (outcome : Except Error ℕ) (visible : Bool) (more : CommitLog P)
    (hmore : more.map Prod.fst ++ (if c.isCommitted then [c.target] else []) =
      if visible then [c.target] else [])
    (hprepared : ∀ e ∈ more, Prepares cfg e.1 e.2)
    (hstanding : ∀ e ∈ more, σ₁ e.1.table.uri ≠ [])
    (hok : ∀ v, outcome = .ok v → visible = true ∧ c.stage = .committed v) :
    Serial cfg σ₁ targets (CommitLog.on (log ++ more) σ₁)
      (b.settle cfg.concurrency i c.target.qualified outcome)
      (attempts ++ [⟨c.target.table.uri, visible, outcome.isOk⟩]) (log ++ more)
      (settled ++ [⟨c.target, outcome, visible⟩]) := by
  have hperm := perm_cons_eraseIdx hi
  -- What is in flight afterwards was so before, or has only begun.
  have hmem : ∀ d ∈ (b.settle cfg.concurrency i c.target.qualified outcome).flight,
      d ∈ b.flight ∨ d.stage = .begun := by
    intro d hd
    rcases Burst.mem_fill hd with hd | hd
    · exact .inl (List.mem_of_mem_eraseIdx hd)
    · exact .inr hd
  refine ⟨rfl, h.total, ?_, ?_, ?_, ?_, ?_, ?_, ?_, ?_, ?_⟩
  · refine h.partition.trans ?_
    rw [Burst.settle, Burst.unsettled_fill, Burst.unsettled, Burst.unsettled, List.map_append,
      List.append_assoc]
    apply List.Perm.append_left
    exact ((hperm.map InFlight.target).append_right b.waiting)
  · rw [List.map_append, ← h.outcomes]
    rfl
  · rw [List.map_append, ← h.attempts]
    rfl
  · intro e he
    rcases List.mem_append.mp he with he | he
    · exact h.prepared e he
    · exact hprepared e he
  · intro t actions ht
    rcases hmem _ ht with ht | ht
    · exact h.pending t actions ht
    · cases ht
  · have hvisible : (settled ++ [(⟨c.target, outcome, visible⟩ : CommitResult P)]).filter
        CommitResult.visible =
        settled.filter CommitResult.visible ++ if visible then [⟨c.target, outcome, visible⟩]
          else [] := by
      cases visible <;> simp
    have hcommitted : ((b.flight.filter InFlight.isCommitted).map InFlight.target).Perm
        ((if c.isCommitted then [c.target] else []) ++
          ((b.flight.eraseIdx i).filter InFlight.isCommitted).map InFlight.target) := by
      refine ((hperm.filter _).map _).trans ?_
      rw [List.filter_cons]
      split_ifs <;> simp
    have hshown : ((if visible then [(⟨c.target, outcome, visible⟩ : CommitResult P)] else []).map
        CommitResult.target) = if visible then [c.target] else [] := by
      cases visible <;> rfl
    rw [Burst.settle, Burst.filter_fill, hvisible, List.map_append, List.map_append, hshown,
      ← hmore]
    calc
      (log.map Prod.fst ++ more.map Prod.fst).Perm
          (((settled.filter CommitResult.visible).map CommitResult.target ++
            ((if c.isCommitted then [c.target] else []) ++
              ((b.flight.eraseIdx i).filter InFlight.isCommitted).map InFlight.target)) ++
                more.map Prod.fst) :=
        (h.visible.trans (hcommitted.append_left _)).append_right _
      ((settled.filter CommitResult.visible).map CommitResult.target ++
          ((if c.isCommitted then [c.target] else []) ++
            ((b.flight.eraseIdx i).filter InFlight.isCommitted).map InFlight.target) ++
              more.map Prod.fst).Perm _ := by
        simp only [List.append_assoc]
        apply List.Perm.append_left
        rw [← List.append_assoc]
        refine List.perm_append_comm.trans ?_
        simp
  · intro e he
    rcases List.mem_append.mp he with he | he
    · exact h.standing e he
    · exact hstanding e he
  · intro d hd hd'
    rcases List.mem_append.mp hd with hd | hd
    · exact h.succeeded d hd hd'
    · obtain rfl := List.mem_singleton.mp hd
      cases outcome with
      | error e => cases hd'
      | ok v => exact (hok v rfl).1
  · intro t v ht
    apply known
    rcases ht with ht | ht
    · rcases hmem _ ht with ht | ht
      · exact h.versions t v (.inl ht)
      · cases ht
    · rcases List.mem_append.mp ht with ht | ht
      · exact h.versions t v (.inr ht)
      · -- the outcome is the version that was known while the commit was in flight
        simp only [List.mem_singleton, CommitResult.mk.injEq] at ht
        obtain ⟨rfl, houtcome, -⟩ := ht
        have hstage := (hok v houtcome.symm).2
        apply h.versions c.target v
        left
        rw [← hstage]
        exact List.mem_of_getElem? hi

theorem advance (h : Serial cfg σ₁ targets σ b attempts log settled) {i : ℕ} {c : InFlight P}
    (hi : b.flight[i]? = some c) (stage : CommitStage P) (more : CommitLog P)
    (hmore : more.map Prod.fst ++ (if c.isCommitted then [c.target] else []) =
      if (⟨c.target, stage⟩ : InFlight P).isCommitted then [c.target] else [])
    (hprepared : ∀ e ∈ more, Prepares cfg e.1 e.2)
    (hstanding : ∀ e ∈ more, σ₁ e.1.table.uri ≠ [])
    (hpending : ∀ actions, stage = .prepared actions → Prepares cfg c.target actions)
    (hversion : ∀ v, stage = .committed v → ∃ actions, more = [(c.target, actions)] ∧
      v = (log.on σ₁ c.target.table.uri).length) :
    Serial cfg σ₁ targets (CommitLog.on (log ++ more) σ₁)
      { b with flight := b.flight.set i ⟨c.target, stage⟩ } attempts (log ++ more) settled := by
  obtain ⟨hlt, hget⟩ := List.getElem?_eq_some_iff.mp hi
  have hperm := perm_cons_eraseIdx hi
  have hset : (b.flight.set i ⟨c.target, stage⟩).Perm
      (⟨c.target, stage⟩ :: b.flight.eraseIdx i) := List.set_perm_cons_eraseIdx hlt _
  have hmem : ∀ d ∈ b.flight.set i ⟨c.target, stage⟩, d = ⟨c.target, stage⟩ ∨ d ∈ b.flight := by
    intro d hd
    rcases List.mem_cons.mp (hset.mem_iff.mp hd) with hd | hd
    · exact .inl hd
    · exact .inr (List.mem_of_mem_eraseIdx hd)
  have htargets : ((b.flight.set i ⟨c.target, stage⟩).map InFlight.target).Perm
      (b.flight.map InFlight.target) :=
    (hset.map InFlight.target).trans (hperm.map InFlight.target).symm
  refine ⟨rfl, h.total, ?_, h.outcomes, h.attempts, ?_, ?_, ?_, ?_, h.succeeded, ?_⟩
  · refine h.partition.trans ?_
    apply List.Perm.append_left
    exact htargets.symm.append_right _
  · intro e he
    rcases List.mem_append.mp he with he | he
    · exact h.prepared e he
    · exact hprepared e he
  · intro t actions ht
    rcases hmem _ ht with ht | ht
    · obtain ⟨rfl, hstage⟩ := InFlight.mk.inj ht
      exact hpending actions hstage.symm
    · exact h.pending t actions ht
  · have hcommitted : ((b.flight.filter InFlight.isCommitted).map InFlight.target).Perm
        ((if c.isCommitted then [c.target] else []) ++
          ((b.flight.eraseIdx i).filter InFlight.isCommitted).map InFlight.target) := by
      refine ((hperm.filter _).map _).trans ?_
      rw [List.filter_cons]
      split_ifs <;> simp
    have hcommitted' : (((b.flight.set i ⟨c.target, stage⟩).filter InFlight.isCommitted).map
        InFlight.target).Perm
        ((if (⟨c.target, stage⟩ : InFlight P).isCommitted then [c.target] else []) ++
          ((b.flight.eraseIdx i).filter InFlight.isCommitted).map InFlight.target) := by
      refine ((hset.filter _).map _).trans ?_
      rw [List.filter_cons]
      split_ifs <;> simp
    refine List.Perm.trans ?_ (hcommitted'.symm.append_left _)
    rw [List.map_append, ← hmore]
    refine ((h.visible.trans (hcommitted.append_left _)).append_right _).trans ?_
    simp only [List.append_assoc]
    apply List.Perm.append_left
    rw [← List.append_assoc]
    refine List.perm_append_comm.trans ?_
    simp
  · intro e he
    rcases List.mem_append.mp he with he | he
    · exact h.standing e he
    · exact hstanding e he
  · intro t v ht
    rcases ht with ht | ht
    · rcases hmem _ ht with ht | ht
      · obtain ⟨rfl, hstage⟩ := InFlight.mk.inj ht
        obtain ⟨actions, rfl, hv⟩ := hversion v hstage.symm
        exact ⟨log, actions, [], rfl, hv⟩
      · exact known more (h.versions t v (.inl ht))
    · exact known more (h.versions t v (.inr ht))

theorem standing_of_getLast? (h : Serial cfg σ₁ targets σ b attempts log settled) {uri : String}
    {latest : Version P} (hlatest : (σ uri).getLast? = some latest) : σ₁ uri ≠ [] := by
  intro hnone
  rw [h.store, CommitLog.on, replay_of_nil hnone] at hlatest
  cases hlatest

theorem moves (h : Serial cfg σ₁ targets σ b attempts log settled) {i : ℕ} {faults : CommitFaults}
    {b' : Burst P} {σ' : Store P} {more : List Attempt}
    (hmoves : Burst.Moves cfg σ b i faults b' σ' more) :
    ∃ log' settled', Serial cfg σ₁ targets σ' b' (attempts ++ more) log' settled' := by
  have hpush : ∀ {t : CommitTarget P} {latest : Version P} (actions : List (Action P)),
      (σ t.table.uri).getLast? = some latest →
      σ.push t.table.uri (latest.apply actions) = CommitLog.on (log ++ [(t, actions)]) σ₁ := by
    intro t latest actions hlatest
    rw [h.store] at hlatest ⊢
    exact (CommitLog.on_concat hlatest actions).symm
  have hsame : CommitLog.on (log ++ []) σ₁ = σ := by
    rw [List.append_nil, h.store]
  cases hmoves with
  | refused t hi e hprepare =>
    have hnext := h.settle hi (.error e) false [] (by simp [InFlight.isCommitted]) (by simp)
      (by simp) (by simp)
    rw [hsame] at hnext
    exact ⟨_, _, hnext⟩
  | prepared t hi actions hprepare =>
    have hnext := h.advance hi (.prepared actions) [] (by simp [InFlight.isCommitted]) (by simp)
      (by simp) (by rintro _ ⟨⟩; exact ⟨faults, hprepare⟩) (by simp)
    rw [hsame] at hnext
    exact ⟨_, _, by rwa [List.append_nil attempts]⟩
  | failed t actions hi message =>
    have hnext := h.settle hi (.error (delta message)) false [] (by simp [InFlight.isCommitted])
      (by simp) (by simp) (by simp)
    rw [hsame] at hnext
    exact ⟨_, _, hnext⟩
  | lost t actions hi latest hlatest message hlost =>
    have hnext := h.settle hi (.error (delta message)) true [(t, actions)]
      (by simp [InFlight.isCommitted])
      (by simpa using h.pending t actions (List.mem_of_getElem? hi))
      (by simpa using h.standing_of_getLast? hlatest) (by simp)
    rw [hpush actions hlatest]
    exact ⟨_, _, hnext⟩
  | committed t actions hi latest hlatest hdone =>
    have hnext := h.advance hi (.committed (σ t.table.uri).length) [(t, actions)]
      (by simp [InFlight.isCommitted])
      (by simpa using h.pending t actions (List.mem_of_getElem? hi))
      (by simpa using h.standing_of_getLast? hlatest) (by simp)
      (by rintro v ⟨⟩; exact ⟨actions, rfl, by rw [h.store]⟩)
    rw [hpush actions hlatest]
    exact ⟨_, _, by rwa [List.append_nil attempts]⟩
  | unloaded t version hi message hreload =>
    have hnext := h.settle hi (.error (delta message)) true [] (by simp [InFlight.isCommitted])
      (by simp) (by simp) (by simp)
    rw [hsame] at hnext
    exact ⟨_, _, hnext⟩
  | finished t version hi =>
    have hnext := h.settle hi (.ok version) true [] (by simp [InFlight.isCommitted])
      (by simp) (by simp) (by rintro v ⟨⟩; exact ⟨rfl, rfl⟩)
    rw [hsame] at hnext
    exact ⟨_, _, hnext⟩

end Serial

/-- Moving the staged actions to the targets changes nothing else of them. -/
theorem Burst.map_assign {β : Type*} (f : CommitTarget P → β)
    (hf : ∀ (t : CommitTarget P) actions, f { t with actions := actions } = f t)
    (targets : List (CommitTarget P)) (staged : String → Option (List (Action P))) :
    (assign targets staged).map f = targets.map f := by
  induction targets generalizing staged with
  | nil => rfl
  | cons t targets ih => rw [assign, List.map_cons, List.map_cons, hf, ih]

/-! ### Phase two of a load -/

namespace System

variable {L : Load} {s t s₁ : System P n}

/-- With the next step of `s₁` phase two begins, and `s` comes behind it. -/
structure PhaseTwo [NeZero n] (L : Load) (σ : Store P) (s₁ s : System P n) : Prop where
  reachable : Reachable L σ s₁
  reading : s₁.point = .reading
  run : ∃ o t labels, step L s₁ (.reader o) = some t ∧ t.pastPhaseOne = true ∧
    runFrom (step L) t labels = some s

/-- The targets of phase two, each with its actions. -/
def targets (s₁ : System P n) : List (CommitTarget P) :=
  Burst.assign s₁.reader.openTables s₁.reader.staged

/-- All commits are over and have succeeded, and this is what is reported. -/
structure Concluded (L : Load) (s₁ : System P n) (σ : Store P) (report : LoadReport) (b : Burst P)
    (attempts : List Attempt) (log : CommitLog P) (settled : List (CommitResult P)) : Prop where
  serial : Serial L.cfg s₁.store s₁.targets σ b attempts log settled
  isOver : b.isOver = true
  succeeded : (tally s₁.reader.tables b.outcomes).failure = none
  report : ∃ dumpedBy, { report with loadId := none } =
    s₁.reader.report L dumpedBy (tally s₁.reader.tables b.outcomes).tables

/-- What the append to the history has made of the store, where there is one. -/
def Recorded (L : Load) (report : LoadReport) (σ σ' : Store P) : Prop :=
  (L.cfg.writeManifest = false ∧ report.loadId = none ∧ σ' = σ) ∨
    L.cfg.writeManifest = true ∧ ∃ o loadId, report.loadId = some loadId ∧
      Manifest.append P L.cfg.outputUri L.run { report with loadId := none } σ o = (.ok loadId, σ')

/-- Where a load stands behind the state in which it has read its dump. -/
def InPhaseTwo (L : Load) (s₁ s : System P n) : Prop :=
  s.reader = s₁.reader ∧
  match s.point with
  | .committing _ b =>
    ∃ log settled, Serial L.cfg s₁.store s₁.targets s.store b s.trace.attempts log settled
  | .recording report => L.cfg.writeManifest = true ∧ report.loadId = none ∧
      ∃ b log settled, Concluded L s₁ s.store report b s.trace.attempts log settled
  | .done (.ok report) => ∃ σ b log settled,
      Concluded L s₁ σ report b s.trace.attempts log settled ∧ Recorded L report σ s.store
  | .done (.error _) => True
  | _ => False

/-- Phase one is over, well or not. -/
def isLate (s : System P n) : Bool :=
  match s.point with
  | .committing _ _ | .recording _ | .done _ => true
  | _ => false

theorem InPhaseTwo.isLate (h : InPhaseTwo L s₁ s) : s.isLate = true := by
  obtain ⟨-, hpoint⟩ := h
  unfold System.isLate
  split at hpoint <;> simp_all

theorem InPhaseTwo.move [NeZero n] {a : Label n} (h : InPhaseTwo L s₁ s) (hmove : Move L s a t) :
    InPhaseTwo L s₁ t := by
  have hlate := h.isLate
  obtain ⟨hreader, hpoint⟩ := h
  cases hmove with
  | burst o dumpedBy b hp hover b' σ attempts hburst =>
    rw [hp] at hpoint
    obtain ⟨log, settled, hserial⟩ := hpoint
    exact ⟨hreader, hserial.moves (Burst.step_moves hburst)⟩
  | report o dumpedBy b hp hover hok hm =>
    rw [hp] at hpoint
    obtain ⟨log, settled, hserial⟩ := hpoint
    rw [hreader] at hok
    refine ⟨hreader, hm, rfl, b, log, settled, hserial, hover, hok, dumpedBy, ?_⟩
    rw [← hreader]
    rfl
  | succeed o dumpedBy b hp hover hok hm =>
    rw [hp] at hpoint
    obtain ⟨log, settled, hserial⟩ := hpoint
    rw [hreader] at hok
    refine ⟨hreader, s.store, b, log, settled, ⟨hserial, hover, hok, dumpedBy, ?_⟩,
      .inl ⟨hm, rfl, rfl⟩⟩
    rw [← hreader]
    rfl
  | recorded o report hp loadId σ hrecorded =>
    rw [hp] at hpoint
    obtain ⟨hm, hnone, b, log, settled, hconcluded⟩ := hpoint
    refine ⟨hreader, s.store, b, log, settled, ⟨hconcluded.serial, hconcluded.isOver,
      hconcluded.succeeded, hconcluded.report⟩, .inr ⟨hm, o.history, loadId, rfl, ?_⟩⟩
    rw [← hnone]
    exact hrecorded
  | commitFailed o dumpedBy b hp hover table e hfail => exact ⟨hreader, trivial⟩
  | stopRecord o report hp e σ hrecord => exact ⟨hreader, trivial⟩
  | stop o e hphase queue hqueue => exact ⟨hreader, trivial⟩
  | job i faults hrun job jobs hjobs handled hhandle => exact ⟨hreader, hpoint⟩
  | jobFailed i faults hrun job jobs hjobs e hhandle => exact ⟨hreader, hpoint⟩
  | sendAck i faults c hstatus hroom => exact ⟨hreader, hpoint⟩
  | sendFailure i faults e hstatus hroom => exact ⟨hreader, hpoint⟩
  | exit i faults hstatus => exact ⟨hreader, hpoint⟩
  | leave i faults hstatus hjobs hdone => exact ⟨hreader, hpoint⟩
  | read o hp chunk chunks hc scanner events hf => simp [System.isLate, hp] at hlate
  | finish o hp hc he hf dumpedBy hd => simp [System.isLate, hp] at hlate
  | next o hp => simp [System.isLate, hp] at hlate
  | event o event events hp reaction σ hevent => simp [System.isLate, hp] at hlate
  | send o i job rest after events hp halive hroom => simp [System.isLate, hp] at hlate
  | sendFailed o i job rest after events hp hdead => simp [System.isLate, hp] at hlate
  | ack o block acks events hp c queue hq hmore => simp [System.isLate, hp] at hlate
  | close o block acks events hp c queue hq hlast => simp [System.isLate, hp] at hlate
  | stopEvent o event events hp e σ hevent => simp [System.isLate, hp] at hlate
  | interrupt o block acks events hp c queue hq hlast => simp [System.isLate, hp] at hlate

theorem begins_of_pastPhaseOne [NeZero n] {o : Outside} (hp : s₁.point = .reading)
    (hstep : step L s₁ (.reader o) = some t) (hpast : t.pastPhaseOne = true) :
    ∃ dumpedBy, s₁.reader.dumpedBy = some dumpedBy ∧ s₁.reader.chunks = [] ∧
      t = { s₁ with point := .committing dumpedBy (Burst.start L.cfg s₁.reader) } := by
  cases step_move hstep with
  | finish _ _ hc he hf dumpedBy hd => exact ⟨dumpedBy, hd, hc, rfl⟩
  | read => cases hpast
  | stop => cases hpast
  | _ => simp_all

theorem PhaseTwo.inPhaseTwo [NeZero n] {σ : Store P} (h : PhaseTwo L σ s₁ s) :
    InPhaseTwo L s₁ s := by
  obtain ⟨o, t, labels, hstep, hpast, hrun⟩ := h.run
  have hattempts : s₁.trace.attempts = [] := by
    by_contra hne
    rcases (h.reachable.commitsLast hne).1 with hpast | hdone
    · simp [pastPhaseOne, h.reading] at hpast
    · simp [isDone, h.reading] at hdone
  have hkeep : ∀ (s : System P n) a t,
      InPhaseTwo L s₁ s → step L s a = some t → InPhaseTwo L s₁ t :=
    fun s a t hs hstep => hs.move (step_move hstep)
  refine runFrom_invariant hkeep ?_ hrun
  obtain ⟨dumpedBy, -, -, rfl⟩ := begins_of_pastPhaseOne h.reading hstep hpast
  refine ⟨rfl, [], [], ?_⟩
  have hstart := Serial.start L.cfg s₁.store s₁.reader
  rwa [← hattempts] at hstart

theorem dispatching_not_past (s : System P n) (sends : List (Fin n × Job)) (after : After)
    (events : List Event) : (s.dispatching sends after events).pastPhaseOne = false := by
  cases sends with
  | cons send sends => rfl
  | nil => cases after <;> rfl

theorem Move.enters [NeZero n] {a : Label n} (h : Move L s a t) (hpast : t.pastPhaseOne = true) :
    s.pastPhaseOne = true ∨ s.point = .reading ∧ ∃ o, a = .reader o := by
  cases h with
  | finish o hp hc he hf dumpedBy hd => exact .inr ⟨hp, o, rfl⟩
  | event o event events hp reaction σ hevent =>
    rw [dispatching_not_past] at hpast
    cases hpast
  | send o i job rest after events hp halive hroom =>
    rw [dispatching_not_past] at hpast
    cases hpast
  | burst o dumpedBy b hp hover b' σ attempts hburst => exact .inl (by simp [pastPhaseOne, hp])
  | report o dumpedBy b hp hover hok hm => exact .inl (by simp [pastPhaseOne, hp])
  | succeed o dumpedBy b hp hover hok hm => exact .inl (by simp [pastPhaseOne, hp])
  | recorded o report hp loadId σ hrecorded => exact .inl (by simp [pastPhaseOne, hp])
  | job i faults hrun job jobs hjobs handled hhandle => exact .inl hpast
  | jobFailed i faults hrun job jobs hjobs e hhandle => exact .inl hpast
  | sendAck i faults c hstatus hroom => exact .inl hpast
  | sendFailure i faults e hstatus hroom => exact .inl hpast
  | exit i faults hstatus => exact .inl hpast
  | leave i faults hstatus hjobs hdone => exact .inl hpast
  | _ => cases hpast

/-- A load does not come back from phase two, or from its end. -/
theorem Move.stays [NeZero n] {a : Label n} (h : Move L s a t) (hlate : s.isLate = true) :
    t.isLate = true := by
  cases h with
  | burst o dumpedBy b hp hover b' σ attempts hburst => rfl
  | report o dumpedBy b hp hover hok hm => rfl
  | succeed o dumpedBy b hp hover hok hm => rfl
  | recorded o report hp loadId σ hrecorded => rfl
  | commitFailed o dumpedBy b hp hover table e hfail => rfl
  | stopRecord o report hp e σ hrecord => rfl
  | stop o e hphase queue hqueue => rfl
  | stopEvent o event events hp e σ hevent => rfl
  | interrupt o block acks events hp c queue hq hlast => rfl
  | job i faults hrun job jobs hjobs handled hhandle => exact hlate
  | jobFailed i faults hrun job jobs hjobs e hhandle => exact hlate
  | sendAck i faults c hstatus hroom => exact hlate
  | sendFailure i faults e hstatus hroom => exact hlate
  | exit i faults hstatus => exact hlate
  | leave i faults hstatus hjobs hdone => exact hlate
  | read o hp chunk chunks hc scanner events hf => simp [System.isLate, hp] at hlate
  | finish o hp hc he hf dumpedBy hd => rfl
  | next o hp => simp [System.isLate, hp] at hlate
  | event o event events hp reaction σ hevent => simp [System.isLate, hp] at hlate
  | send o i job rest after events hp halive hroom => simp [System.isLate, hp] at hlate
  | sendFailed o i job rest after events hp hdead => simp [System.isLate, hp] at hlate
  | ack o block acks events hp c queue hq hmore => simp [System.isLate, hp] at hlate
  | close o block acks events hp c queue hq hlast => simp [System.isLate, hp] at hlate

theorem Reachable.next [NeZero n] {σ : Store P} {a : Label n} (h : Reachable L σ s)
    (hstep : step L s a = some t) : Reachable L σ t := by
  obtain ⟨faults, labels, hrun⟩ := h
  exact ⟨faults, labels ++ [a], runFrom_append.mpr ⟨s, hrun, runFrom_cons.mpr ⟨t, hstep, rfl⟩⟩⟩

theorem PhaseTwo.next [NeZero n] {σ : Store P} {a : Label n} (h : PhaseTwo L σ s₁ s)
    (hstep : step L s a = some t) : PhaseTwo L σ s₁ t := by
  obtain ⟨hreach, hreading, o, u, labels, hbegin, hpast, hrun⟩ := h
  refine ⟨hreach, hreading, o, u, labels ++ [a], hbegin, hpast, ?_⟩
  exact runFrom_append.mpr ⟨s, hrun, runFrom_cons.mpr ⟨t, hstep, rfl⟩⟩

/-- What the step into phase two brings about, and the steps behind it keep,
holds of a run that is past phase one, where its steps all meet a condition. -/
theorem phaseTwo_along [NeZero n] {σ : Store P} {cond : System P n → Label n → Prop}
    {inv : System P n → System P n → Prop}
    (enter : ∀ s₁ o t, PhaseTwo L σ s₁ t → step L s₁ (.reader o) = some t →
      cond s₁ (.reader o) → t.pastPhaseOne = true → inv s₁ t)
    (keep : ∀ s₁ s a t, PhaseTwo L σ s₁ s → inv s₁ s → cond s a → step L s a = some t →
      t.pastPhaseOne = true → inv s₁ t)
    {faults : StartFaults} {labels : List (Label n)}
    (hcond : Along (step L) cond (start L σ faults) labels)
    (hrun : runFrom (step L) (start L σ faults) labels = some s) (hpast : s.pastPhaseOne = true) :
    ∃ s₁, PhaseTwo L σ s₁ s ∧ inv s₁ s := by
  have hkeep : ∀ (s : System P n) a t,
      (Reachable L σ s ∧ (s.pastPhaseOne = true → ∃ s₁, PhaseTwo L σ s₁ s ∧ inv s₁ s)) →
      cond s a → step L s a = some t →
      Reachable L σ t ∧ (t.pastPhaseOne = true → ∃ s₁, PhaseTwo L σ s₁ t ∧ inv s₁ t) := by
    rintro s a t ⟨hreach, hphase⟩ hs hstep
    refine ⟨hreach.next hstep, fun hpast => ?_⟩
    rcases (step_move hstep).enters hpast with hbefore | ⟨hreading, o, rfl⟩
    · obtain ⟨s₁, hs₁, hinv⟩ := hphase hbefore
      exact ⟨s₁, hs₁.next hstep, keep s₁ s a t hs₁ hinv hs hstep hpast⟩
    · have hs₁ : PhaseTwo L σ s t := ⟨hreach, hreading, o, t, [], hstep, hpast, rfl⟩
      exact ⟨s, hs₁, enter s o t hs₁ hstep hs hpast⟩
  refine (runFrom_invariant_along hkeep ⟨⟨faults, [], rfl⟩, ?_⟩ hcond hrun).2 hpast
  intro hstart
  unfold start pastPhaseOne at hstart
  cases hfault : startError L faults with
  | none => simp [hfault] at hstart
  | some e => simp [hfault] at hstart

/-- A load that is past phase one has read its dump in some state before. -/
theorem Reachable.phaseTwo [NeZero n] {σ : Store P} (h : Reachable L σ s)
    (hpast : s.pastPhaseOne = true) : ∃ s₁, PhaseTwo L σ s₁ s := by
  obtain ⟨faults, labels, hrun⟩ := h
  obtain ⟨s₁, hs₁, -⟩ := @phaseTwo_along P n L s _ σ (fun _ _ => True) (fun _ _ => True)
    (fun _ _ _ _ _ _ _ => trivial) (fun _ _ _ _ _ _ _ _ _ => trivial) faults labels
    (along_of_take fun _ _ _ _ => trivial) hrun hpast
  exact ⟨s₁, hs₁⟩

/-- What a load starts with and keeps as long as it is not past phase one holds
until phase two begins. -/
theorem Reachable.untilPhaseTwo [NeZero n] {σ : Store P} (h : Reachable L σ s)
    (inv : System P n → Prop) (hstart : ∀ faults, inv (start L σ faults))
    (hkeep : ∀ (s : System P n) a t, Reachable L σ s → s.pastPhaseOne = false → inv s →
      Move L s a t → inv t) :
    inv s ∧ s.pastPhaseOne = false ∨ ∃ s₁, PhaseTwo L σ s₁ s := by
  obtain ⟨faults, labels, hrun⟩ := h
  have hstep : ∀ (s : System P n) a t,
      (Reachable L σ s ∧ (inv s ∧ s.pastPhaseOne = false ∨ ∃ s₁, PhaseTwo L σ s₁ s)) →
        step L s a = some t →
          (Reachable L σ t ∧ (inv t ∧ t.pastPhaseOne = false ∨ ∃ s₁, PhaseTwo L σ s₁ t)) := by
    rintro s a t ⟨hreach, hs⟩ hstep
    refine ⟨hreach.next hstep, ?_⟩
    rcases hs with ⟨hinv, hbefore⟩ | ⟨s₁, hs₁⟩
    · have hmove := step_move hstep
      cases hpast : t.pastPhaseOne with
      | true =>
        obtain ⟨hreading, o, rfl⟩ := (hmove.enters hpast).resolve_left (by simp [hbefore])
        exact .inr ⟨s, hreach, hreading, o, t, [], hstep, hpast, rfl⟩
      | false => exact .inl ⟨hkeep s a t hreach hbefore hinv hmove, rfl⟩
    · exact .inr ⟨s₁, hs₁.next hstep⟩
  refine (runFrom_invariant hstep ⟨⟨faults, [], rfl⟩, .inl ⟨hstart faults, ?_⟩⟩ hrun).2
  unfold start pastPhaseOne
  cases startError L faults <;> rfl

/-- A load has done no more to storage than create empty tables, or is past the
beginning of phase two. -/
theorem Reachable.begins [NeZero n] {σ : Store P} (h : Reachable L σ s) :
    σ.OnlyCreated s.store ∧ s.pastPhaseOne = false ∨ ∃ s₁, PhaseTwo L σ s₁ s := by
  refine h.untilPhaseTwo (fun s => σ.OnlyCreated s.store) (fun _ => Store.OnlyCreated.refl σ)
    fun s a t _ hbefore hcreated hmove => ?_
  cases hmove with
  | event o event events hp reaction σ' hevent =>
    rw [dispatching_store]
    simpa [hevent] using onEvent_onlyCreated (L := L) hcreated event o
  | stopEvent o event events hp e σ' hevent =>
    simpa [hevent] using onEvent_onlyCreated (L := L) hcreated event o
  | send o i job rest after events hp halive hroom =>
    rw [dispatching_store]
    exact hcreated
  | burst o dumpedBy b hp hover b' σ' attempts hburst => simp [pastPhaseOne, hp] at hbefore
  | recorded o report hp loadId σ' hrecorded => simp [pastPhaseOne, hp] at hbefore
  | stopRecord o report hp e σ' hrecord => simp [pastPhaseOne, hp] at hbefore
  | _ => exact hcreated

/-- Before phase two, storage has gained no more than empty tables. -/
theorem Reachable.onlyCreated [NeZero n] {σ : Store P} (h : Reachable L σ s)
    (hlate : s.isLate = false) : σ.OnlyCreated s.store := by
  rcases h.begins with ⟨hcreated, -⟩ | ⟨s₁, hs₁⟩
  · exact hcreated
  · rw [hs₁.inPhaseTwo.isLate] at hlate
    cases hlate

end System

end PgDelta.Pipeline
