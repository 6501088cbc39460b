import PgDelta.Pipeline.Serial

/-!
What the counts of a failed phase two say about storage.

`committed` counts the calls of `commit_table` that return, one for each block.
The tables that changed are those with a visible commit. The two numbers part in
two ways: a call may fail behind its visible version, and blocks of one table
change it together.
-/

namespace PgDelta.Pipeline

open PgDelta.Lib PgDelta.Builders PgDelta.Types PgDelta.Scan PgDelta.Sink

variable {P : Platform} {n : ℕ}

/-- How many of some tables have gained a version. -/
def changedTables (uris : List String) (σ σ' : Store P) : ℕ :=
  (uris.toFinset.filter fun uri => (σ uri).length < (σ' uri).length).card

/-- The locations at which attempts were visible. -/
def visibleUris (attempts : List Attempt) : List String :=
  (attempts.filter Attempt.visible).map Attempt.uri

/-- How many attempts failed behind their visible version. -/
def lost (attempts : List Attempt) : ℕ := attempts.countP fun a => a.visible && !a.finished

/-- How many visible attempts were at a location that another one had. -/
def repeated (attempts : List Attempt) : ℕ :=
  (visibleUris attempts).length - (visibleUris attempts).toFinset.card

theorem repeated_of_nodup {attempts : List Attempt} (h : (visibleUris attempts).Nodup) :
    repeated attempts = 0 := by
  rw [repeated, List.toFinset_card_of_nodup h, Nat.sub_self]

theorem lost_eq_zero_iff (attempts : List Attempt) :
    lost attempts = 0 ↔ ∀ a ∈ attempts, a.visible = true → a.finished = true := by
  simp [lost, List.countP_eq_zero]

theorem countP_finished {attempts : List Attempt}
    (h : ∀ a ∈ attempts, a.finished = true → a.visible = true) :
    attempts.countP Attempt.finished + lost attempts = (visibleUris attempts).length := by
  rw [visibleUris, List.length_map, ← List.countP_eq_length_filter, lost]
  induction attempts with
  | nil => rfl
  | cons a attempts ih =>
    have ih := ih fun a ha => h a (List.mem_cons_of_mem _ ha)
    have ha := h a List.mem_cons_self
    simp only [List.countP_cons]
    cases hvisible : a.visible <;> cases hfinished : a.finished <;> simp_all <;> omega

theorem tally_committed (tables : List TableStats) (outcomes : List (String × Except Error ℕ)) :
    (tally tables outcomes).committed = outcomes.countP fun o => o.2.isOk := by
  have hfold : ∀ t : Tally, (outcomes.foldl Tally.add t).committed =
      t.committed + outcomes.countP fun o => o.2.isOk := by
    induction outcomes with
    | nil => exact fun t => rfl
    | cons o outcomes ih =>
      intro t
      obtain ⟨name, outcome⟩ := o
      rw [List.foldl_cons, ih, List.countP_cons]
      cases outcome with
      | ok version =>
        simp only [Tally.add, Except.isOk, Except.toBool, if_true]
        omega
      | error e => simp [Tally.add, Except.isOk, Except.toBool]
  simpa [tally] using hfold { tables := tables }

namespace Serial

variable {cfg : LoadConfig} {σ₁ σ : Store P} {targets : List (CommitTarget P)} {b : Burst P}
  {attempts : List Attempt} {log : CommitLog P} {settled : List (CommitResult P)}

/-- Once nothing is in flight, the commits of the log are those of the visible
attempts. -/
theorem countP_log (h : Serial cfg σ₁ targets σ b attempts log settled) (hover : b.isOver = true)
    (uri : String) :
    log.edits.countP (fun e => e.1 = uri) =
      attempts.countP fun a => a.visible && decide (a.uri = uri) := by
  have hflight : b.flight = [] := by
    have hnone := Burst.isOver_iff.mp hover
    simpa using (List.append_eq_nil_iff.mp hnone).1
  have hperm := h.visible
  rw [hflight, List.filter_nil, List.map_nil, List.append_nil] at hperm
  have hcount := hperm.countP_eq fun t => decide (t.table.uri = uri)
  rw [List.countP_map, List.countP_map, List.countP_filter] at hcount
  rw [CommitLog.edits, List.countP_map, h.attempts, List.countP_map]
  refine Eq.trans ?_ (hcount.trans (List.countP_congr fun c _ => ?_))
  · rfl
  · simp only [Function.comp_apply, Bool.and_eq_true, decide_eq_true_eq]
    exact and_comm

/-- A table gains a version for each visible commit. -/
theorem length_store (h : Serial cfg σ₁ targets σ b attempts log settled)
    (hover : b.isOver = true) (uri : String) :
    (σ uri).length = (σ₁ uri).length +
      attempts.countP fun a => a.visible && decide (a.uri = uri) := by
  rw [← h.countP_log hover, h.store]
  by_cases hnone : σ₁ uri = []
  · have hcount : log.edits.countP (fun e => e.1 = uri) = 0 := by
      rw [List.countP_eq_zero]
      intro e he heq
      obtain ⟨e', he', rfl⟩ := List.mem_map.mp he
      simp only [decide_eq_true_eq] at heq
      exact h.standing e' he' (heq ▸ hnone)
    rw [CommitLog.on, replay_of_nil hnone, hnone, hcount, Nat.add_zero]
  · exact length_replay hnone _

theorem uris_perm (h : Serial cfg σ₁ targets σ b attempts log settled) (hover : b.isOver = true) :
    (attempts.map Attempt.uri).Perm (targets.map fun t => t.table.uri) := by
  have hpartition := h.partition
  rw [Burst.isOver_iff.mp hover, List.append_nil] at hpartition
  have hmap := (hpartition.map fun t => t.table.uri).symm
  rw [h.attempts]
  simpa [Function.comp_def, CommitResult.attempt] using hmap

theorem changedTables_eq (h : Serial cfg σ₁ targets σ b attempts log settled)
    (hover : b.isOver = true) {uris : List String}
    (huris : (targets.map fun t => t.table.uri) = uris) :
    changedTables uris σ₁ σ = (visibleUris attempts).toFinset.card := by
  have hmem : ∀ uri, uri ∈ visibleUris attempts ↔
      0 < attempts.countP fun a => a.visible && decide (a.uri = uri) := by
    intro uri
    simp only [visibleUris, List.mem_map, List.mem_filter, List.countP_pos_iff, Bool.and_eq_true,
      decide_eq_true_eq, and_assoc]
  have hsubset : ∀ uri ∈ visibleUris attempts, uri ∈ uris := by
    intro uri huri
    obtain ⟨a, ha, rfl⟩ := List.mem_map.mp huri
    rw [← huris]
    exact (h.uris_perm hover).mem_iff.mp (List.mem_map_of_mem (List.mem_of_mem_filter ha))
  rw [changedTables]
  congr 1
  ext uri
  rw [Finset.mem_filter, List.mem_toFinset, List.mem_toFinset, h.length_store hover uri]
  constructor
  · rintro ⟨-, hlength⟩
    exact (hmem uri).mpr (by omega)
  · intro huri
    have hpos := (hmem uri).mp huri
    exact ⟨hsubset uri huri, by omega⟩

end Serial

namespace System

variable {L : Load} {s t s₁ : System P n}

/-- The locations of the tables that a load has opened. -/
def locations (s : System P n) : List String := s.reader.openTables.map fun t => t.table.uri

theorem targets_locations (s : System P n) :
    (s.targets.map fun t => t.table.uri) = s.locations :=
  Burst.map_assign _ (fun _ _ => rfl) _ _

/-- The counts of a failed phase two say how many commits were attempted, and
how many tables have a new version. -/
structure CountsTruthful (s₁ t : System P n) (committed total : ℕ) : Prop where
  total : total = t.trace.attempts.length
  committed : committed = changedTables s₁.locations s₁.store t.store

/-- The counts of a failed phase two are true exactly when as many commits fail
behind their visible version as there are visible commits behind the first one
of a table. Where no table has two of them, that is when every commit whose
version became visible came to its end; and a true count of zero says that
nothing changed. -/
theorem commit_counts_iff [NeZero n] {σ : Store P} (h : PhaseTwo L σ s₁ s) {dumpedBy : ℕ}
    {b : Burst P} (hp : s.point = .committing dumpedBy b) {o : Outside}
    (hstep : step L s (.reader o) = some t) {table message : String} {committed total : ℕ}
    (hpoint : t.point = .done (.error (.commitFailed table committed total message))) :
    (CountsTruthful s₁ t committed total ↔ lost t.trace.attempts = repeated t.trace.attempts) ∧
    ((visibleUris t.trace.attempts).Nodup →
      (CountsTruthful s₁ t committed total ↔
        ∀ a ∈ t.trace.attempts, a.visible = true → a.finished = true)) ∧
    (CountsTruthful s₁ t committed total → committed = 0 → t.store = s₁.store) := by
  have hphase := h.inPhaseTwo
  obtain ⟨hreader, hserial⟩ := hphase
  rw [hp] at hserial
  obtain ⟨log, settled, hserial⟩ := hserial
  cases step_move hstep with
  | commitFailed _ dumpedBy' b' hp' hover table' e hfail =>
    obtain ⟨-, rfl⟩ : dumpedBy = dumpedBy' ∧ b = b' := by simpa [hp] using hp'
    simp only [Point.done.injEq, Except.error.injEq, Error.commitFailed.injEq] at hpoint
    obtain ⟨rfl, hcommitted, htotal, -⟩ := hpoint
    have hfinished : committed = s.trace.attempts.countP Attempt.finished := by
      rw [← hcommitted, tally_committed, hserial.outcomes, hserial.attempts, List.countP_map,
        List.countP_map]
      rfl
    have hchanged := hserial.changedTables_eq hover s₁.targets_locations
    have hall : total = s.trace.attempts.length := by
      rw [← htotal, hserial.total, hserial.partition.length_eq, Burst.isOver_iff.mp hover,
        hserial.attempts]
      simp
    have hvisible : ∀ a ∈ s.trace.attempts, a.finished = true → a.visible = true := by
      intro a ha hdone
      rw [hserial.attempts] at ha
      obtain ⟨c, hc, rfl⟩ := List.mem_map.mp ha
      exact hserial.succeeded c hc hdone
    have hcount : committed = changedTables s₁.locations s₁.store s.store ↔
        lost s.trace.attempts = repeated s.trace.attempts := by
      have hle := (visibleUris s.trace.attempts).toFinset_card_le
      have hsum := countP_finished hvisible
      rw [hchanged, hfinished, repeated]
      omega
    refine ⟨?_, ?_, ?_⟩
    · rw [← hcount]
      exact ⟨fun htrue => htrue.committed, fun hequal => ⟨hall, hequal⟩⟩
    · intro hnodup
      have hnone : repeated s.trace.attempts = 0 := repeated_of_nodup hnodup
      rw [← lost_eq_zero_iff, ← hnone]
      exact ⟨fun htrue => hcount.mp htrue.committed, fun hlost => ⟨hall, hcount.mpr hlost⟩⟩
    · intro htrue hzero
      have hnone : (visibleUris s.trace.attempts).length = 0 := by
        have hempty : (visibleUris s.trace.attempts).toFinset.card = 0 := by
          rw [← hchanged, ← hzero]
          exact htrue.committed.symm
        rw [Finset.card_eq_zero, List.toFinset_eq_empty_iff] at hempty
        rw [hempty, List.length_nil]
      -- an empty log of commits leaves storage as it was
      have hlog : log = [] := by
        have hlen := hserial.visible.length_eq
        have hflight : b.flight = [] := by
          have hnil := Burst.isOver_iff.mp hover
          simpa using (List.append_eq_nil_iff.mp hnil).1
        rw [visibleUris, List.length_map, ← List.countP_eq_length_filter, hserial.attempts,
          List.countP_map] at hnone
        rw [hflight, List.filter_nil, List.map_nil, List.append_nil, List.length_map,
          List.length_map, ← List.countP_eq_length_filter] at hlen
        exact List.length_eq_zero_iff.mp (hlen.trans hnone)
      change s.store = s₁.store
      rw [hserial.store, hlog]
      rfl
  | burst => cases hpoint
  | report => cases hpoint
  | succeed => cases hpoint
  | _ => simp_all

/-! ### Checked runs of phase two -/

def isReading (s : System P n) : Bool :=
  match s.point with
  | .reading => true
  | _ => false

def isCommitting (s : System P n) : Bool :=
  match s.point with
  | .committing _ _ => true
  | _ => false

theorem point_of_isReading (h : s.isReading = true) : s.point = .reading := by
  unfold isReading at h
  split at h
  · assumption
  · cases h

theorem point_of_isCommitting (h : s.isCommitting = true) :
    ∃ dumpedBy b, s.point = .committing dumpedBy b := by
  unfold isCommitting at h
  split at h
  next dumpedBy b hp => exact ⟨dumpedBy, b, hp⟩
  · cases h

theorem exists_phaseTwo [NeZero n] {σ : Store P} {faults : StartFaults}
    {before after : List (Label n)} {o : Outside} {check : System P n → System P n → Bool}
    (h : ((runFrom (step L) (start L σ faults) before).any fun s₁ => s₁.isReading &&
      (step L s₁ (.reader o)).any fun t => t.pastPhaseOne &&
        (runFrom (step L) t after).any (check s₁)) = true) :
    ∃ s₁ s, PhaseTwo L σ s₁ s ∧ check s₁ s = true := by
  obtain ⟨s₁, hs₁, hcheck⟩ := (Option.any_eq_true _ _).mp h
  obtain ⟨hreading, hany⟩ := Bool.and_eq_true_iff.mp hcheck
  obtain ⟨t, ht, hcheck⟩ := (Option.any_eq_true _ _).mp hany
  obtain ⟨hpast, hany⟩ := Bool.and_eq_true_iff.mp hcheck
  obtain ⟨s, hs, hcheck⟩ := (Option.any_eq_true _ _).mp hany
  exact ⟨s₁, s, ⟨⟨faults, before, hs₁⟩, point_of_isReading hreading, o, t, after, ht, hpast, hs⟩,
    hcheck⟩

def readThrough : List (Label 1) := blockClosed ++ List.replicate 1 (.reader {})

/-- Storage refuses the only commit, and the count of zero is true. -/
theorem commit_counts_iff_refused :
    ∃ s₁ s t : System .plain 1, PhaseTwo single standing s₁ s ∧
      step single s (.reader {}) = some t ∧
      t.point = .done (.error (.commitFailed "t" 0 1 "delta error: refused")) ∧
      CountsTruthful s₁ t 0 1 ∧
      ((CountsTruthful s₁ t 0 1 ↔ lost t.trace.attempts = repeated t.trace.attempts) ∧
        ((visibleUris t.trace.attempts).Nodup →
          (CountsTruthful s₁ t 0 1 ↔
            ∀ a ∈ t.trace.attempts, a.visible = true → a.finished = true)) ∧
        (CountsTruthful s₁ t 0 1 → 0 = 0 → t.store = s₁.store)) := by
  have hrun : ((runFrom (step single) (start single standing {} : System .plain 1)
      readThrough).any fun s₁ => s₁.isReading && (step single s₁ (.reader {})).any fun u =>
        u.pastPhaseOne && (runFrom (step single) u
          [.reader {}, .reader { commit := { commit := .failed "refused" } }]).any fun s =>
            s.isCommitting && (step single s (.reader {})).any fun t =>
              t.stopsWith (.commitFailed "t" 0 1 "delta error: refused") &&
                decide (t.trace.attempts.length = 1) &&
                decide (changedTables s₁.locations s₁.store t.store = 0)) = true := by
    decide +kernel
  obtain ⟨s₁, s, hphase, hcheck⟩ := exists_phaseTwo hrun
  obtain ⟨hcommitting, hany⟩ := Bool.and_eq_true_iff.mp hcheck
  obtain ⟨t, hstep, hcheck⟩ := (Option.any_eq_true _ _).mp hany
  simp only [Bool.and_eq_true, decide_eq_true_eq] at hcheck
  obtain ⟨⟨hstops, hattempts⟩, hchanged⟩ := hcheck
  obtain ⟨dumpedBy, b, hp⟩ := point_of_isCommitting hcommitting
  have hpoint := point_of_stopsWith hstops
  exact ⟨s₁, s, t, hphase, hstep, hpoint, ⟨hattempts.symm, hchanged.symm⟩,
    commit_counts_iff hphase hp hstep hpoint⟩

/-- The version is there, the table cannot be loaded again, and none is
counted. -/
theorem commit_counts_counterexample :
    ∃ s₁ s t : System .plain 1, PhaseTwo single standing s₁ s ∧
      step single s (.reader {}) = some t ∧
      t.point = .done (.error (.commitFailed "t" 0 1 "delta error: gone")) ∧
      t.store "out/t" ≠ s₁.store "out/t" ∧ changedTables s₁.locations s₁.store t.store = 1 ∧
      ¬ CountsTruthful s₁ t 0 1 := by
  have hrun : ((runFrom (step single) (start single standing {} : System .plain 1)
      readThrough).any fun s₁ => s₁.isReading && (step single s₁ (.reader {})).any fun u =>
        u.pastPhaseOne && (runFrom (step single) u
          [.reader {}, .reader {}, .reader { commit := { reload := some "gone" } }]).any fun s =>
            (step single s (.reader {})).any fun t =>
              t.stopsWith (.commitFailed "t" 0 1 "delta error: gone") &&
                decide ((s₁.store "out/t").length = 1) && decide ((t.store "out/t").length = 2) &&
                decide (changedTables s₁.locations s₁.store t.store = 1)) = true := by
    decide +kernel
  obtain ⟨s₁, s, hphase, hcheck⟩ := exists_phaseTwo hrun
  obtain ⟨t, hstep, hcheck⟩ := (Option.any_eq_true _ _).mp hcheck
  simp only [Bool.and_eq_true, decide_eq_true_eq] at hcheck
  obtain ⟨⟨⟨hstops, hbefore⟩, hafter⟩, hchanged⟩ := hcheck
  refine ⟨s₁, s, t, hphase, hstep, point_of_stopsWith hstops, ?_, hchanged, ?_⟩
  · intro hsame
    rw [hsame, hbefore] at hafter
    cases hafter
  · intro htrue
    have hzero := htrue.committed
    rw [hchanged] at hzero
    cases hzero

end System

end PgDelta.Pipeline
