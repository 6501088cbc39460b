import PgDelta.Pipeline.Headers

/-!
The commits of a load, target by target.

When phase two begins, the targets under a name have between them what was
staged under it, and each of them knows the version that its table shows. A
commit that appends adds its files to whatever is there. A commit that
overwrites takes away the files of the version it knows, and leaves the table
with the columns of its target.
-/

namespace PgDelta.Pipeline

open PgDelta.Lib PgDelta.Builders PgDelta.Types PgDelta.Scan PgDelta.Sink

variable {P : Platform} {n : ℕ}

/-! ### Handing out the staged actions -/

def actionsUnder (name : String) (targets : List (CommitTarget P)) : List (Action P) :=
  (targets.filter fun t => t.qualified = name).flatMap CommitTarget.actions

theorem actionsUnder_cons (name : String) (t : CommitTarget P) (targets : List (CommitTarget P)) :
    actionsUnder name (t :: targets) =
      (if t.qualified = name then t.actions else []) ++ actionsUnder name targets := by
  unfold actionsUnder
  by_cases h : t.qualified = name <;> simp [h]

theorem actionsUnder_of_notMem {name : String} {targets : List (CommitTarget P)}
    (h : name ∉ targets.map CommitTarget.qualified) : actionsUnder name targets = [] := by
  have hnone : targets.filter (fun t => t.qualified = name) = [] := by
    rw [List.filter_eq_nil_iff]
    intro t ht hname
    exact h (List.mem_map.mpr ⟨t, ht, by simpa using hname⟩)
  rw [actionsUnder, hnone]
  rfl

theorem actionsUnder_assign {name : String} {targets : List (CommitTarget P)}
    (staged : String → Option (List (Action P)))
    (h : name ∈ targets.map CommitTarget.qualified) :
    actionsUnder name (Burst.assign targets staged) = (staged name).getD [] := by
  have hnothing : ∀ (targets : List (CommitTarget P)) staged, staged name = none →
      actionsUnder name (Burst.assign targets staged) = [] := by
    intro targets
    induction targets with
    | nil => exact fun _ _ => rfl
    | cons t targets ih =>
      intro staged hnone
      rw [Burst.assign, actionsUnder_cons, ih _ ?_]
      · by_cases hname : t.qualified = name
        · simp [hname, hnone]
        · simp [hname]
      · by_cases hname : name = t.qualified
        · rw [hname, Function.update_self]
        · rw [Function.update_of_ne hname, hnone]
  induction targets generalizing staged with
  | nil => cases h
  | cons t targets ih =>
    rw [Burst.assign, actionsUnder_cons]
    by_cases hname : t.qualified = name
    · rw [hnothing targets _ (by rw [hname, Function.update_self])]
      simp [hname]
    · have hmem : name ∈ targets.map CommitTarget.qualified := by
        rw [List.map_cons, List.mem_cons] at h
        exact h.resolve_left (Ne.symm hname)
      rw [ih _ hmem, Function.update_of_ne (Ne.symm hname)]
      simp [hname]

/-- A target without its actions. -/
def CommitTarget.bare (t : CommitTarget P) : CommitTarget P := { t with actions := [] }

theorem bare_assign (targets : List (CommitTarget P))
    (staged : String → Option (List (Action P))) :
    (Burst.assign targets staged).map CommitTarget.bare = targets.map CommitTarget.bare :=
  Burst.map_assign _ (fun _ _ => rfl) _ _

theorem Opened.of_bare {cfg : LoadConfig} {σ : Store P} {t t' : CommitTarget P} {v : Version P}
    {kernel : StructType P} (h : Opened cfg σ t v kernel) (hbare : t'.bare = t.bare) :
    Opened cfg σ t' v kernel := by
  obtain ⟨qualified, table, schema, drift, actions⟩ := t
  obtain ⟨qualified', table', schema', drift', actions'⟩ := t'
  simp only [CommitTarget.bare, CommitTarget.mk.injEq, and_true] at hbare
  obtain ⟨rfl, rfl, rfl, rfl⟩ := hbare
  exact ⟨h.placed, h.wanted, h.snapshot, h.current, h.converts, h.drift, h.append, h.empty⟩

/-! ### The targets of phase two -/

/-- The staged actions under a name, target by target. -/
def partsUnder (name : String) (targets : List (CommitTarget P)) (parts : List (List (Action P))) :
    List (Action P) :=
  ((targets.zip parts).filter fun e => e.1.qualified = name).flatMap Prod.snd

/-- What phase two begins with: the part of the staged actions that belongs to
the block of each target. -/
structure Provided (L : Load) (σ₁ : Store P) (trace : Trace) (targets : List (CommitTarget P))
    (parts : List (List (Action P))) : Prop where
  length : parts.length = targets.length
  opened : ∀ t ∈ targets, ∃ v kernel, Opened L.cfg σ₁ t v kernel
  contributes : ∀ (g : ℕ) (part : List (Action P)) (t : CommitTarget P), parts[g]? = some part →
    targets[g]? = some t → Contributes L.run trace (g + 1) t.schema part
  actions : ∀ name, actionsUnder name targets = partsUnder name targets parts

/-- What is staged under a name depends on the names of the blocks alone. -/
theorem under_eq_partsUnder {name : String} {tables : List TableStats}
    {targets : List (CommitTarget P)}
    (h : tables.map TableStats.table = targets.map CommitTarget.qualified)
    (parts : List (List (Action P))) : under name tables parts = partsUnder name targets parts := by
  have hzip : ∀ {α : Type} (nameOf : α → String) (xs : List α),
      ((xs.zip parts).filter fun e => nameOf e.1 = name).flatMap Prod.snd =
        (((xs.map nameOf).zip parts).filter fun e => e.1 = name).flatMap Prod.snd := by
    intro α nameOf xs
    rw [List.zip_map_left, List.filter_map, List.flatMap_map]
    rfl
  rw [under, partsUnder, hzip TableStats.table, hzip CommitTarget.qualified, h]

namespace Provided

variable {L : Load} {σ₁ : Store P} {trace : Trace} {targets : List (CommitTarget P)}
  {parts : List (List (Action P))} {t : CommitTarget P}

/-- An action of a target belongs to the block of a target under its name. -/
theorem action (h : Provided L σ₁ trace targets parts) (ht : t ∈ targets) {a : Action P}
    (ha : a ∈ t.actions) : ∃ t' ∈ targets, t'.qualified = t.qualified ∧
      ∃ f, a = .add f ∧ f.schema = t'.schema ∧ f.path.run = L.run := by
  have hunder : a ∈ actionsUnder t.qualified targets :=
    List.mem_flatMap.mpr ⟨t, List.mem_filter.mpr ⟨ht, by simp⟩, ha⟩
  rw [h.actions] at hunder
  obtain ⟨⟨t', part⟩, hmem, ha⟩ := List.mem_flatMap.mp hunder
  obtain ⟨hzip, hname⟩ := List.mem_filter.mp hmem
  obtain ⟨g, hg⟩ := List.mem_iff_getElem?.mp hzip
  obtain ⟨ht', hpart⟩ := List.getElem?_zip_eq_some.mp hg
  obtain ⟨f, hf, hschema, hrun, -⟩ := (h.contributes g part t' hpart ht').files a ha
  exact ⟨t', List.mem_of_getElem? ht', by simpa using hname, f, hf, hschema, hrun⟩

theorem onlyAdds (h : Provided L σ₁ trace targets parts) (ht : t ∈ targets) :
    OnlyAdds t.actions := by
  intro a ha
  obtain ⟨t', -, -, f, hf, -⟩ := h.action ht ha
  exact ⟨f, hf⟩

/-- Targets lie at one location exactly when they are under one name. -/
theorem uri_iff (h : Provided L σ₁ trace targets parts) (ht : t ∈ targets) {t' : CommitTarget P}
    (ht' : t' ∈ targets) : t.table.uri = t'.table.uri ↔ t.qualified = t'.qualified := by
  obtain ⟨v, kernel, hopened⟩ := h.opened t ht
  obtain ⟨v', kernel', hopened'⟩ := h.opened t' ht'
  exact hopened.placed.uri_iff hopened'.placed

end Provided

namespace System

variable {L : Load} {s t s₁ : System P n}

/-- The state behind the beginning of phase two is reachable too. -/
theorem PhaseTwo.reachable_last [NeZero n] {σ : Store P} (h : PhaseTwo L σ s₁ s) :
    Reachable L σ s := by
  obtain ⟨o, t, labels, hstep, -, hrun⟩ := h.run
  exact (h.reachable.next hstep).trans hrun

/-- Before phase two begins every block is recorded. -/
theorem PhaseTwo.complete [NeZero n] {σ : Store P} (h : PhaseTwo L σ s₁ s) :
    s₁.reader.tables.length = s₁.reader.openTables.length := by
  obtain ⟨o, t, labels, hstep, hpast, -⟩ := h.run
  obtain ⟨dumpedBy, -, -, rfl⟩ := begins_of_pastPhaseOne h.reading hstep hpast
  have hreach := h.reachable.next hstep
  obtain ⟨handled, -, hscripted, hbeside⟩ := hreach.transcribed
  have hlength : s₁.reader.tables.length = _ := hbeside
  rw [hlength, ← hscripted.generation]
  exact h.reachable.stored.length.symm

theorem PhaseTwo.isLate [NeZero n] {σ : Store P} (h : PhaseTwo L σ s₁ s) : s₁.isLate = false := by
  rw [System.isLate, h.reading]

theorem PhaseTwo.provided [NeZero n] {σ : Store P} (h : PhaseTwo L σ s₁ s) :
    ∃ parts, Provided L s₁.store s.trace s₁.targets parts := by
  have hreader : s.reader = s₁.reader := h.inPhaseTwo.1
  have hstored := h.reachable_last.stored
  rw [hreader] at hstored
  obtain ⟨parts, hlength, hparts, hstaged⟩ := hstored.parts
  have hbare := bare_assign s₁.reader.openTables s₁.reader.staged
  have hcount : s₁.targets.length = s₁.reader.openTables.length := by
    simpa [System.targets] using congrArg List.length hbare
  -- each target is that of an opened table, but for its actions
  have hopen : ∀ (g : ℕ) t, s₁.targets[g]? = some t → ∃ t₀ : CommitTarget P,
      s₁.reader.openTables[g]? = some t₀ ∧ t.bare = t₀.bare := by
    intro g t ht
    have hg := congrArg (fun targets => targets[g]?) hbare
    simp only [List.getElem?_map] at hg
    rw [show (Burst.assign s₁.reader.openTables s₁.reader.staged)[g]? = some t from ht] at hg
    obtain ⟨t₀, ht₀, heq⟩ := Option.map_eq_some_iff.mp hg.symm
    exact ⟨t₀, ht₀, heq.symm⟩
  have hnames : s₁.targets.map CommitTarget.qualified =
      s₁.reader.openTables.map CommitTarget.qualified := Burst.map_assign _ (fun _ _ => rfl) _ _
  have htables : s₁.reader.tables.map TableStats.table =
      s₁.targets.map CommitTarget.qualified := by
    rw [hnames]
    apply List.ext_getElem
    · simpa using h.complete
    · intro g hg hg'
      simp only [List.length_map] at hg hg'
      obtain ⟨t, ht, hname, -⟩ := hstored.names g _ (List.getElem?_eq_getElem hg)
      rw [List.getElem?_eq_getElem hg'] at ht
      simp only [List.getElem_map, Option.some.inj ht, hname]
  refine ⟨parts, ?_, ?_, ?_, ?_⟩
  · rw [hlength, h.complete, hcount]
  · intro t ht
    obtain ⟨g, hg⟩ := List.mem_iff_getElem?.mp ht
    obtain ⟨t₀, ht₀, heq⟩ := hopen g t hg
    obtain ⟨v, kernel, hopened⟩ :=
      (h.reachable.charted h.isLate).opened t₀ (List.mem_of_getElem? ht₀)
    exact ⟨v, kernel, hopened.of_bare heq⟩
  · intro g part t hpart ht
    obtain ⟨t₀, ht₀, heq⟩ := hopen g t ht
    have hschema : t.bare.schema = t₀.bare.schema := by rw [heq]
    change Contributes L.run s.trace (g + 1) t.bare.schema part
    rw [hschema]
    exact hparts g part t₀ hpart ht₀
  · intro name
    rw [← under_eq_partsUnder htables, ← hstaged]
    by_cases hname : name ∈ s₁.targets.map CommitTarget.qualified
    · exact actionsUnder_assign _ (hnames ▸ hname)
    · rw [actionsUnder_of_notMem hname, hstaged, under_eq_partsUnder htables, partsUnder]
      have hnone : (s₁.targets.zip parts).filter (fun e => e.1.qualified = name) = [] := by
        rw [List.filter_eq_nil_iff]
        rintro ⟨t, part⟩ he heq
        exact hname (List.mem_map.mpr ⟨t, (List.of_mem_zip he).1, by simpa using heq⟩)
      rw [hnone]
      rfl

end System

/-! ### What a commit makes of a version -/

/-- The actions replace the files of one version by staged ones, under a
schema. -/
structure Replaces (v : Version P) (kernel : StructType P) (staged actions : List (Action P)) :
    Prop where
  adds : added actions = added staged
  removes : ∀ path, .remove path ∈ actions ↔ path ∈ v.files.map File.path
  declares : (declared actions = none ∧ v.schema.SameColumns kernel) ∨
    declared actions = some kernel

theorem Opened.prepares {cfg : LoadConfig} {σ : Store P} {t : CommitTarget P} {v : Version P}
    {kernel : StructType P} (h : Opened cfg σ t v kernel) (hadds : OnlyAdds t.actions)
    {actions : List (Action P)} (hprepares : Prepares cfg t actions) :
    (cfg.mode ≠ .overwrite ∧ actions = t.actions) ∨
      cfg.mode = .overwrite ∧ Replaces v kernel t.actions actions := by
  obtain ⟨faults, hprepares⟩ := hprepares
  rcases prepareCommit_spec hprepares with hkeep | ⟨hmode, metadata, rfl, hmetadata⟩
  · exact .inl hkeep
  · right
    refine ⟨hmode, ?_⟩
    obtain ⟨hadded, hdeclared, hremoves⟩ := currentFiles_spec t.table.uri v
    have htable : t.table = ⟨t.table.uri, some v⟩ := by
      rw [← h.snapshot]
    rw [← htable] at hadded hdeclared hremoves
    have hremoved : ∀ metadata : List (Action P), (∀ path, .remove path ∉ metadata) →
        ∀ path, .remove path ∈ t.actions ++ currentFiles t.table ++ metadata ↔
          path ∈ v.files.map File.path := by
      intro metadata hnone path
      simp [hremoves, hadds.remove_notMem, hnone]
    rcases hmetadata with ⟨hschema, rfl⟩ | ⟨schema, kernel', v', hschema, hkernel, hsnapshot, rfl⟩
    · -- no drift was seen, and nothing is declared
      have hdrift : t.drift.isEmpty = true := by
        unfold Burst.newSchema at hschema
        by_contra hne
        simp [hne] at hschema
      rw [h.drift, diffSchema_isEmpty_iff] at hdrift
      refine ⟨by simp [hadded], hremoved [] (by simp), .inl ⟨?_, hdrift⟩⟩
      rw [List.append_nil, declared_append, hdeclared, hadds.declared]
      rfl
    · obtain rfl : v' = v := Option.some.inj (hsnapshot.symm.trans h.snapshot)
      obtain rfl : kernel' = kernel := by
        have hsame : schema = t.schema := by
          unfold Burst.newSchema at hschema
          split at hschema
          · cases hschema
          · exact (Option.some.inj hschema).symm
        rw [hsame, h.converts] at hkernel
        exact (Except.ok.inj hkernel).symm
      have hne : kernel' ≠ v'.schema := by
        intro heq
        unfold Burst.newSchema at hschema
        rw [h.drift, heq, diffSchema_self] at hschema
        cases hschema
      rw [if_pos hne]
      refine ⟨by simp [hadded, added], hremoved _ (by simp), .inr ?_⟩
      rw [declared_append]
      rfl

theorem Opened.replaces {cfg : LoadConfig} {σ : Store P} {t : CommitTarget P} {v : Version P}
    {kernel : StructType P} (h : Opened cfg σ t v kernel) (hmode : cfg.mode = .overwrite)
    (hadds : OnlyAdds t.actions) {actions : List (Action P)} (hprepares : Prepares cfg t actions) :
    Replaces v kernel t.actions actions := by
  rcases h.prepares hadds hprepares with ⟨hne, -⟩ | ⟨-, hreplaces⟩
  · exact absurd hmode hne
  · exact hreplaces

theorem Replaces.apply_self {v : Version P} {kernel : StructType P}
    {staged actions : List (Action P)} (h : Replaces v kernel staged actions) :
    (v.apply actions).files = added staged ∧
      (v.apply actions).schema.SameColumns kernel := by
  have hnone : v.files.filter (fun f => (.remove f.path : Action P) ∉ actions) = [] := by
    rw [List.filter_eq_nil_iff]
    intro f hf
    simpa using (h.removes f.path).mpr (List.mem_map_of_mem hf)
  refine ⟨?_, ?_⟩
  · rw [Version.apply, hnone, h.adds]
    rfl
  · rcases h.declares with ⟨hdeclared, hsame⟩ | hdeclared
    · simpa [Version.apply, hdeclared] using hsame
    · simpa [Version.apply, hdeclared] using StructType.SameColumns.refl kernel

theorem Serial.mem_targets {cfg : LoadConfig} {σ₁ σ : Store P} {targets : List (CommitTarget P)}
    {b : Burst P} {attempts : List Attempt} {log : CommitLog P} {settled : List (CommitResult P)}
    (h : Serial cfg σ₁ targets σ b attempts log settled) {e : CommitTarget P × List (Action P)}
    (he : e ∈ log) : e.1 ∈ targets := by
  rw [h.partition.mem_iff, List.mem_append]
  have hmem := h.visible.mem_iff.mp (List.mem_map_of_mem he)
  rcases List.mem_append.mp hmem with hmem | hmem
  · obtain ⟨c, hc, heq⟩ := List.mem_map.mp hmem
    exact .inl (heq ▸ List.mem_map_of_mem (List.mem_of_mem_filter hc))
  · obtain ⟨c, hc, heq⟩ := List.mem_map.mp hmem
    right
    exact heq ▸ List.mem_append_left _ (List.mem_map_of_mem (List.mem_of_mem_filter hc))

end PgDelta.Pipeline
