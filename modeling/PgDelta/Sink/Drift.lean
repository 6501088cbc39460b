import PgDelta.Sink.Growth

/-!
Schema drift, and what a commit makes of the latest version.

Two schemas differ in nothing exactly when they have the same columns, in
whatever order. A commit of files alone adds them. A commit that overwrites
takes away the files that its caller had seen.
-/

namespace PgDelta.Sink

open PgDelta.Builders

variable {P : Platform}

/-- The same columns with the same types, in any order. -/
def StructType.SameColumns (s t : StructType P) : Prop := ∀ f, f ∈ s.fields ↔ f ∈ t.fields

namespace StructType.SameColumns

theorem refl (s : StructType P) : s.SameColumns s := fun _ => Iff.rfl

theorem symm {s t : StructType P} (h : s.SameColumns t) : t.SameColumns s := fun f => (h f).symm

theorem trans {s t u : StructType P} (h : s.SameColumns t) (h' : t.SameColumns u) :
    s.SameColumns u := fun f => (h f).trans (h' f)

end StructType.SameColumns

/-! ### Drift -/

/-- Looking up a key finds the one entry under it. -/
theorem lookup_iff_mem {α β : Type*} [DecidableEq α] {xs : List (α × β)}
    (h : (xs.map Prod.fst).Nodup) {a : α} {b : β} : xs.lookup a = some b ↔ (a, b) ∈ xs := by
  induction xs with
  | nil => simp
  | cons x xs ih =>
    obtain ⟨c, d⟩ := x
    rw [List.map_cons, List.nodup_cons] at h
    have ih := ih h.2
    by_cases hac : a = c
    · subst hac
      rw [List.lookup_cons_self]
      have hnotMem : (a, b) ∉ xs := fun hmem => h.1 (List.mem_map.mpr ⟨_, hmem, rfl⟩)
      simp [hnotMem, eq_comm]
    · have hbeq : (a == c) = false := by simpa using hac
      rw [List.lookup_cons, hbeq]
      simp only [ih, List.mem_cons, Prod.mk.injEq, hac, false_and, false_or]

theorem SchemaDrift.isEmpty_iff {d : SchemaDrift} : d.isEmpty = true ↔ d = {} := by
  obtain ⟨added, removed, retyped⟩ := d
  simp [SchemaDrift.isEmpty, and_assoc]

/-- Two schemas do not differ exactly when they have the same columns. -/
theorem diffSchema_isEmpty_iff {current incoming : StructType P} :
    (diffSchema current incoming).isEmpty = true ↔ current.SameColumns incoming := by
  have hcurrent := fun a b => lookup_iff_mem current.nodup (a := a) (b := b)
  have hincoming := fun a b => lookup_iff_mem incoming.nodup (a := a) (b := b)
  simp only [SchemaDrift.isEmpty, diffSchema, Bool.and_eq_true, List.isEmpty_iff,
    List.map_eq_nil_iff,
    List.filter_eq_nil_iff, List.filterMap_eq_nil_iff, Option.isNone_iff_eq_none]
  constructor
  · rintro ⟨⟨hadded, hremoved⟩, hretyped⟩
    have hsub : ∀ f ∈ incoming.fields, f ∈ current.fields := by
      intro f hf
      obtain ⟨was, hwas⟩ := Option.ne_none_iff_exists'.mp (hadded f hf)
      have hsame := hretyped f hf
      rw [hwas] at hsame
      have hwas' : was = f.2 := by
        by_contra hne
        simp [hne] at hsame
      exact (hcurrent f.1 f.2).mp (hwas' ▸ hwas)
    intro f
    refine ⟨fun hf => ?_, hsub f⟩
    obtain ⟨now, hnow⟩ := Option.ne_none_iff_exists'.mp (hremoved f hf)
    have hmem := (hincoming f.1 now).mp hnow
    have hsame : now = f.2 := by
      have hlookup := (hcurrent f.1 now).mpr (hsub _ hmem)
      rw [(hcurrent f.1 f.2).mpr hf] at hlookup
      exact (Option.some.inj hlookup).symm
    rwa [hsame] at hmem
  · intro h
    refine ⟨⟨fun f hf hnone => ?_, fun f hf hnone => ?_⟩, fun f hf => ?_⟩
    · rw [(hcurrent f.1 f.2).mpr ((h f).mpr hf)] at hnone
      cases hnone
    · rw [(hincoming f.1 f.2).mpr ((h f).mp hf)] at hnone
      cases hnone
    · rw [(hcurrent f.1 f.2).mpr ((h f).mpr hf)]
      simp

theorem diffSchema_self (schema : StructType P) : diffSchema schema schema = {} :=
  SchemaDrift.isEmpty_iff.mp (diffSchema_isEmpty_iff.mpr (.refl schema))

/-! ### The actions of a commit -/

/-- The actions add files and do nothing else. -/
def OnlyAdds (actions : List (Action P)) : Prop := ∀ a ∈ actions, ∃ f, a = .add f

@[simp] theorem added_append (as bs : List (Action P)) :
    added (as ++ bs) = added as ++ added bs := by
  induction as with
  | nil => rfl
  | cons a as ih => cases a <;> simp [added, ih]

theorem mem_added {f : File} {actions : List (Action P)} :
    f ∈ added actions ↔ .add f ∈ actions := by
  induction actions with
  | nil => simp [added]
  | cons a actions ih => cases a <;> simp [added, ih]

theorem declared_append (as bs : List (Action P)) :
    declared (as ++ bs) = (declared bs).or (declared as) := by
  induction as with
  | nil => simp [declared]
  | cons a as ih =>
    cases a with
    | add f => exact ih
    | remove path => exact ih
    | metadata schema =>
      rw [List.cons_append, declared, ih, declared]
      cases declared bs <;> cases declared as <;> rfl

theorem OnlyAdds.declared {actions : List (Action P)} (h : OnlyAdds actions) :
    declared actions = none := by
  induction actions with
  | nil => rfl
  | cons a actions ih =>
    obtain ⟨f, rfl⟩ := h a List.mem_cons_self
    exact ih fun b hb => h b (List.mem_cons_of_mem _ hb)

theorem OnlyAdds.remove_notMem {actions : List (Action P)} (h : OnlyAdds actions)
    (path : FilePath) :
    .remove path ∉ actions := by
  intro hmem
  obtain ⟨f, hf⟩ := h _ hmem
  cases hf

/-- Committing files alone adds them. -/
theorem OnlyAdds.apply {actions : List (Action P)} (h : OnlyAdds actions) (v : Version P) :
    v.apply actions = ⟨v.schema, v.files ++ added actions⟩ := by
  have hkept : v.files.filter (fun f => (.remove f.path : Action P) ∉ actions) = v.files :=
    List.filter_eq_self.mpr fun f _ => by simpa using h.remove_notMem f.path
  rw [Version.apply, h.declared, hkept]
  rfl

/-- Taking away the files that a caller has seen. -/
theorem currentFiles_spec (uri : String) (v : Version P) :
    added (currentFiles ⟨uri, some v⟩) = [] ∧ declared (currentFiles ⟨uri, some v⟩) = none ∧
      ∀ path, .remove path ∈ currentFiles ⟨uri, some v⟩ ↔ path ∈ v.files.map File.path := by
  have hnone : ∀ files : List File, added (files.map fun f => (.remove f.path : Action P)) = [] ∧
      declared (files.map fun f => (.remove f.path : Action P)) = none := by
    intro files
    induction files with
    | nil => exact ⟨rfl, rfl⟩
    | cons f files ih => exact ih
  refine ⟨(hnone v.files).1, (hnone v.files).2, fun path => ?_⟩
  simp [currentFiles]

/-- What `prepareCommit` puts together. -/
theorem prepareCommit_spec {table : DeltaTable P} {staged actions : List (Action P)}
    {mode : WriteMode} {newSchema : Option Schema} {faults : CommitFaults}
    (h : prepareCommit P table staged mode newSchema faults = .ok actions) :
    (mode ≠ .overwrite ∧ actions = staged) ∨
      mode = .overwrite ∧ ∃ metadata, actions = staged ++ currentFiles table ++ metadata ∧
        ((newSchema = none ∧ metadata = []) ∨
          ∃ schema kernel v, newSchema = some schema ∧ tryIntoKernel P schema = .ok kernel ∧
            table.snapshot = some v ∧
            metadata = if kernel ≠ v.schema then [.metadata kernel] else []) := by
  unfold prepareCommit at h
  split at h
  next hmode =>
    right
    refine ⟨hmode, ?_⟩
    split at h
    next => cases h
    next =>
      split at h
      next => cases h
      next metadata hmetadata =>
        refine ⟨metadata, (Except.ok.inj h).symm, ?_⟩
        unfold metadataAction at hmetadata
        split at hmetadata
        next => exact .inl ⟨rfl, (Except.ok.inj hmetadata).symm⟩
        next schema =>
          right
          split at hmetadata
          next => cases hmetadata
          next kernel hkernel =>
            split at hmetadata
            next => cases hmetadata
            next v hv =>
              refine ⟨schema, kernel, v, rfl, hkernel, hv, ?_⟩
              split at hmetadata
              next hne =>
                rw [if_pos hne]
                split at hmetadata
                next => cases hmetadata
                next => exact (Except.ok.inj hmetadata).symm
              next heq =>
                rw [if_neg heq]
                exact (Except.ok.inj hmetadata).symm
  next hmode => exact .inl ⟨hmode, (Except.ok.inj h).symm⟩

theorem commitTable_append (σ : Store P) (table : DeltaTable P) (staged : List (Action P))
    (newSchema : Option Schema) (faults : CommitFaults) :
    (commitTable P σ table staged .append newSchema faults).2 =
        (commit σ table.uri staged faults.commit).2 ∧
      ∀ version, (commitTable P σ table staged .append newSchema faults).1 = .ok version →
        (commit σ table.uri staged faults.commit).1 = .ok version := by
  have hprepare : prepareCommit P table staged .append newSchema faults = .ok staged := rfl
  simp only [commitTable, hprepare, finishCommit]
  split
  next message σ' hcommit =>
    rw [hcommit]
    exact ⟨rfl, fun version h => by cases h⟩
  next version σ' hcommit =>
    rw [hcommit]
    split
    next => exact ⟨rfl, fun version h => by cases h⟩
    next =>
      refine ⟨rfl, fun version h => ?_⟩
      obtain rfl := Except.ok.inj h
      rfl

end PgDelta.Sink
