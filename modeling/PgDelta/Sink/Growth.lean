import PgDelta.Sink.Table

/-!
How the tables in storage grow.

A call to storage appends at most one version to one table. What a caller knows
about a store after some calls is one of three relations to the store before
them: `Grows`, which any calls keep, `OnlyCreated`, which the calls of phase one
keep, and `Unchanged`, which is what a reader of the tables can tell of it.
-/

namespace PgDelta.Sink

variable {P : Platform} {σ σ' σ'' : Store P}

namespace Store

/-- Every table keeps its versions, and may have more. -/
def Grows (σ σ' : Store P) : Prop := ∀ uri, σ uri <+: σ' uri

/-- Some locations that held no table hold an empty one. -/
def OnlyCreated (σ σ' : Store P) : Prop :=
  ∀ uri, σ' uri = σ uri ∨ σ uri = [] ∧ ∃ schema, σ' uri = [⟨schema, []⟩]

/-- No table that was there has a new version, and no table shows other rows
than it showed. -/
structure Unchanged (σ σ' : Store P) : Prop where
  versions : ∀ uri, σ uri ≠ [] → σ' uri = σ uri
  visible : ∀ uri, σ'.visible uri = σ.visible uri

/-- What one call to storage can do. -/
inductive Call (σ : Store P) : Store P → Prop
  | nothing : Call σ σ
  | created (uri : String) (schema : StructType P) (h : σ uri = []) :
      Call σ (σ.push uri ⟨schema, []⟩)
  | committed (uri : String) (latest : Version P) (actions : List (Action P))
      (h : (σ uri).getLast? = some latest) : Call σ (σ.push uri (latest.apply actions))

theorem Grows.refl (σ : Store P) : σ.Grows σ := fun _ => List.prefix_refl _

theorem Grows.trans (h : σ.Grows σ') (h' : σ'.Grows σ'') : σ.Grows σ'' :=
  fun uri => (h uri).trans (h' uri)

theorem grows_push (σ : Store P) (uri : String) (v : Version P) : σ.Grows (σ.push uri v) := by
  intro other
  by_cases hother : other = uri
  · subst hother
    rw [push_self]
    exact List.prefix_append _ _
  · rw [push_of_ne σ v hother]

theorem Call.grows (h : σ.Call σ') : σ.Grows σ' := by
  cases h with
  | nothing => exact .refl σ
  | created uri schema h => exact grows_push σ uri _
  | committed uri latest actions h => exact grows_push σ uri _

/-- A call changes one table at most. -/
theorem Call.elsewhere (h : σ.Call σ') : ∃ uri, ∀ other, other ≠ uri → σ' other = σ other := by
  cases h with
  | nothing => exact ⟨"", fun _ _ => rfl⟩
  | created uri schema h => exact ⟨uri, fun other hother => push_of_ne σ _ hother⟩
  | committed uri latest actions h => exact ⟨uri, fun other hother => push_of_ne σ _ hother⟩

theorem OnlyCreated.refl (σ : Store P) : σ.OnlyCreated σ := fun _ => .inl rfl

/-- One more table is created. -/
theorem OnlyCreated.push (h : σ.OnlyCreated σ') {uri : String} (schema : StructType P)
    (hnone : σ' uri = []) : σ.OnlyCreated (σ'.push uri ⟨schema, []⟩) := by
  intro other
  by_cases hother : other = uri
  · subst hother
    right
    rcases h other with heq | ⟨-, schema', hschema⟩
    · exact ⟨heq ▸ hnone, schema, by simp [hnone]⟩
    · rw [hschema] at hnone
      cases hnone
  · rw [push_of_ne σ' _ hother]
    exact h other

theorem OnlyCreated.grows (h : σ.OnlyCreated σ') : σ.Grows σ' := by
  intro uri
  rcases h uri with heq | ⟨hnone, -⟩
  · rw [heq]
  · rw [hnone]
    exact List.nil_prefix

theorem OnlyCreated.visible (h : σ.OnlyCreated σ') (uri : String) :
    σ'.visible uri = σ.visible uri := by
  rcases h uri with heq | ⟨hnone, schema, hschema⟩
  · rw [Store.visible, Store.visible, heq]
  · simp [Store.visible, hnone, hschema, Version.rows]

theorem OnlyCreated.unchanged (h : σ.OnlyCreated σ') : σ.Unchanged σ' where
  versions uri hsome := by
    rcases h uri with heq | ⟨hnone, -⟩
    · exact heq
    · exact absurd hnone hsome
  visible := h.visible

end Store

/-! ### The calls -/

theorem create_call (σ : Store P) (uri : String) (schema : StructType P) (outcome : Outcome) :
    σ.Call (create σ uri schema outcome).2 := by
  rcases create_cases σ uri schema outcome with ⟨hsame, -⟩ | ⟨hnone, hpush, -⟩
  · rw [hsame]
    exact .nothing
  · rw [hpush]
    exact .created uri schema hnone

theorem commit_call (σ : Store P) (uri : String) (actions : List (Action P)) (outcome : Outcome) :
    σ.Call (commit σ uri actions outcome).2 := by
  rcases commit_cases σ uri actions outcome with ⟨hsame, -⟩ | ⟨latest, hlatest, -, hpush, -⟩
  · rw [hsame]
    exact .nothing
  · rw [hpush]
    exact .committed uri latest actions hlatest

/-- Opening a table makes one call at most, which creates the table. -/
theorem finishOpen_store (P : Platform) (preloaded : PreloadedTable P) (name : Scan.TableName)
    (schema : Builders.Schema) (mode : WriteMode) (σ : Store P) (faults : OpenFaults) :
    (finishOpen P preloaded name schema mode σ faults).2 = σ ∨
      preloaded.existingSchema = none ∧ ∃ kernel,
        (finishOpen P preloaded name schema mode σ faults).2 =
          (create σ preloaded.uri kernel faults.create).2 := by
  unfold finishOpen
  cases hexisting : preloaded.existingSchema with
  | none =>
    simp only
    cases hkernel : tryIntoKernel P schema with
    | error message => exact .inl rfl
    | ok kernel =>
      right
      refine ⟨trivial, kernel, ?_⟩
      simp only
      split
      next hcreate => rw [hcreate]
      next hcreate => rw [hcreate]
  | some current =>
    left
    simp only
    split
    next => rfl
    next =>
      split_ifs
      · rfl
      · cases tryIntoKernel P schema with
        | error message => rfl
        | ok incoming =>
          simp only
          split_ifs <;> rfl

theorem finishOpen_call (P : Platform) (preloaded : PreloadedTable P) (name : Scan.TableName)
    (schema : Builders.Schema) (mode : WriteMode) (σ : Store P) (faults : OpenFaults) :
    σ.Call (finishOpen P preloaded name schema mode σ faults).2 := by
  rcases finishOpen_store P preloaded name schema mode σ faults with hsame | ⟨-, kernel, hcreate⟩
  · rw [hsame]
    exact .nothing
  · rw [hcreate]
    exact create_call σ _ _ _

/-- What was only created before a table is opened was only created after it. -/
theorem Store.OnlyCreated.finishOpen {σ₀ σ : Store P} (h : σ₀.OnlyCreated σ)
    (preloaded : PreloadedTable P) (name : Scan.TableName) (schema : Builders.Schema)
    (mode : WriteMode) (faults : OpenFaults) :
    σ₀.OnlyCreated (finishOpen P preloaded name schema mode σ faults).2 := by
  rcases finishOpen_store P preloaded name schema mode σ faults with hsame | ⟨-, kernel, hcreate⟩
  · rwa [hsame]
  · rw [hcreate]
    rcases create_cases σ preloaded.uri kernel faults.create with ⟨hsame, -⟩ | ⟨hnone, hpush, -⟩
    · rwa [hsame]
    · rw [hpush]
      exact h.push kernel hnone

/-- Committing a table makes one call that changes storage at most, after its
actions are put together. -/
theorem commitTable_call (P : Platform) (σ : Store P) (table : DeltaTable P)
    (staged : List (Action P)) (mode : WriteMode) (newSchema : Option Builders.Schema)
    (faults : CommitFaults) : σ.Call (commitTable P σ table staged mode newSchema faults).2 := by
  unfold commitTable
  cases prepareCommit P table staged mode newSchema faults with
  | error e => exact .nothing
  | ok actions =>
    have hcall := commit_call σ table.uri actions faults.commit
    simp only [finishCommit]
    split
    next hcommit => rwa [hcommit] at hcall
    next hcommit =>
      rw [hcommit] at hcall
      split <;> exact hcall

end PgDelta.Sink
