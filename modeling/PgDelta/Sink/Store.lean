import PgDelta.Types.Builders

/-!
Delta tables in storage.

A table is the list of its committed versions, each with the schema it declares
and the files it shows. What delta-rs and its kernel do beyond that is a
parameter.
-/

namespace PgDelta.Sink

open PgDelta.Builders

/-- The parts of delta-rs, and of the Unicode tables, that the loader relies
on. -/
structure Platform where
  /-- The types of the Delta kernel. -/
  KernelType : Type
  decEq : DecidableEq KernelType
  /-- A kernel type as text. -/
  render : KernelType → String
  /-- The columns of a schema in the kernel's types. The kernel keeps them under
  their names, so that no two have the same one. -/
  columns : Schema → Except String (List (String × KernelType))
  columns_nodup : ∀ schema cols, columns schema = .ok cols → (cols.map Prod.fst).Nodup
  /-- How a flush spreads the batches of a writer over files. -/
  flush : List RecordBatch → List (List RecordBatch)
  flush_covers : ∀ batches, (flush batches).flatten = batches
  /-- Letters and digits, in the sense of Unicode. -/
  isAlphanumeric : Char → Bool
  isAlphanumeric_ascii : ∀ c : Char, c.toNat < 128 → isAlphanumeric c = c.isAlphanum

instance (P : Platform) : DecidableEq P.KernelType := P.decEq

/-- A type of Arrow that Delta has: all but a time of day. -/
def deltaType : DataType → Bool
  | .time64 => false
  | .list item => deltaType item
  | _ => true

/-- The columns of a schema in the types of Arrow, under names that differ in
more than case. -/
def plainColumns (schema : Schema) : Except String (List (String × DataType)) :=
  if !schema.all (deltaType ·.dataType) then .error "Invalid data type for Delta Lake"
  else if (schema.map fun f => f.name.toList.map Char.toLower).Nodup then
    .ok (schema.map fun f => (f.name, f.dataType))
  else .error "duplicate field"

theorem plainColumns_nodup (schema : Schema) (cols : List (String × DataType))
    (h : plainColumns schema = .ok cols) : (cols.map Prod.fst).Nodup := by
  unfold plainColumns at h
  split_ifs at h with htypes hnodup
  obtain rfl := Except.ok.inj h
  have hsplit : (schema.map fun f => f.name.toList.map Char.toLower)
      = (schema.map Field.name).map fun name => name.toList.map Char.toLower := by
    rw [List.map_map]
    rfl
  rw [hsplit] at hnodup
  rw [List.map_map]
  exact hnodup.of_map

/-- The simplest platform: a kernel with the types of Arrow, a flush that makes
one file, and the letters and digits of ASCII. -/
def Platform.plain : Platform where
  KernelType := DataType
  decEq := inferInstance
  render := fun _ => ""
  columns := plainColumns
  columns_nodup := plainColumns_nodup
  flush := fun batches => if batches = [] then [] else [batches]
  flush_covers := by
    intro batches
    split
    · simp_all
    · simp
  isAlphanumeric := Char.isAlphanum
  isAlphanumeric_ascii := fun _ _ => rfl

/-- The schema that a Delta table declares. -/
structure StructType (P : Platform) where
  fields : List (String × P.KernelType)
  nodup : (fields.map Prod.fst).Nodup
  deriving DecidableEq

def tryIntoKernel (P : Platform) (schema : Schema) : Except String (StructType P) :=
  match h : P.columns schema with
  | .error e => .error e
  | .ok cols => .ok ⟨cols, P.columns_nodup schema cols h⟩

/-- The name of a file. In storage it is drawn at random; here it says which
run, which `COPY` block of the run and which worker wrote the file. -/
structure FilePath where
  run : ℕ
  block : ℕ
  worker : ℕ
  part : ℕ
  deriving DecidableEq, Repr

/-- A Parquet file, with the schema its writer was given. -/
structure File where
  path : FilePath
  schema : Schema
  batches : List RecordBatch
  deriving DecidableEq

def File.rows (f : File) : List Row := f.batches.flatMap RecordBatch.rows

structure Version (P : Platform) where
  schema : StructType P
  files : List File
  deriving DecidableEq

def Version.rows {P : Platform} (v : Version P) : List Row := v.files.flatMap File.rows

/-- The tables beneath a prefix by their locations, each with its versions in
order. A location without a version holds no table. -/
abbrev Store (P : Platform) := String → List (Version P)

/-- The rows that a reader of a table sees. -/
def Store.visible {P : Platform} (σ : Store P) (uri : String) : List Row :=
  ((σ uri).getLast?.map Version.rows).getD []

inductive Action (P : Platform)
  | add (f : File)
  | remove (path : FilePath)
  | metadata (schema : StructType P)
  deriving DecidableEq

def added {P : Platform} : List (Action P) → List File
  | [] => []
  | .add f :: actions => f :: added actions
  | _ :: actions => added actions

/-- The schema that some actions declare, if they do. -/
def declared {P : Platform} : List (Action P) → Option (StructType P)
  | [] => none
  | .metadata schema :: actions => some ((declared actions).getD schema)
  | _ :: actions => declared actions

/-- The version that a commit makes of the latest one. -/
def Version.apply {P : Platform} (v : Version P) (actions : List (Action P)) : Version P where
  schema := (declared actions).getD v.schema
  files := v.files.filter (fun f => .remove f.path ∉ actions) ++ added actions

/-- How a call to storage ends. A call that is `lost` took effect, but its
caller gets an error. -/
inductive Outcome
  | done
  | failed (message : String)
  | lost (message : String)
  deriving DecidableEq, Repr

def Outcome.takesEffect : Outcome → Bool
  | .failed _ => false
  | _ => true

/-- A Delta table as the process holds it: its location, and the version it was
loaded at, unless it is not loaded. -/
structure DeltaTable (P : Platform) where
  uri : String
  snapshot : Option (Version P)
  deriving DecidableEq

def Store.push {P : Platform} (σ : Store P) (uri : String) (v : Version P) : Store P :=
  Function.update σ uri (σ uri ++ [v])

@[simp] theorem Store.push_self {P : Platform} (σ : Store P) (uri : String) (v : Version P) :
    σ.push uri v uri = σ uri ++ [v] := by
  simp [Store.push]

theorem Store.push_of_ne {P : Platform} (σ : Store P) {uri other : String} (v : Version P)
    (h : other ≠ uri) : σ.push uri v other = σ other := by
  simp [Store.push, h]

/-- Create a table, which fails without a column and where there is one already. -/
def create {P : Platform} (σ : Store P) (uri : String) (schema : StructType P)
    (outcome : Outcome) : Except String (DeltaTable P) × Store P :=
  if schema.fields.isEmpty then
    (.error "At least one column must be defined to create a table.", σ)
  else if σ uri = [] then
    let v : Version P := ⟨schema, []⟩
    match outcome with
    | .done => (.ok ⟨uri, some v⟩, σ.push uri v)
    | .failed message => (.error message, σ)
    | .lost message => (.error message, σ.push uri v)
  else (.error "A Delta Lake table already exists at that location.", σ)

/-- Commit actions on top of the latest version, all of them or none. -/
def commit {P : Platform} (σ : Store P) (uri : String) (actions : List (Action P))
    (outcome : Outcome) : Except String ℕ × Store P :=
  match (σ uri).getLast? with
  | none => (.error "Not a Delta table", σ)
  | some latest =>
    match outcome with
    | .done => (.ok (σ uri).length, σ.push uri (latest.apply actions))
    | .failed message => (.error message, σ)
    | .lost message => (.error message, σ.push uri (latest.apply actions))

/-- The calls that change storage append at most one version to one table. -/
theorem create_cases {P : Platform} (σ : Store P) (uri : String) (schema : StructType P)
    (outcome : Outcome) :
    ((create σ uri schema outcome).2 = σ ∧ ∃ e, (create σ uri schema outcome).1 = .error e) ∨
      σ uri = [] ∧ (create σ uri schema outcome).2 = σ.push uri ⟨schema, []⟩ ∧
        ∀ t, (create σ uri schema outcome).1 = .ok t → t = ⟨uri, some ⟨schema, []⟩⟩ := by
  unfold create
  by_cases hcolumns : schema.fields.isEmpty = true
  · rw [if_pos hcolumns]
    exact .inl ⟨rfl, _, rfl⟩
  rw [if_neg hcolumns]
  by_cases h : σ uri = []
  · rw [if_pos h]
    cases outcome with
    | done => exact .inr ⟨h, rfl, fun t ht => by simpa using ht.symm⟩
    | failed message => exact .inl ⟨rfl, message, rfl⟩
    | lost message => exact .inr ⟨h, rfl, fun t ht => by simp at ht⟩
  · rw [if_neg h]
    exact .inl ⟨rfl, _, rfl⟩

theorem commit_cases {P : Platform} (σ : Store P) (uri : String) (actions : List (Action P))
    (outcome : Outcome) :
    ((commit σ uri actions outcome).2 = σ ∧ (∃ e, (commit σ uri actions outcome).1 = .error e)) ∨
      ∃ latest, (σ uri).getLast? = some latest ∧ outcome.takesEffect = true ∧
        (commit σ uri actions outcome).2 = σ.push uri (latest.apply actions) ∧
        ∀ v, (commit σ uri actions outcome).1 = .ok v → v = (σ uri).length ∧ outcome = .done := by
  unfold commit
  cases h : (σ uri).getLast? with
  | none => exact .inl ⟨rfl, _, rfl⟩
  | some latest =>
    cases outcome with
    | done => exact .inr ⟨latest, rfl, rfl, rfl, fun v hv => ⟨by simpa using hv.symm, rfl⟩⟩
    | failed message => exact .inl ⟨rfl, message, rfl⟩
    | lost message => exact .inr ⟨latest, rfl, rfl, rfl, fun v hv => by simp at hv⟩

end PgDelta.Sink
