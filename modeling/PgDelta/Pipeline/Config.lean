import PgDelta.Sink.Table

/-!
The settings of one load and what it reports.
-/

namespace PgDelta.Pipeline

open PgDelta.Builders PgDelta.Types PgDelta.Scan PgDelta.Sink

/-- Jobs that may wait for one worker. -/
def queueDepth : ℕ := 3

/-- Commits attempted at once when the caller does not choose. -/
def defaultCommitConcurrency : ℕ := 16

/-- Settings for one load. The number of threads is a parameter of the
pipeline. -/
structure LoadConfig where
  outputUri : String
  /-- The tables to load, all of them if there is no list. -/
  tables : Option (List String) := none
  excludedSchemas : Option (List String) := none
  wideNumericAsDecimal : Bool := false
  nativeArrays : Bool := false
  mode : WriteMode := .overwrite
  batchRows : ℕ := 100000
  batchBytes : ℕ := 128 * 2 ^ 20
  commitConcurrency : ℕ := 0
  expectPgMajor : Option ℕ := none
  expectTables : Option (List String) := none
  limits : Copy.Limits := {}
  writeManifest : Bool := true

namespace LoadConfig

def concurrency (cfg : LoadConfig) : ℕ :=
  if cfg.commitConcurrency = 0 then defaultCommitConcurrency else cfg.commitConcurrency

theorem concurrency_pos (cfg : LoadConfig) : 0 < cfg.concurrency := by
  unfold concurrency defaultCommitConcurrency
  split <;> omega

def allowed (cfg : LoadConfig) (name : String) : Bool :=
  cfg.tables.all fun names => names.contains name

def schemaExcluded (cfg : LoadConfig) (table : TableName) : Bool :=
  cfg.excludedSchemas.any fun schemas => table.schema.any fun s => schemas.contains s

/-- Whether a table is loaded. Exclusion wins over the list of tables. -/
def wanted (cfg : LoadConfig) (table : TableName) : Bool :=
  cfg.allowed table.qualified && !cfg.schemaExcluded table

end LoadConfig

/-- What the progress callback is given. -/
structure Progress where
  bytesRead : ℕ
  rows : ℕ
  tablesDone : ℕ
  table : Option String
  deriving DecidableEq, Repr

/-- What the `COPY` block of one table produced. -/
structure TableStats where
  table : String
  schemaDrift : SchemaDrift
  rows : ℕ
  batches : ℕ
  /-- The version that the commit produced, 0 until then. -/
  deltaVersion : ℕ
  nullSubstitutions : List (String × ℕ)
  textFallbackColumns : List (String × String)
  deriving DecidableEq, Repr

structure LoadReport where
  dumpedBy : ℕ
  fromDatabase : Option ℕ
  compression : String
  bytesRead : ℕ
  totalRows : ℕ
  tables : List TableStats
  missingTables : List String
  unexpectedTables : List String
  loadId : Option String
  deriving DecidableEq, Repr

def resolveCopyColumn (definition : TableDef) (name : String) : Except Error ResolvedType :=
  match definition.columns.find? fun c => c.name = name with
  | some c => .ok (resolve c.sqlType)
  | none => .error (.malformedCreateTable definition.name.qualified)

/-- Resolve each `COPY` column against the table's definition, in the order of
transfer. -/
def resolveCopyColumns (definition : TableDef) : List String →
    Except Error (List (String × ResolvedType))
  | [] => .ok []
  | name :: names =>
    match resolveCopyColumn definition name with
    | .error e => .error e
    | .ok rt =>
      match resolveCopyColumns definition names with
      | .error e => .error e
      | .ok columns => .ok ((name, rt) :: columns)

/-- Expected names that the dump did not contain. -/
def missingTables (cfg : LoadConfig) (seen : List String) : List String :=
  match cfg.expectTables.orElse fun _ => cfg.tables with
  | none => []
  | some names => ((names.filter fun name => !seen.contains name).mergeSort (· ≤ ·)).dedup

/-- Names that the dump contained and the caller did not expect. -/
def unexpectedTables (cfg : LoadConfig) (seen : List String) : List String :=
  match cfg.expectTables with
  | none => []
  | some names => (seen.filter fun name => !names.contains name).mergeSort (· ≤ ·)

end PgDelta.Pipeline
