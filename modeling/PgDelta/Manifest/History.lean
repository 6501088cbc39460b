import PgDelta.Pipeline.Config

/-!
The load history: one row per table and load, in a Delta table of its own
beneath the output prefix.
-/

namespace PgDelta.Manifest

open PgDelta.Lib PgDelta.Builders PgDelta.Scan PgDelta.Sink PgDelta.Pipeline

def manifestName : String := "_pgdelta_loads"

def manifestTable : TableName := ⟨none, manifestName⟩

/-- A source table that would be written to the history's own location. -/
def reservedCollision (table : TableName) : Bool :=
  table.schema.isNone && table.table == manifestName

def schema : Schema :=
  [⟨"load_id", .utf8, false⟩, ⟨"loaded_at", .timestamp (some utc), false⟩,
    ⟨"table", .utf8, false⟩, ⟨"status", .utf8, false⟩, ⟨"expected", .boolean, false⟩,
    ⟨"delta_version", .int64, true⟩, ⟨"rows", .int64, true⟩, ⟨"batches", .int64, true⟩,
    ⟨"dumped_by", .int32, false⟩, ⟨"from_database", .int32, true⟩, ⟨"compression", .utf8, false⟩,
    ⟨"bytes_read", .int64, false⟩, ⟨"total_rows", .int64, false⟩, ⟨"schema_added", .utf8, false⟩,
    ⟨"schema_removed", .utf8, false⟩, ⟨"schema_retyped", .utf8, false⟩,
    ⟨"null_substitutions", .utf8, false⟩, ⟨"text_fallback_columns", .utf8, false⟩]

/-- A count as a signed integer of `bits` bits, if it fits. -/
def signed (bits : ℕ) (n : ℕ) : Option ℤ := if n < 2 ^ (bits - 1) then some n else none

/-- What the history says about one table. -/
structure Entry where
  table : String
  status : String
  expected : Bool
  deltaVersion : Option ℤ
  rows : Option ℤ
  batches : Option ℤ
  added : String
  removed : String
  retyped : String
  substitutions : String
  fallbacks : String
  deriving DecidableEq, Repr

def loadedEntry (report : LoadReport) (stats : TableStats) : Entry where
  table := stats.table
  status := "loaded"
  expected := !report.unexpectedTables.contains stats.table
  deltaVersion := signed 64 stats.deltaVersion
  rows := signed 64 stats.rows
  batches := signed 64 stats.batches
  added := ", ".intercalate stats.schemaDrift.added
  removed := ", ".intercalate stats.schemaDrift.removed
  retyped := ", ".intercalate
    (stats.schemaDrift.retyped.map fun (column, was, now) => column ++ ": " ++ was ++ " -> " ++ now)
  substitutions := ", ".intercalate
    (stats.nullSubstitutions.map fun (column, n) => column ++ "=" ++ toString n)
  fallbacks := ", ".intercalate
    (stats.textFallbackColumns.map fun (column, declared) => column ++ ": " ++ declared)

/-- A table that was expected and did not arrive. -/
def missingEntry (name : String) : Entry where
  table := name
  status := "missing"
  expected := true
  deltaVersion := none
  rows := none
  batches := none
  added := ""
  removed := ""
  retyped := ""
  substitutions := ""
  fallbacks := ""

def entries (report : LoadReport) : List Entry :=
  report.tables.map (loadedEntry report) ++ report.missingTables.map missingEntry

def strings (values : List String) : ArrayRef :=
  .flat ⟨.utf8, values.map fun s => some (.text s.toList)⟩

def ints (dataType : DataType) (values : List (Option ℤ)) : ArrayRef :=
  .flat ⟨dataType, values.map (·.map .int)⟩

/-- The batch of rows that describes one load. -/
def rowsFor (report : LoadReport) (loadId : String) (at_ : ℤ) : Except Error RecordBatch :=
  let rows := entries report
  let all {α : Type} (x : α) : List α := rows.map fun _ => x
  RecordBatch.tryNew schema
    [strings (all loadId), ints (.timestamp (some utc)) (all (some at_)),
      strings (rows.map Entry.table), strings (rows.map Entry.status),
      .flat ⟨.boolean, rows.map fun r => some (.boolean r.expected)⟩,
      ints .int64 (rows.map Entry.deltaVersion), ints .int64 (rows.map Entry.rows),
      ints .int64 (rows.map Entry.batches),
      ints .int32 (all (some ((signed 32 report.dumpedBy).getD 0))),
      ints .int32 (all (report.fromDatabase.bind (signed 32))), strings (all report.compression),
      ints .int64 (all (some ((signed 64 report.bytesRead).getD (2 ^ 63 - 1)))),
      ints .int64 (all (some ((signed 64 report.totalRows).getD (2 ^ 63 - 1)))),
      strings (rows.map Entry.added), strings (rows.map Entry.removed),
      strings (rows.map Entry.retyped), strings (rows.map Entry.substitutions),
      strings (rows.map Entry.fallbacks)]

/-- A number with zeros before it, up to a width of 20. -/
def padded (at_ : ℤ) : String :=
  let digits := (toString at_).toList
  String.ofList (List.replicate (20 - digits.length) '0' ++ digits)

/-- The clock, and the faults of the calls that an append makes. -/
structure HistoryFaults where
  now : ℤ := 0
  resolve : Option String := none
  preload : PreloadFaults := {}
  openTable : OpenFaults := {}
  writer : Option String := none
  write : Option String := none
  stage : Option String := none
  commit : CommitFaults := {}

/-- Open the history as a sink in `Append` mode: preload, finish, and a
writer. -/
def openSink (P : Platform) (pre : String) (run : ℕ) (σ : Store P) (faults : HistoryFaults) :
    Except Error (OpenedTable P × TableWriter) × Store P :=
  match faults.resolve with
  | some message => (.error (delta message), σ)
  | none =>
    match preloadTable P pre manifestTable σ faults.preload with
    | .error e => (.error e, σ)
    | .ok preloaded =>
      match finishOpen P preloaded manifestTable schema .append σ faults.openTable with
      | (.error e, σ) => (.error e, σ)
      | (.ok opened, σ) =>
        match TableWriter.new opened.uri schema ⟨run, 0, 0, 0⟩ faults.writer with
        | .error e => (.error e, σ)
        | .ok writer => (.ok (opened, writer), σ)

/-- Write one batch and flush it. -/
def stageBatch (P : Platform) (writer : TableWriter) (batch : RecordBatch)
    (faults : HistoryFaults) : Except Error (List (Action P)) :=
  match writer.write batch faults.write with
  | .error e => .error e
  | .ok writer => writer.stage P faults.stage

/-- Append one load's record to the history, and return its identifier. -/
def append (P : Platform) (pre : String) (run : ℕ) (report : LoadReport) (σ : Store P)
    (faults : HistoryFaults) : Except Error String × Store P :=
  let loadId := padded faults.now
  match rowsFor report loadId faults.now with
  | .error e => (.error e, σ)
  | .ok batch =>
    match openSink P pre run σ faults with
    | (.error e, σ) => (.error e, σ)
    | (.ok (opened, writer), σ) =>
      match stageBatch P writer batch faults with
      | .error e => (.error e, σ)
      | .ok staged =>
        let newSchema := if opened.drift.isEmpty then none else some schema
        match commitTable P σ opened.table staged .append newSchema faults.commit with
        | (.error e, σ) => (.error e, σ)
        | (.ok _, σ) => (.ok loadId, σ)

end PgDelta.Manifest
