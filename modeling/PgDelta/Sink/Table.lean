import PgDelta.Scan.Lexer
import PgDelta.Sink.Store

/-!
Opening, staging and committing one Delta table.

Every call to storage ends as its environment decides: the functions take the
faults of the calls they make.
-/

namespace PgDelta.Sink

open PgDelta.Lib PgDelta.Builders PgDelta.Scan

/-- How an existing table is treated when a load begins. -/
inductive WriteMode
  | overwrite
  | append
  | errorIfExists
  deriving DecidableEq, Repr

/-- The message of a storage fault as an error of the loader. -/
def delta (message : String) : Error := .delta message

/-! ### Locations -/

/-- Path fragments that mark storage a catalog manages for itself. -/
def managedMarkers : List String := ["__unitystorage", "/user/hive/warehouse"]

def contains (haystack needle : Text) : Bool := haystack.tails.any fun s => needle.isPrefixOf s

/-- Refuse an output prefix that points at catalog-managed storage. -/
def rejectManagedStorage (uri : String) : Except Error Unit :=
  match managedMarkers.find? fun m => contains (uri.toList.map toAsciiLower) m.toList with
  | some marker => .error (.managedTableTarget uri marker)
  | none => .ok ()

def isControl (c : Char) : Bool := c.toNat < 32 || (127 ≤ c.toNat && c.toNat < 160)

def safeComponent (P : Platform) (component : Text) : Bool :=
  !component.isEmpty && decide (textLen component ≤ 255) && component.head? != some ' '
    && component.getLast? != some ' '
    && component.all (fun c => P.isAlphanumeric c || c == '_' || c == '-' || c == ' ')
    && !component.any isControl

def nameParts (name : TableName) : List Text :=
  name.schema.toList.map String.toList ++ [name.table.toList]

/-- Map a table name to a path relative to the output prefix. -/
def relativePath (P : Platform) (name : TableName) : Except Error String :=
  let parts := nameParts name
  if parts.all (safeComponent P) ∧ (parts.map textLen).sum ≤ 512 then
    .ok (String.ofList (['/'].intercalate parts))
  else .error (.unsafeTableName name.qualified)

def tableUri (P : Platform) (pre : String) (table : TableName) : Except Error String :=
  match relativePath P table with
  | .error e => .error e
  | .ok rel => .ok (String.ofList (pre.toList.rdropWhile (· = '/')) ++ "/" ++ rel)

/-! ### Schema drift -/

/-- How the dump's schema for a table differs from the one that Delta declares. -/
structure SchemaDrift where
  added : List String := []
  removed : List String := []
  /-- The columns whose type changed, with the types it had and has. -/
  retyped : List (String × String × String) := []
  deriving DecidableEq, Repr

def SchemaDrift.isEmpty (d : SchemaDrift) : Bool :=
  d.added.isEmpty && d.removed.isEmpty && d.retyped.isEmpty

def SchemaDrift.summary (d : SchemaDrift) : String :=
  let parts :=
    (if d.added.isEmpty then [] else ["added " ++ ", ".intercalate d.added]) ++
    (if d.removed.isEmpty then [] else ["removed " ++ ", ".intercalate d.removed]) ++
    d.retyped.map fun (column, was, now) => column ++ " changed from " ++ was ++ " to " ++ now
  if parts.isEmpty then "no change" else "; ".intercalate parts

/-- Compare the dump's schema against the one that the table declares. -/
def diffSchema {P : Platform} (current incoming : StructType P) : SchemaDrift where
  added := (incoming.fields.filter fun f => (current.fields.lookup f.1).isNone).map Prod.fst
  removed := (current.fields.filter fun f => (incoming.fields.lookup f.1).isNone).map Prod.fst
  retyped := incoming.fields.filterMap fun f =>
    match current.fields.lookup f.1 with
    | some was => if was ≠ f.2 then some (f.1, P.render was, P.render f.2) else none
    | none => none

/-! ### Opening a table -/

structure PreloadedTable (P : Platform) where
  table : DeltaTable P
  uri : String
  /-- `none` for a table that is yet to be created. -/
  existingSchema : Option (StructType P)

structure OpenedTable (P : Platform) where
  table : DeltaTable P
  uri : String
  drift : SchemaDrift

/-- The faults of a preload. A failed load is taken for a missing table. -/
structure PreloadFaults where
  build : Option String := none
  load : Bool := false
  snapshot : Option String := none

/-- Check whether a table exists, and load its schema if it does. -/
def preloadTable (P : Platform) (pre : String) (name : TableName) (σ : Store P)
    (faults : PreloadFaults) : Except Error (PreloadedTable P) :=
  match tableUri P pre name with
  | .error e => .error e
  | .ok uri =>
    match faults.build with
    | some message => .error (delta message)
    | none =>
      match if faults.load then none else (σ uri).getLast? with
      | none => .ok { table := ⟨uri, none⟩, uri := uri, existingSchema := none }
      | some v =>
        match faults.snapshot with
        | some message => .error (delta message)
        | none => .ok { table := ⟨uri, some v⟩, uri := uri, existingSchema := some v.schema }

/-- The faults of opening a preloaded table. -/
structure OpenFaults where
  create : Outcome := .done
  list : Option String := none

/-- `Remove` actions for every file that the table shows. -/
def currentFiles {P : Platform} (table : DeltaTable P) : List (Action P) :=
  match table.snapshot with
  | none => []
  | some v => v.files.map fun f => .remove f.path

/-- Create a table on a first run, or compare its schema with the dump's. -/
def finishOpen (P : Platform) (preloaded : PreloadedTable P) (name : TableName) (schema : Schema)
    (mode : WriteMode) (σ : Store P) (faults : OpenFaults) :
    Except Error (OpenedTable P) × Store P :=
  match preloaded.existingSchema with
  | none =>
    match tryIntoKernel P schema with
    | .error message => (.error (delta message), σ)
    | .ok kernel =>
      match create σ preloaded.uri kernel faults.create with
      | (.error message, σ) => (.error (delta message), σ)
      | (.ok table, σ) => (.ok { table := table, uri := preloaded.uri, drift := {} }, σ)
  | some current =>
    match if mode = .errorIfExists then faults.list else none with
    | some message => (.error (delta message), σ)
    | none =>
      -- A table without files counts as absent, whatever columns it declares.
      if mode = .errorIfExists ∧ currentFiles preloaded.table ≠ [] then
        (.error (.tableExists name.qualified), σ)
      else
        match tryIntoKernel P schema with
        | .error message => (.error (delta message), σ)
        | .ok incoming =>
          let drift := diffSchema current incoming
          if !drift.isEmpty && mode == .append then
            (.error (.schemaChanged name.qualified drift.summary), σ)
          else (.ok { table := preloaded.table, uri := preloaded.uri, drift := drift }, σ)

/-! ### Committing -/

/-- The faults of a commit, call by call. -/
structure CommitFaults where
  list : Option String := none
  convert : Option String := none
  commit : Outcome := .done
  reload : Option String := none

/-- The `Metadata` action of a commit, where the declared schema moves. -/
def metadataAction (P : Platform) (table : DeltaTable P) (newSchema : Option Schema)
    (faults : CommitFaults) : Except Error (List (Action P)) :=
  match newSchema with
  | none => .ok []
  | some schema =>
    match tryIntoKernel P schema with
    | .error message => .error (delta message)
    | .ok kernel =>
      match table.snapshot with
      | none => .error (delta "Table has not yet been initialized")
      | some v =>
        if kernel ≠ v.schema then
          match faults.convert with
          | some message => .error (delta message)
          | none => .ok [.metadata kernel]
        else .ok []

/-- The actions of a commit, put together before anything becomes visible. -/
def prepareCommit (P : Platform) (table : DeltaTable P) (staged : List (Action P))
    (mode : WriteMode) (newSchema : Option Schema) (faults : CommitFaults) :
    Except Error (List (Action P)) :=
  -- Only an overwrite removes files and moves the declared schema.
  if mode = .overwrite then
    match faults.list with
    | some message => .error (delta message)
    | none =>
      match metadataAction P table newSchema faults with
      | .error e => .error e
      | .ok metadata => .ok (staged ++ currentFiles table ++ metadata)
  else .ok staged

/-- The commit itself and the reload after it. -/
def finishCommit {P : Platform} (σ : Store P) (table : DeltaTable P) (actions : List (Action P))
    (faults : CommitFaults) : Except Error ℕ × Store P :=
  match commit σ table.uri actions faults.commit with
  | (.error message, σ) => (.error (delta message), σ)
  | (.ok version, σ) =>
    -- The version is visible by now, and a failing reload loses it for the caller only.
    match faults.reload with
    | some message => (.error (delta message), σ)
    | none => (.ok version, σ)

def commitTable (P : Platform) (σ : Store P) (table : DeltaTable P) (staged : List (Action P))
    (mode : WriteMode) (newSchema : Option Schema) (faults : CommitFaults) :
    Except Error ℕ × Store P :=
  match prepareCommit P table staged mode newSchema faults with
  | .error e => (.error e, σ)
  | .ok actions => finishCommit σ table actions faults

/-! ### Writing -/

/-- A writer of Parquet files for one table, with the batches it has not
flushed. `path` is the name of its first file. -/
structure TableWriter where
  uri : String
  schema : Schema
  path : FilePath
  batches : List RecordBatch := []
  rows : ℕ := 0
  deriving DecidableEq

def TableWriter.new (uri : String) (schema : Schema) (path : FilePath) (fault : Option String) :
    Except Error TableWriter :=
  match fault with
  | some message => .error (delta message)
  | none => .ok { uri := uri, schema := schema, path := path }

def TableWriter.write (w : TableWriter) (batch : RecordBatch) (fault : Option String) :
    Except Error TableWriter :=
  match fault with
  | some message => .error (delta message)
  | none => .ok { w with batches := w.batches ++ [batch], rows := w.rows + batch.numRows }

/-- Flush the batches into files, which nobody sees until they are committed. -/
def TableWriter.stage (P : Platform) (w : TableWriter) (fault : Option String) :
    Except Error (List (Action P)) :=
  match fault with
  | some message => .error (delta message)
  | none =>
    .ok ((P.flush w.batches).mapIdx fun i batches =>
      .add { path := { w.path with part := i }, schema := w.schema, batches := batches })

end PgDelta.Sink
