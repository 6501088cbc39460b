import PgDelta.Manifest.History
import PgDelta.Pipeline.Worker
import PgDelta.Scan.Scanner

/-!
The reader: what `drive` does with each event of the scanner, with the
acknowledgements of a closed block, and with the outcomes of the commits.

Only the reader's own part of each step is here. What it sends to the workers
and receives from them is the business of the system.
-/

namespace PgDelta.Pipeline

open PgDelta.Lib PgDelta.Builders PgDelta.Types PgDelta.Scan PgDelta.Sink

/-- A chunk of the dump, with the bytes taken from the input when it was read. -/
structure Chunk where
  bytes : Bytes
  bytesRead : ℕ

/-- What the chunk reader delivers: the chunks, and the error that it ends in
unless it comes to the end of the dump. -/
structure Input where
  chunks : List Chunk
  ending : Option Error := none
  compression : String := "none"
  bytesRead : ℕ := 0

/-- One load: its settings, its input, and a number that no other load has. -/
structure Load where
  cfg : LoadConfig
  input : Input
  run : ℕ := 0

/-- A table opened in phase one and awaiting its commit in phase two. -/
structure CommitTarget (P : Platform) where
  qualified : String
  table : DeltaTable P
  schema : Schema
  drift : SchemaDrift
  actions : List (Action P) := []

structure OpenBlock where
  generation : ℕ
  table : TableName
  qualified : String
  columns : List (String × ResolvedType)
  drift : SchemaDrift

/-- The variables of `drive`. The maps are functions of their keys. -/
structure Reader (P : Platform) where
  chunks : List Chunk
  scanner : Scanner
  bytesRead : ℕ := 0
  seenTables : List String := []
  tableDefs : String → Option TableDef := fun _ => none
  dumpedBy : Option ℕ := none
  fromDatabase : Option ℕ := none
  totalRows : ℕ := 0
  tables : List TableStats := []
  openTables : List (CommitTarget P) := []
  staged : String → Option (List (Action P)) := fun _ => none
  generation : ℕ := 0
  current : Option OpenBlock := none
  roundRobin : ℕ := 0
  skipping : Bool := false
  preloads : String → Option (Except Error (PreloadedTable P)) := fun _ => none

/-- What a reader's step takes from outside: the progress callback, the faults
of its calls to storage, and which of the commits in flight goes on. -/
structure Outside where
  progress : Progress → Bool := fun _ => true
  preload : PreloadFaults := {}
  preloadPanics : Bool := false
  openTable : OpenFaults := {}
  pick : ℕ := 0
  commit : CommitFaults := {}
  history : Manifest.HistoryFaults := {}

/-- What follows once all jobs of an event are sent. -/
inductive After
  | resume
  | opened (block : OpenBlock)
  | collect (block : OpenBlock)

/-- The reader's answer to an event: its state, and the jobs to be sent. -/
structure Reaction (P : Platform) (n : ℕ) where
  reader : Reader P
  sends : List (Fin n × Job) := []
  after : After := .resume

namespace Reader

variable {P : Platform} {n : ℕ}

/-! ### Phase one: the events of the scanner -/

def onDumpVersion (cfg : LoadConfig) (r : Reader P) (dumpedBy : ℕ) (fromDatabase : Option ℕ) :
    Except Error (Reaction P n) :=
  if cfg.expectPgMajor.any fun expected => dumpedBy ≠ expected then
    .error (.unsupportedDumpVersion dumpedBy)
  else .ok { reader := { r with dumpedBy := some dumpedBy, fromDatabase := fromDatabase } }

/-- Start the preload of a table as soon as it is declared. The run does
nothing to the table's location before the preload's answer is taken, so that
it answers at once. -/
def onTable (cfg : LoadConfig) (σ : Store P) (r : Reader P) (definition : TableDef)
    (o : Outside) : Reaction P n :=
  let qualified := definition.name.qualified
  let answer :=
    if o.preloadPanics then .error (.internal "table preload task panicked")
    else preloadTable P cfg.outputUri definition.name σ o.preload
  let preloads :=
    if cfg.wanted definition.name then Function.update r.preloads qualified (some answer)
    else r.preloads
  { reader := { r with
      preloads := preloads
      tableDefs := Function.update r.tableDefs qualified (some definition) } }

/-- The preload of a table, made on demand if there is none. -/
def takePreload (cfg : LoadConfig) (σ : Store P) (r : Reader P) (table : TableName)
    (o : Outside) : Except Error (PreloadedTable P) :=
  match r.preloads table.qualified with
  | some answer => answer
  | none => preloadTable P cfg.outputUri table σ o.preload

/-- The context that the workers get for a block. -/
def blockCtx (cfg : LoadConfig) (generation : ℕ) (uri : String)
    (columns : List (String × ResolvedType)) : BlockCtx where
  generation := generation
  uri := uri
  schema := arrowSchema columns cfg.wideNumericAsDecimal cfg.nativeArrays
  columns := columns
  arity := columns.length
  limits := cfg.limits
  batchRows := cfg.batchRows
  batchBytes := cfg.batchBytes
  wideNumericAsDecimal := cfg.wideNumericAsDecimal
  nativeArrays := cfg.nativeArrays

/-- A job for every worker. -/
def toAll (job : Job) : List (Fin n × Job) := (List.finRange n).map fun i => (i, job)

def openBlock (cfg : LoadConfig) (r : Reader P) (table : TableName)
    (columns : List (String × ResolvedType)) (opened : OpenedTable P) : Reaction P n :=
  let ctx := blockCtx cfg (r.generation + 1) opened.uri columns
  { reader := { r with
      -- a preload serves one block; a further one of the table preloads anew
      preloads := Function.update r.preloads table.qualified none
      openTables := r.openTables ++
        [{ qualified := table.qualified, table := opened.table, schema := ctx.schema
           drift := opened.drift }]
      generation := r.generation + 1 }
    sends := toAll (.openBlock ctx)
    after := .opened ⟨r.generation + 1, table, table.qualified, columns, opened.drift⟩ }

def openWanted (cfg : LoadConfig) (σ : Store P) (r : Reader P) (table : TableName)
    (columns : List String) (o : Outside) : Except Error (Reaction P n) × Store P :=
  match r.tableDefs table.qualified with
  | none => (.error (.malformedCreateTable table.qualified), σ)
  | some definition =>
    match resolveCopyColumns definition columns with
    | .error e => (.error e, σ)
    | .ok columns =>
      match r.takePreload cfg σ table o with
      | .error e => (.error e, σ)
      | .ok preloaded =>
        match finishOpen P preloaded table
            (arrowSchema columns cfg.wideNumericAsDecimal cfg.nativeArrays) cfg.mode σ
            o.openTable with
        | (.error e, σ) => (.error e, σ)
        | (.ok opened, σ) => (.ok (r.openBlock cfg table columns opened), σ)

def onCopyStart (cfg : LoadConfig) (σ : Store P) (r : Reader P) (table : TableName)
    (columns : List String) (o : Outside) : Except Error (Reaction P n) × Store P :=
  if r.current.isSome then
    (.error (.internal "COPY block started while another was still open"), σ)
  -- no table of the dump may take the place of the history
  else if cfg.writeManifest && Manifest.reservedCollision table then
    (.error (.unsafeTableName table.qualified), σ)
  else
    let r := { r with seenTables := r.seenTables.insert table.qualified }
    if cfg.wanted table then r.openWanted cfg σ table columns o
    else (.ok { reader := { r with skipping := true } }, σ)

/-- Hand a payload to the next worker. Dropping rows would commit a short
table, so that rows outside any block are an error. -/
def onCopyRows [NeZero n] (r : Reader P) (payload : Bytes) : Except Error (Reaction P n) :=
  if r.skipping then .ok { reader := r }
  else
    match r.current with
    | none => .error (.internal "COPY rows arrived with no open block")
    | some block =>
      .ok { reader := { r with roundRobin := r.roundRobin + 1 }
            sends := [(Fin.ofNat n r.roundRobin, .rows block.generation payload)] }

def onCopyEnd (r : Reader P) (table : TableName) : Except Error (Reaction P n) :=
  if r.skipping then .ok { reader := { r with skipping := false } }
  else
    match r.current with
    | none => .error (.internal "COPY block ended with none open")
    | some block =>
      if block.table ≠ table then
        .error (.internal "COPY block ended under a different name than it began")
      else
        .ok { reader := { r with current := none }
              sends := toAll (.close block.generation)
              after := .collect block }

def onEvent [NeZero n] (cfg : LoadConfig) (σ : Store P) (r : Reader P) (event : Event)
    (o : Outside) : Except Error (Reaction P n) × Store P :=
  match event with
  | .dumpVersion dumpedBy fromDatabase => (r.onDumpVersion cfg dumpedBy fromDatabase, σ)
  | .table definition => (.ok (r.onTable cfg σ definition o), σ)
  | .copyStart table columns => r.onCopyStart cfg σ table columns o
  | .copyRows payload => (r.onCopyRows payload, σ)
  | .copyEnd table => (r.onCopyEnd table, σ)

/-- All jobs of an event are sent. -/
def afterSends (r : Reader P) (after : After) : Reader P :=
  match after with
  | .opened block => { r with current := some block, roundRobin := 0 }
  | _ => r

end Reader

/-! ### The acknowledgements of a closed block -/

/-- Add counts position by position. What has no partner stays. -/
def addCounts : List ℕ → List ℕ → List ℕ
  | a :: as, b :: bs => (a + b) :: addCounts as bs
  | as, _ => as

/-- What the reader has collected of a closed block. -/
structure Acks (P : Platform) where
  rows : ℕ := 0
  batches : ℕ := 0
  substitutions : List ℕ
  staged : List (Action P) := []
  acked : ℕ := 0

def Acks.add {P : Platform} (a : Acks P) (c : BlockClosed P) : Acks P where
  rows := a.rows + c.rows
  batches := a.batches + c.batches
  substitutions := addCounts a.substitutions c.substitutions
  staged := a.staged ++ c.staged
  acked := a.acked + 1

def Acks.start {P : Platform} (block : OpenBlock) : Acks P where
  substitutions := block.columns.map fun _ => 0

def nullSubstitutions (columns : List (String × ResolvedType)) (counts : List ℕ) :
    List (String × ℕ) :=
  ((columns.map Prod.fst).zip counts).filter fun c => 0 < c.2

def textFallbackColumns (columns : List (String × ResolvedType)) : List (String × String) :=
  (columns.filter fun c => !c.2.recognised).map fun c => (c.1, c.2.source)

/-- What the reader reports of a closed block. -/
def blockStats {P : Platform} (block : OpenBlock) (a : Acks P) : TableStats where
  table := block.qualified
  schemaDrift := block.drift
  rows := a.rows
  batches := a.batches
  -- known only once the commit is done
  deltaVersion := 0
  nullSubstitutions := nullSubstitutions block.columns a.substitutions
  textFallbackColumns := textFallbackColumns block.columns

/-- Every worker has acknowledged the block. -/
def Reader.closeBlock {P : Platform} (r : Reader P) (block : OpenBlock) (a : Acks P) :
    Reader P :=
  { r with
    totalRows := r.totalRows + a.rows
    staged := Function.update r.staged block.qualified
      (some ((r.staged block.qualified).getD [] ++ a.staged))
    tables := r.tables ++ [blockStats block a] }

/-! ### Phase two: the commit burst -/

/-- How far one commit has got. -/
inductive CommitStage (P : Platform)
  | begun
  | prepared (actions : List (Action P))
  | committed (version : ℕ)

structure InFlight (P : Platform) where
  target : CommitTarget P
  stage : CommitStage P := .begun

/-- The commits of phase two: those not begun, those in flight, and the
outcomes in the order in which they came. -/
structure Burst (P : Platform) where
  waiting : List (CommitTarget P)
  flight : List (InFlight P) := []
  outcomes : List (String × Except Error ℕ) := []
  total : ℕ

/-- What storage did for one call of `commit_table`: whether its version became
visible, and whether the call came to its end. -/
structure Attempt where
  uri : String
  visible : Bool
  finished : Bool
  deriving DecidableEq, Repr

namespace Burst

variable {P : Platform}

/-- Begin commits until as many are in flight as may be. -/
def fill (concurrency : ℕ) (b : Burst P) : Burst P :=
  let more := concurrency - b.flight.length
  { b with
    waiting := b.waiting.drop more
    flight := b.flight ++ (b.waiting.take more).map fun target => { target := target } }

/-- Move the staged actions to the targets. The first target under a name gets
all of them. -/
def assign : List (CommitTarget P) → (String → Option (List (Action P))) → List (CommitTarget P)
  | [], _ => []
  | t :: targets, staged =>
    { t with actions := (staged t.qualified).getD [] } ::
      assign targets (Function.update staged t.qualified none)

def start (cfg : LoadConfig) (r : Reader P) : Burst P :=
  fill cfg.concurrency
    { waiting := assign r.openTables r.staged, total := r.openTables.length }

/-- The schema that a commit declares: only one that moved. -/
def newSchema (t : CommitTarget P) : Option Schema :=
  if t.drift.isEmpty then none else some t.schema

/-- The commit at a position is over. -/
def settle (concurrency : ℕ) (b : Burst P) (i : ℕ) (name : String) (outcome : Except Error ℕ) :
    Burst P :=
  fill concurrency
    { b with flight := b.flight.eraseIdx i, outcomes := b.outcomes ++ [(name, outcome)] }

/-- The next call to storage of the commit at a position: list and convert,
commit, or reload. -/
def step (cfg : LoadConfig) (σ : Store P) (b : Burst P) (i : ℕ) (faults : CommitFaults) :
    Option (Burst P × Store P × List Attempt) :=
  match b.flight[i]? with
  | none => none
  | some ⟨t, .begun⟩ =>
    match prepareCommit P t.table t.actions cfg.mode (newSchema t) faults with
    | .error e =>
      some (b.settle cfg.concurrency i t.qualified (.error e), σ, [⟨t.table.uri, false, false⟩])
    | .ok actions => some ({ b with flight := b.flight.set i ⟨t, .prepared actions⟩ }, σ, [])
  | some ⟨t, .prepared actions⟩ =>
    match commit σ t.table.uri actions faults.commit with
    | (.error message, σ') =>
      some (b.settle cfg.concurrency i t.qualified (.error (delta message)), σ',
        [⟨t.table.uri, decide (σ t.table.uri ≠ []) && faults.commit.takesEffect, false⟩])
    | (.ok version, σ') =>
      some ({ b with flight := b.flight.set i ⟨t, .committed version⟩ }, σ', [])
  | some ⟨t, .committed version⟩ =>
    match faults.reload with
    | some message =>
      some (b.settle cfg.concurrency i t.qualified (.error (delta message)), σ,
        [⟨t.table.uri, true, false⟩])
    | none =>
      some (b.settle cfg.concurrency i t.qualified (.ok version), σ, [⟨t.table.uri, true, true⟩])

def isOver (b : Burst P) : Bool := b.flight.isEmpty && b.waiting.isEmpty

end Burst

/-- Set the version of the first entry under a name. -/
def setVersion (name : String) (version : ℕ) : List TableStats → List TableStats
  | [] => []
  | t :: tables =>
    if t.table = name then { t with deltaVersion := version } :: tables
    else t :: setVersion name version tables

/-- What the outcomes of the commits come to: how many succeeded, the first
failure, and the versions of the tables. -/
structure Tally where
  committed : ℕ := 0
  failure : Option (String × Error) := none
  tables : List TableStats

def Tally.add (t : Tally) : String × Except Error ℕ → Tally
  | (name, .ok version) =>
    { t with committed := t.committed + 1, tables := setVersion name version t.tables }
  | (name, .error e) => { t with failure := t.failure.orElse fun _ => some (name, e) }

def tally (tables : List TableStats) (outcomes : List (String × Except Error ℕ)) : Tally :=
  outcomes.foldl Tally.add { tables := tables }

/-- What the progress callback is told after a chunk, or after the block of a
table. -/
def Reader.progress {P : Platform} (r : Reader P) (table : Option String) : Progress where
  bytesRead := r.bytesRead
  rows := r.totalRows
  tablesDone := r.tables.length
  table := table

/-- The report of a load whose tables are all committed. -/
def Reader.report {P : Platform} (L : Load) (r : Reader P) (dumpedBy : ℕ)
    (tables : List TableStats) : LoadReport where
  dumpedBy := dumpedBy
  fromDatabase := r.fromDatabase
  compression := L.input.compression
  bytesRead := L.input.bytesRead
  totalRows := r.totalRows
  tables := tables
  missingTables := missingTables L.cfg r.seenTables
  unexpectedTables := unexpectedTables L.cfg r.seenTables
  loadId := none

end PgDelta.Pipeline
