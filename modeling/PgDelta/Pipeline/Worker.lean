import PgDelta.Pipeline.Config

/-!
The decode workers: the jobs they are sent, and what they make of one job.
-/

namespace PgDelta.Pipeline

open PgDelta.Lib PgDelta.Builders PgDelta.Types PgDelta.Sink PgDelta.Copy

/-- Immutable description of one open `COPY` block. -/
structure BlockCtx where
  generation : ℕ
  uri : String
  schema : Schema
  columns : List (String × ResolvedType)
  arity : ℕ
  limits : Limits
  batchRows : ℕ
  batchBytes : ℕ
  wideNumericAsDecimal : Bool
  nativeArrays : Bool
  deriving DecidableEq

/-- A unit of work for a worker. -/
inductive Job
  | openBlock (ctx : BlockCtx)
  | rows (generation : ℕ) (bytes : Bytes)
  | close (generation : ℕ)
  deriving DecidableEq

/-- A worker's contribution to one closed block. -/
structure BlockClosed (P : Platform) where
  generation : ℕ
  rows : ℕ := 0
  batches : ℕ := 0
  substitutions : List ℕ := []
  staged : List (Action P) := []

/-- What a worker sends back to the reader. -/
inductive WorkerEvent (P : Platform)
  | closed (c : BlockClosed P)
  | failed (e : Error)

/-- The decode pool is gone when the reader expected it to be working. -/
def poolStopped : Error := .io "decode pool stopped unexpectedly"

/-- One worker's state for one block. -/
structure WorkerBlock where
  builder : BatchBuilder
  writer : TableWriter
  batches : ℕ := 0
  deriving DecidableEq

/-- The faults that a worker can meet while it does one job. The writes of a
block are counted. -/
structure JobFaults where
  panic : Bool := false
  writer : Option String := none
  write : ℕ → Option String := fun _ => none
  stage : Option String := none

namespace WorkerBlock

def new (ctx : BlockCtx) (path : FilePath) (faults : JobFaults) : Except Error WorkerBlock :=
  match TableWriter.new ctx.uri ctx.schema path faults.writer with
  | .error e => .error e
  | .ok writer =>
    .ok { builder := .new ctx.columns ctx.batchRows ctx.batchBytes ctx.wideNumericAsDecimal
            ctx.nativeArrays
          writer := writer }

/-- Hand the rows of the builder to the writer, if there are any. -/
def flush (b : WorkerBlock) (faults : JobFaults) :
    Except Error (WorkerBlock × List RecordBatch) :=
  match b.builder.finish with
  | .error e => .error e
  | .ok (none, builder) => .ok ({ b with builder := builder }, [])
  | .ok (some batch, builder) =>
    match b.writer.write batch (faults.write b.batches) with
    | .error e => .error e
    | .ok writer => .ok (⟨builder, writer, b.batches + 1⟩, [batch])

/-- Decode one row and append it, and flush when a bound is reached. -/
def row (ctx : BlockCtx) (faults : JobFaults) (b : WorkerBlock) (line : Bytes) :
    Except Error (WorkerBlock × List RecordBatch) :=
  match decodeRow line ctx.arity ctx.limits with
  | .error e => .error e
  | .ok (scratch, ranges) =>
    match b.builder.appendRowRanges scratch ranges with
    | .error e => .error e
    | .ok builder =>
      if builder.isFull then { b with builder := builder }.flush faults
      else .ok ({ b with builder := builder }, [])

/-- Decode rows one after another. The batches that are handed to the writer
are returned beside the block. -/
def rows (ctx : BlockCtx) (faults : JobFaults) :
    WorkerBlock → List Bytes → Except Error (WorkerBlock × List RecordBatch)
  | b, [] => .ok (b, [])
  | b, line :: lines =>
    match b.row ctx faults line with
    | .error e => .error e
    | .ok (b, written) =>
      match rows ctx faults b lines with
      | .error e => .error e
      | .ok (b, more) => .ok (b, written ++ more)

end WorkerBlock

/-- The block contexts and the blocks of a worker, by generation. -/
structure LoopState where
  ctxs : ℕ → Option BlockCtx := fun _ => none
  blocks : ℕ → Option WorkerBlock := fun _ => none

/-- What came of a job: the state of the loop, a block that was closed, and the
batches that were handed to the block's writer. -/
structure Handled (P : Platform) where
  state : LoopState
  closed : Option (BlockClosed P) := none
  written : List RecordBatch := []

namespace LoopState

variable {P : Platform}

def onOpen (s : LoopState) (ctx : BlockCtx) : Handled P where
  state := { s with ctxs := Function.update s.ctxs ctx.generation (some ctx) }

/-- The block of a generation, made when its first rows arrive. -/
def blockFor (s : LoopState) (ctx : BlockCtx) (generation : ℕ) (path : FilePath)
    (faults : JobFaults) : Except Error WorkerBlock :=
  match s.blocks generation with
  | some b => .ok b
  | none => WorkerBlock.new ctx path faults

def onRows (s : LoopState) (generation : ℕ) (bytes : Bytes) (path : FilePath)
    (faults : JobFaults) : Except Error (Handled P) :=
  match s.ctxs generation with
  -- rows of a block that was never opened
  | none => .error poolStopped
  | some ctx =>
    match s.blockFor ctx generation path faults with
    | .error e => .error e
    | .ok b =>
      match b.rows ctx faults (Copy.rows bytes) with
      | .error e => .error e
      | .ok (b, written) =>
        .ok { state := { s with blocks := Function.update s.blocks generation (some b) }
              written := written }

/-- Flush what is left of a block and stage its files. -/
def closeBlock (b : WorkerBlock) (generation : ℕ) (faults : JobFaults) :
    Except Error (BlockClosed P × List RecordBatch) :=
  match b.flush faults with
  | .error e => .error e
  | .ok (b, written) =>
    match b.writer.stage P faults.stage with
    | .error e => .error e
    | .ok staged =>
      .ok (⟨generation, b.writer.rows, b.batches, b.builder.substitutions, staged⟩, written)

def onClose (s : LoopState) (generation : ℕ) (faults : JobFaults) : Except Error (Handled P) :=
  let s' : LoopState :=
    { ctxs := Function.update s.ctxs generation none
      blocks := Function.update s.blocks generation none }
  match s.blocks generation with
  -- no rows of the block came to this worker
  | none => .ok { state := s', closed := some { generation := generation } }
  | some b =>
    match closeBlock b generation faults with
    | .error e => .error e
    | .ok (c, written) => .ok { state := s', closed := some c, written := written }

/-- One round of the loop. `path` names the first file of a block that the
worker begins. -/
def handle (s : LoopState) (path : FilePath) (job : Job) (faults : JobFaults) :
    Except Error (Handled P) :=
  if faults.panic then .error ColumnBuilder.panicked
  else
    match job with
    | .openBlock ctx => .ok (s.onOpen ctx)
    | .rows generation bytes => s.onRows generation bytes path faults
    | .close generation => s.onClose generation faults

end LoopState

def Job.generation : Job → ℕ
  | .openBlock ctx => ctx.generation
  | .rows generation _ => generation
  | .close generation => generation

/-- Where a worker stands between two jobs. A worker whose loop has ended in
an error reports it before it drops the receiving end of its queue. -/
inductive Status (P : Platform)
  | running
  | acking (c : BlockClosed P)
  | failing (e : Error)
  | reported
  | exited

def Status.isExited {P : Platform} : Status P → Bool
  | .exited => true
  | _ => false

/-- A worker that has closed a block acknowledges it next. -/
def Handled.status {P : Platform} (h : Handled P) : Status P :=
  match h.closed with
  | some c => .acking c
  | none => .running

structure Worker (P : Platform) where
  jobs : List Job := []
  state : LoopState := {}
  status : Status P := .running

end PgDelta.Pipeline
