import PgDelta.Lib.Transition
import PgDelta.Pipeline.Reader

/-!
One load as a transition system: the reader, the decode workers with their job
queues, the event queue between them, and the tables in storage.

A step is one action of the reader or of one worker, and any of them may come
next. A send to a full queue and a receive from an empty one are not enabled,
which is how the channels block.
-/

namespace PgDelta.Pipeline

open PgDelta.Lib PgDelta.Builders PgDelta.Scan PgDelta.Sink

/-- Where the reader stands in `drive`. -/
inductive Point (P : Platform) (n : ℕ)
  /-- About to ask for the next chunk. -/
  | reading
  /-- The events of a chunk, one after another. -/
  | handling (events : List Event)
  /-- The jobs of an event: the next one, and those behind it. -/
  | dispatching (i : Fin n) (job : Job) (rest : List (Fin n × Job)) (after : After)
      (events : List Event)
  /-- A send failed, and the cause is waiting on the event queue. -/
  | failedSend
  /-- Collecting the acknowledgements of a closed block. -/
  | collecting (block : OpenBlock) (acks : Acks P) (events : List Event)
  | committing (dumpedBy : ℕ) (burst : Burst P)
  /-- About to append to the load history. -/
  | recording (report : LoadReport)
  | done (result : Except Error LoadReport)

/-- What has happened so far. No step reads it. -/
structure Trace where
  /-- The payloads sent to workers, each with the generation of its block. -/
  dispatched : List (ℕ × Bytes) := []
  /-- The batches handed to table writers, each with the generation of its
  block. -/
  written : List (ℕ × RecordBatch) := []
  /-- The calls of `commit_table` in phase two that are over. -/
  attempts : List Attempt := []

structure System (P : Platform) (n : ℕ) where
  store : Store P
  reader : Reader P
  point : Point P n
  workers : Fin n → Worker P := fun _ => {}
  events : List (WorkerEvent P) := []
  trace : Trace := {}

/-- The faults of what `execute` does before `drive` runs. -/
structure StartFaults where
  runtime : Option String := none
  store : Option String := none
  input : Option Error := none

/-- One step: of the reader, or of one worker. -/
inductive Label (n : ℕ)
  | reader (o : Outside)
  | worker (i : Fin n) (faults : JobFaults)

namespace System

variable {P : Platform} {n : ℕ}

/-- The checks and the calls that come before `drive`. -/
def startError (L : Load) (faults : StartFaults) : Option Error :=
  match rejectManagedStorage L.cfg.outputUri with
  | .error e => some e
  | .ok () =>
    match faults.runtime, faults.store with
    | some message, _ => some (.io message)
    | none, some message => some (delta message)
    | none, none => faults.input

/-- A load about to begin. -/
def start (L : Load) (σ : Store P) (faults : StartFaults) : System P n where
  store := σ
  reader :=
    { chunks := L.input.chunks
      scanner := Scanner.new.setExcludedSchemas (L.cfg.excludedSchemas.getD []) }
  point :=
    match startError L faults with
    | some e => .done (.error e)
    | none => .reading

/-- The capacity of the event queue. -/
def eventCapacity (n : ℕ) : ℕ := n * 2 + 4

def allExited (s : System P n) : Bool :=
  (List.finRange n).all fun i => (s.workers i).status.isExited

def isDone (s : System P n) : Bool :=
  match s.point with
  | .done _ => true
  | _ => false

def fail (s : System P n) (e : Error) : System P n := { s with point := .done (.error e) }

def setWorker (s : System P n) (i : Fin n) (w : Worker P) : System P n :=
  { s with workers := Function.update s.workers i w }

/-! ### Steps of the reader -/

/-- The end of the stream: the structural checks, and then phase two. -/
def endOfStream (L : Load) (s : System P n) : System P n :=
  match L.input.ending with
  | some e => s.fail e
  | none =>
    match s.reader.scanner.finish, s.reader.dumpedBy with
    | .error e, _ => s.fail e
    | .ok (), none => s.fail .missingDumpVersion
    | .ok (), some dumpedBy =>
      { s with point := .committing dumpedBy (Burst.start L.cfg s.reader) }

def readChunk (L : Load) (s : System P n) : System P n :=
  match s.reader.chunks with
  | [] => s.endOfStream L
  | chunk :: chunks =>
    match s.reader.scanner.feed chunk.bytes with
    | .error e => s.fail e
    | .ok (scanner, events) =>
      { s with
        reader := { s.reader with
          chunks := chunks, scanner := scanner, bytesRead := chunk.bytesRead }
        point := .handling events }

/-- Go on behind an event whose jobs are all sent. -/
def resume (s : System P n) (after : After) (events : List Event) : System P n :=
  { s with
    reader := s.reader.afterSends after
    point :=
      match after with
      | .collect block => .collecting block (.start block) events
      | _ => .handling events }

def dispatching (s : System P n) (sends : List (Fin n × Job)) (after : After)
    (events : List Event) : System P n :=
  match sends with
  | [] => s.resume after events
  | (i, job) :: rest => { s with point := .dispatching i job rest after events }

def handleEvent [NeZero n] (L : Load) (s : System P n) (event : Event) (events : List Event)
    (o : Outside) : System P n :=
  match s.reader.onEvent (n := n) L.cfg s.store event o with
  | (.error e, σ) => { s with store := σ }.fail e
  | (.ok reaction, σ) =>
    { s with store := σ, reader := reaction.reader }.dispatching reaction.sends reaction.after
      events

/-- The end of the events of a chunk. -/
def endOfChunk (s : System P n) (o : Outside) : System P n :=
  if o.progress (s.reader.progress none) then { s with point := .reading }
  else s.fail .interrupted

def recordDispatch (t : Trace) : Job → Trace
  | .rows generation bytes => { t with dispatched := t.dispatched ++ [(generation, bytes)] }
  | _ => t

/-- Send one job. The send fails once the worker has exited, and blocks while
the worker's queue is full. -/
def sendJob (s : System P n) (i : Fin n) (job : Job) (rest : List (Fin n × Job)) (after : After)
    (events : List Event) : Option (System P n) :=
  let w := s.workers i
  if w.status.isExited then some { s with point := .failedSend }
  else if w.jobs.length < queueDepth then
    some ({ s.setWorker i { w with jobs := w.jobs ++ [job] } with
      trace := recordDispatch s.trace job }.dispatching rest after events)
  else none

/-- Receive the cause of a failed send. -/
def receiveCause (s : System P n) : Option (System P n) :=
  match s.events with
  | .failed e :: events => some ({ s with events := events }.fail e)
  | .closed _ :: events => some ({ s with events := events }.fail poolStopped)
  | [] => if s.allExited then some (s.fail poolStopped) else none

/-- An acknowledgement has been added. The last one closes the block. -/
def acknowledged (s : System P n) (block : OpenBlock) (acks : Acks P) (events : List Event)
    (o : Outside) : System P n :=
  if acks.acked < n then { s with point := .collecting block acks events }
  else
    let r := s.reader.closeBlock block acks
    let s := { s with reader := r }
    if o.progress (r.progress (some block.qualified)) then { s with point := .handling events }
    else s.fail .interrupted

def receiveAck (s : System P n) (block : OpenBlock) (acks : Acks P) (events : List Event)
    (o : Outside) : Option (System P n) :=
  match s.events with
  | .failed e :: queue => some ({ s with events := queue }.fail e)
  | .closed c :: queue => some ({ s with events := queue }.acknowledged block (acks.add c) events o)
  | [] => if s.allExited then some (s.fail poolStopped) else none

/-- The outcomes are in: report them, or the first failure among them. -/
def endOfBurst (L : Load) (s : System P n) (dumpedBy : ℕ) (b : Burst P) : System P n :=
  let t := tally s.reader.tables b.outcomes
  match t.failure with
  | some (table, e) => s.fail (.commitFailed table t.committed b.total e.display)
  | none =>
    let report := s.reader.report L dumpedBy t.tables
    if L.cfg.writeManifest then { s with point := .recording report }
    else { s with point := .done (.ok report) }

def stepBurst (L : Load) (s : System P n) (dumpedBy : ℕ) (b : Burst P) (o : Outside) :
    Option (System P n) :=
  if b.isOver then some (s.endOfBurst L dumpedBy b)
  else
    (b.step L.cfg s.store o.pick o.commit).map fun (b, σ, attempts) =>
      { s with
        store := σ
        point := .committing dumpedBy b
        trace := { s.trace with attempts := s.trace.attempts ++ attempts } }

/-- Append to the load history. -/
def record (L : Load) (s : System P n) (report : LoadReport) (o : Outside) : System P n :=
  match Manifest.append P L.cfg.outputUri L.run report s.store o.history with
  | (.error e, σ) => { s with store := σ }.fail e
  | (.ok loadId, σ) =>
    { s with store := σ, point := .done (.ok { report with loadId := some loadId }) }

def readerStep [NeZero n] (L : Load) (s : System P n) (o : Outside) : Option (System P n) :=
  match s.point with
  | .reading => some (s.readChunk L)
  | .handling [] => some (s.endOfChunk o)
  | .handling (event :: events) => some (s.handleEvent L event events o)
  | .dispatching i job rest after events => s.sendJob i job rest after events
  | .failedSend => s.receiveCause
  | .collecting block acks events => s.receiveAck block acks events o
  | .committing dumpedBy b => s.stepBurst L dumpedBy b o
  | .recording report => some (s.record L report o)
  | .done _ => none

/-! ### Steps of a worker -/

/-- A worker sends an event, unless the queue is full. -/
def sendEvent (s : System P n) (i : Fin n) (event : WorkerEvent P) (status : Status P) :
    Option (System P n) :=
  if s.events.length < eventCapacity n then
    some { s.setWorker i { s.workers i with status := status } with events := s.events ++ [event] }
  else none

/-- A worker does one job. -/
def doJob (L : Load) (s : System P n) (i : Fin n) (job : Job) (jobs : List Job)
    (faults : JobFaults) : System P n :=
  let w := s.workers i
  match w.state.handle (P := P) ⟨L.run, job.generation, i, 0⟩ job faults with
  | .error e => s.setWorker i { w with jobs := jobs, status := .failing e }
  | .ok handled =>
    { s.setWorker i
        { jobs := jobs, state := handled.state, status := handled.status } with
      trace := { s.trace with
        written := s.trace.written ++ handled.written.map fun b => (job.generation, b) } }

/-- A step of a worker. A worker whose queue is empty goes on waiting while the
reader still holds the sending end. -/
def workerStep (L : Load) (s : System P n) (i : Fin n) (faults : JobFaults) :
    Option (System P n) :=
  let w := s.workers i
  match w.status with
  | .running =>
    match w.jobs with
    | [] => if s.isDone then some (s.setWorker i { w with status := .exited }) else none
    | job :: jobs => some (s.doJob L i job jobs faults)
  | .acking c => s.sendEvent i (.closed c) .running
  | .failing e => s.sendEvent i (.failed e) .reported
  | .reported => some (s.setWorker i { w with status := .exited })
  | .exited => none

def step [NeZero n] (L : Load) (s : System P n) : Label n → Option (System P n)
  | .reader o => s.readerStep L o
  | .worker i faults => s.workerStep L i faults

/-- The states that a load can be in. -/
def Reachable [NeZero n] (L : Load) (σ : Store P) (s : System P n) : Prop :=
  ∃ faults labels, runFrom (step L) (start L σ faults) labels = some s

end System

end PgDelta.Pipeline
