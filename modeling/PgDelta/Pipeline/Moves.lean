import PgDelta.Pipeline.System

/-!
What one step of a load can do.

`System.Move` lists the outcomes of `System.step`, each with the condition
under which it happens. Every invariant of a load is proved by going through
this list.
-/

namespace PgDelta.Pipeline.System

open PgDelta.Lib PgDelta.Builders PgDelta.Scan PgDelta.Sink

variable {P : Platform} {n : ℕ} [NeZero n]

/-- Everything that one step can do. -/
inductive Move (L : Load) (s : System P n) : Label n → System P n → Prop
  /-- A chunk is read and scanned. -/
  | read (o : Outside) (hp : s.point = .reading) (chunk : Chunk) (chunks : List Chunk)
      (hc : s.reader.chunks = chunk :: chunks) (scanner : Scanner) (events : List Event)
      (hf : s.reader.scanner.feed chunk.bytes = .ok (scanner, events)) :
      Move L s (.reader o)
        { s with
          reader := { s.reader with
            chunks := chunks, scanner := scanner, bytesRead := chunk.bytesRead }
          point := .handling events }
  /-- The stream has ended well, and phase two begins. -/
  | finish (o : Outside) (hp : s.point = .reading) (hc : s.reader.chunks = [])
      (he : L.input.ending = none) (hf : s.reader.scanner.finish = .ok ()) (dumpedBy : ℕ)
      (hd : s.reader.dumpedBy = some dumpedBy) :
      Move L s (.reader o)
        { s with point := .committing dumpedBy (Burst.start L.cfg s.reader) }
  /-- The events of a chunk are handled. -/
  | next (o : Outside) (hp : s.point = .handling []) :
      Move L s (.reader o) { s with point := .reading }
  | event (o : Outside) (event : Event) (events : List Event)
      (hp : s.point = .handling (event :: events)) (reaction : Reaction P n) (σ : Store P)
      (h : s.reader.onEvent L.cfg s.store event o = (.ok reaction, σ)) :
      Move L s (.reader o)
        ({ s with store := σ, reader := reaction.reader }.dispatching reaction.sends
          reaction.after events)
  | send (o : Outside) (i : Fin n) (job : Job) (rest : List (Fin n × Job)) (after : After)
      (events : List Event) (hp : s.point = .dispatching i job rest after events)
      (halive : (s.workers i).status.isExited = false)
      (hroom : (s.workers i).jobs.length < queueDepth) :
      Move L s (.reader o)
        ({ s.setWorker i { s.workers i with jobs := (s.workers i).jobs ++ [job] } with
          trace := recordDispatch s.trace job }.dispatching rest after events)
  | sendFailed (o : Outside) (i : Fin n) (job : Job) (rest : List (Fin n × Job)) (after : After)
      (events : List Event) (hp : s.point = .dispatching i job rest after events)
      (hdead : (s.workers i).status.isExited = true) :
      Move L s (.reader o) { s with point := .failedSend }
  /-- An acknowledgement, and not the last one. -/
  | ack (o : Outside) (block : OpenBlock) (acks : Acks P) (events : List Event)
      (hp : s.point = .collecting block acks events) (c : BlockClosed P)
      (queue : List (WorkerEvent P)) (hq : s.events = .closed c :: queue)
      (hmore : acks.acked + 1 < n) :
      Move L s (.reader o)
        { s with events := queue, point := .collecting block (acks.add c) events }
  /-- The last acknowledgement of a block. -/
  | close (o : Outside) (block : OpenBlock) (acks : Acks P) (events : List Event)
      (hp : s.point = .collecting block acks events) (c : BlockClosed P)
      (queue : List (WorkerEvent P)) (hq : s.events = .closed c :: queue)
      (hlast : n ≤ acks.acked + 1) :
      Move L s (.reader o)
        { s with
          events := queue
          reader := s.reader.closeBlock block (acks.add c)
          point := .handling events }
  | burst (o : Outside) (dumpedBy : ℕ) (b : Burst P) (hp : s.point = .committing dumpedBy b)
      (hover : b.isOver = false) (b' : Burst P) (σ : Store P) (attempts : List Attempt)
      (h : b.step L.cfg s.store o.pick o.commit = some (b', σ, attempts)) :
      Move L s (.reader o)
        { s with
          store := σ
          point := .committing dumpedBy b'
          trace := { s.trace with attempts := s.trace.attempts ++ attempts } }
  /-- Every commit succeeded, and the history is next. -/
  | report (o : Outside) (dumpedBy : ℕ) (b : Burst P) (hp : s.point = .committing dumpedBy b)
      (hover : b.isOver = true) (hok : (tally s.reader.tables b.outcomes).failure = none)
      (hm : L.cfg.writeManifest = true) :
      Move L s (.reader o)
        { s with
          point := .recording
            (s.reader.report L dumpedBy (tally s.reader.tables b.outcomes).tables) }
  | succeed (o : Outside) (dumpedBy : ℕ) (b : Burst P) (hp : s.point = .committing dumpedBy b)
      (hover : b.isOver = true) (hok : (tally s.reader.tables b.outcomes).failure = none)
      (hm : L.cfg.writeManifest = false) :
      Move L s (.reader o)
        { s with
          point := .done
            (.ok (s.reader.report L dumpedBy (tally s.reader.tables b.outcomes).tables)) }
  | recorded (o : Outside) (report : LoadReport) (hp : s.point = .recording report)
      (loadId : String) (σ : Store P)
      (h : Manifest.append P L.cfg.outputUri L.run report s.store o.history = (.ok loadId, σ)) :
      Move L s (.reader o)
        { s with store := σ, point := .done (.ok { report with loadId := some loadId }) }
  /-- The load fails in phase one, outside any call to storage. -/
  | stop (o : Outside) (e : Error)
      (hphase : (s.point = .reading ∨ (∃ events, s.point = .handling events) ∨
        s.point = .failedSend ∨ ∃ block acks events, s.point = .collecting block acks events))
      (queue : List (WorkerEvent P)) (hqueue : queue <:+ s.events) :
      Move L s (.reader o) { s with events := queue, point := .done (.error e) }
  | stopEvent (o : Outside) (event : Event) (events : List Event)
      (hp : s.point = .handling (event :: events)) (e : Error) (σ : Store P)
      (h : s.reader.onEvent (n := n) L.cfg s.store event o = (.error e, σ)) :
      Move L s (.reader o) { s with store := σ, point := .done (.error e) }
  /-- The caller interrupts the load when a block has closed. -/
  | interrupt (o : Outside) (block : OpenBlock) (acks : Acks P) (events : List Event)
      (hp : s.point = .collecting block acks events) (c : BlockClosed P)
      (queue : List (WorkerEvent P)) (hq : s.events = .closed c :: queue)
      (hlast : n ≤ acks.acked + 1) :
      Move L s (.reader o)
        { s with
          events := queue
          reader := s.reader.closeBlock block (acks.add c)
          point := .done (.error .interrupted) }
  | commitFailed (o : Outside) (dumpedBy : ℕ) (b : Burst P)
      (hp : s.point = .committing dumpedBy b) (hover : b.isOver = true) (table : String)
      (e : Error) (hfail : (tally s.reader.tables b.outcomes).failure = some (table, e)) :
      Move L s (.reader o)
        { s with
          point := .done
            (.error (.commitFailed table (tally s.reader.tables b.outcomes).committed b.total
              e.display)) }
  | stopRecord (o : Outside) (report : LoadReport) (hp : s.point = .recording report) (e : Error)
      (σ : Store P)
      (h : Manifest.append P L.cfg.outputUri L.run report s.store o.history = (.error e, σ)) :
      Move L s (.reader o) { s with store := σ, point := .done (.error e) }
  /-- A worker does a job. -/
  | job (i : Fin n) (faults : JobFaults) (hrun : (s.workers i).status = .running) (job : Job)
      (jobs : List Job) (hjobs : (s.workers i).jobs = job :: jobs) (handled : Handled P)
      (h : (s.workers i).state.handle ⟨L.run, job.generation, i, 0⟩ job faults = .ok handled) :
      Move L s (.worker i faults)
        { s.setWorker i
            { jobs := jobs, state := handled.state, status := handled.status } with
          trace := { s.trace with
            written := s.trace.written ++ handled.written.map fun b => (job.generation, b) } }
  | jobFailed (i : Fin n) (faults : JobFaults) (hrun : (s.workers i).status = .running)
      (job : Job) (jobs : List Job) (hjobs : (s.workers i).jobs = job :: jobs) (e : Error)
      (h : (s.workers i).state.handle (P := P) ⟨L.run, job.generation, i, 0⟩ job faults =
        .error e) :
      Move L s (.worker i faults)
        (s.setWorker i { s.workers i with jobs := jobs, status := .failing e })
  | sendAck (i : Fin n) (faults : JobFaults) (c : BlockClosed P)
      (hstatus : (s.workers i).status = .acking c)
      (hroom : s.events.length < eventCapacity n) :
      Move L s (.worker i faults)
        { s.setWorker i { s.workers i with status := .running } with
          events := s.events ++ [.closed c] }
  | sendFailure (i : Fin n) (faults : JobFaults) (e : Error)
      (hstatus : (s.workers i).status = .failing e)
      (hroom : s.events.length < eventCapacity n) :
      Move L s (.worker i faults)
        { s.setWorker i { s.workers i with status := .reported } with
          events := s.events ++ [.failed e] }
  | exit (i : Fin n) (faults : JobFaults) (hstatus : (s.workers i).status = .reported) :
      Move L s (.worker i faults) (s.setWorker i { s.workers i with status := .exited })
  /-- The reader is done, and the worker's queue is empty. -/
  | leave (i : Fin n) (faults : JobFaults) (hstatus : (s.workers i).status = .running)
      (hjobs : (s.workers i).jobs = []) (hdone : s.isDone = true) :
      Move L s (.worker i faults) (s.setWorker i { s.workers i with status := .exited })

theorem readChunk_move (L : Load) (s : System P n) (o : Outside) (hp : s.point = .reading) :
    Move L s (.reader o) (s.readChunk L) := by
  have hphase : (s.point = .reading ∨ (∃ events, s.point = .handling events) ∨
      s.point = .failedSend ∨ ∃ block acks events, s.point = .collecting block acks events) :=
    .inl hp
  unfold readChunk
  cases hc : s.reader.chunks with
  | cons chunk chunks =>
    simp only
    cases hf : s.reader.scanner.feed chunk.bytes with
    | error e => exact .stop o e hphase s.events (List.suffix_refl _)
    | ok r => exact .read o hp chunk chunks hc r.1 r.2 hf
  | nil =>
    simp only [endOfStream]
    cases he : L.input.ending with
    | some e => exact .stop o e hphase s.events (List.suffix_refl _)
    | none =>
      cases hf : s.reader.scanner.finish with
      | error e => exact .stop o e hphase s.events (List.suffix_refl _)
      | ok u =>
        cases hd : s.reader.dumpedBy with
        | none => exact .stop o _ hphase s.events (List.suffix_refl _)
        | some dumpedBy => exact .finish o hp hc he hf dumpedBy hd

theorem receiveCause_move {L : Load} {s t : System P n} (o : Outside) (hp : s.point = .failedSend)
    (h : s.receiveCause = some t) : Move L s (.reader o) t := by
  unfold receiveCause at h
  have hphase : (s.point = .reading ∨ (∃ events, s.point = .handling events) ∨
      s.point = .failedSend ∨ ∃ block acks events, s.point = .collecting block acks events) :=
    .inr (.inr (.inl hp))
  split at h
  next e queue hq =>
    obtain rfl := Option.some.inj h
    exact .stop o _ hphase queue (hq ▸ List.suffix_cons _ queue)
  next c queue hq =>
    obtain rfl := Option.some.inj h
    exact .stop o _ hphase queue (hq ▸ List.suffix_cons _ queue)
  · split at h
    · obtain rfl := Option.some.inj h
      exact .stop o _ hphase s.events (List.suffix_refl _)
    · simp at h

theorem receiveAck_move {L : Load} {s t : System P n} {o : Outside} {block : OpenBlock}
    {acks : Acks P} {events : List Event} (hp : s.point = .collecting block acks events)
    (h : s.receiveAck block acks events o = some t) : Move L s (.reader o) t := by
  have hphase : (s.point = .reading ∨ (∃ events, s.point = .handling events) ∨
      s.point = .failedSend ∨ ∃ block acks events, s.point = .collecting block acks events) :=
    .inr (.inr (.inr ⟨_, _, _, hp⟩))
  unfold receiveAck at h
  split at h
  next e queue hq =>
    obtain rfl := Option.some.inj h
    exact .stop o _ hphase queue (hq ▸ List.suffix_cons _ queue)
  · rename_i c queue hq
    obtain rfl := Option.some.inj h
    unfold acknowledged
    split
    · rename_i hmore
      exact .ack o block acks events hp c queue hq hmore
    · rename_i hlast
      have hlast : n ≤ acks.acked + 1 := Nat.le_of_not_lt hlast
      simp only
      split
      · exact .close o block acks events hp c queue hq hlast
      · exact .interrupt o block acks events hp c queue hq hlast
  · split at h
    · obtain rfl := Option.some.inj h
      exact .stop o _ hphase s.events (List.suffix_refl _)
    · simp at h

theorem stepBurst_move {L : Load} {s t : System P n} {o : Outside} {dumpedBy : ℕ} {b : Burst P}
    (hp : s.point = .committing dumpedBy b) (h : s.stepBurst L dumpedBy b o = some t) :
    Move L s (.reader o) t := by
  unfold stepBurst at h
  split at h
  · rename_i hover
    obtain rfl := Option.some.inj h
    unfold endOfBurst
    simp only
    split
    · rename_i hfail
      exact .commitFailed o dumpedBy b hp hover _ _ hfail
    · rename_i hok
      split
      · rename_i hm
        exact .report o dumpedBy b hp hover hok hm
      · rename_i hm
        exact .succeed o dumpedBy b hp hover hok (by simpa using hm)
  · rename_i hover
    obtain ⟨r, hr, rfl⟩ := Option.map_eq_some_iff.mp h
    exact .burst o dumpedBy b hp (by simpa using hover) r.1 r.2.1 r.2.2 hr

theorem readerStep_move {L : Load} {s t : System P n} {o : Outside}
    (h : s.readerStep L o = some t) : Move L s (.reader o) t := by
  unfold readerStep at h
  split at h
  next hp =>
    obtain rfl := Option.some.inj h
    exact readChunk_move L s o hp
  next hp =>
    obtain rfl := Option.some.inj h
    unfold endOfChunk
    split
    · exact .next o hp
    · exact .stop o _ (.inr (.inl ⟨_, hp⟩)) s.events (List.suffix_refl _)
  next event events hp =>
    obtain rfl := Option.some.inj h
    unfold handleEvent
    split
    · rename_i e σ he
      exact .stopEvent o event events hp e σ he
    · rename_i reaction σ he
      exact .event o event events hp reaction σ he
  next i job rest after events hp =>
    unfold sendJob at h
    simp only at h
    split at h
    · rename_i hdead
      obtain rfl := Option.some.inj h
      exact .sendFailed o i job rest after events hp hdead
    · rename_i halive
      split at h
      · rename_i hroom
        obtain rfl := Option.some.inj h
        exact .send o i job rest after events hp (by simpa using halive) hroom
      · simp at h
  next hp => exact receiveCause_move o hp h
  next block acks events hp => exact receiveAck_move hp h
  next dumpedBy b hp => exact stepBurst_move hp h
  next report hp =>
    obtain rfl := Option.some.inj h
    unfold record
    split
    · rename_i e σ he
      exact .stopRecord o report hp e σ he
    · rename_i loadId σ he
      exact .recorded o report hp loadId σ he
  next => simp at h

theorem workerStep_move {L : Load} {s t : System P n} {i : Fin n} {faults : JobFaults}
    (h : s.workerStep L i faults = some t) : Move L s (.worker i faults) t := by
  unfold workerStep at h
  simp only at h
  split at h
  next hstatus =>
    split at h
    · rename_i hjobs
      split at h
      · rename_i hdone
        obtain rfl := Option.some.inj h
        exact .leave i faults hstatus hjobs hdone
      · simp at h
    · rename_i job jobs hjobs
      obtain rfl := Option.some.inj h
      unfold doJob
      simp only
      split
      · rename_i e he
        exact .jobFailed i faults hstatus job jobs hjobs e he
      · rename_i handled he
        exact .job i faults hstatus job jobs hjobs handled he
  next c hstatus =>
    unfold sendEvent at h
    split at h
    · rename_i hroom
      obtain rfl := Option.some.inj h
      exact .sendAck i faults c hstatus hroom
    · simp at h
  next e hstatus =>
    unfold sendEvent at h
    split at h
    · rename_i hroom
      obtain rfl := Option.some.inj h
      exact .sendFailure i faults e hstatus hroom
    · simp at h
  next hstatus =>
    obtain rfl := Option.some.inj h
    exact .exit i faults hstatus
  next => simp at h

/-- Every step is one of the moves. -/
theorem step_move {L : Load} {s t : System P n} {a : Label n} (h : step L s a = some t) :
    Move L s a t := by
  cases a with
  | reader o => exact readerStep_move h
  | worker i faults => exact workerStep_move h

end PgDelta.Pipeline.System
