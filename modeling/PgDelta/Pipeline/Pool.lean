import PgDelta.Pipeline.Crew
import PgDelta.Pipeline.Moves

/-!
The worker pool and the block in hand.

`Crewed` accounts for a whole block: every line that was dispatched is with one
worker, every batch that was written is one worker's, every acknowledgement on
its way or collected stands for a worker that is done with the block, and every
worker that has died has left its error in the event queue.
-/

namespace PgDelta.Pipeline

open PgDelta.Lib PgDelta.Builders PgDelta.Sink

variable {P : Platform} {n : ℕ}

/-- The workers with the event queue and the trace. -/
structure Pool (P : Platform) (n : ℕ) where
  workers : Fin n → Worker P
  events : List (WorkerEvent P)
  trace : Trace

def System.pool (s : System P n) : Pool P n := ⟨s.workers, s.events, s.trace⟩

/-- The lines dispatched for the block of a generation. -/
def Trace.linesOf (t : Trace) (generation : ℕ) : List Bytes :=
  (t.dispatched.filter fun d => d.1 = generation).flatMap fun d => Copy.rows d.2

/-- The batches written for the block of a generation. -/
def Trace.batchesOf (t : Trace) (generation : ℕ) : List RecordBatch :=
  (t.written.filter fun w => w.1 = generation).map Prod.snd

def closedOf (events : List (WorkerEvent P)) : List (BlockClosed P) :=
  events.filterMap fun
    | .closed c => some c
    | .failed _ => none

def failedOf (events : List (WorkerEvent P)) : List Error :=
  events.filterMap fun
    | .closed _ => none
    | .failed e => some e

@[simp] theorem closedOf_nil : closedOf ([] : List (WorkerEvent P)) = [] := rfl

@[simp] theorem failedOf_nil : failedOf ([] : List (WorkerEvent P)) = [] := rfl

@[simp] theorem closedOf_append (es fs : List (WorkerEvent P)) :
    closedOf (es ++ fs) = closedOf es ++ closedOf fs := by
  simp [closedOf]

@[simp] theorem failedOf_append (es fs : List (WorkerEvent P)) :
    failedOf (es ++ fs) = failedOf es ++ failedOf fs := by
  simp [failedOf]

@[simp] theorem closedOf_closed (c : BlockClosed P) (es : List (WorkerEvent P)) :
    closedOf (.closed c :: es) = c :: closedOf es := rfl

@[simp] theorem closedOf_failed (e : Error) (es : List (WorkerEvent P)) :
    closedOf (.failed e :: es) = closedOf es := rfl

@[simp] theorem failedOf_closed (c : BlockClosed P) (es : List (WorkerEvent P)) :
    failedOf (.closed c :: es) = failedOf es := rfl

@[simp] theorem failedOf_failed (e : Error) (es : List (WorkerEvent P)) :
    failedOf (.failed e :: es) = e :: failedOf es := rfl

/-- Every event is one or the other. -/
theorem length_events (es : List (WorkerEvent P)) :
    es.length = (closedOf es).length + (failedOf es).length := by
  induction es with
  | nil => rfl
  | cons e es ih =>
    cases e with
    | closed c => simp [ih]; omega
    | failed e => simp [ih]; omega

/-- What a worker has offered towards the block's acknowledgements. -/
def offered (stage : Stage) (c : BlockClosed P) (w : Worker P) : List (BlockClosed P) :=
  if isIdle stage w then [c] else []

/-- One for every error that a worker has reported. -/
def complaints (w : Worker P) : List Unit :=
  if w.status.hasReported then [()] else []

/-- What each worker has of the block. -/
structure Ledger (P : Platform) (n : ℕ) where
  taken : Fin n → List Bytes
  queued : Fin n → List Bytes
  written : Fin n → List RecordBatch
  contribution : Fin n → BlockClosed P

namespace Ledger

def fresh (generation : ℕ) : Ledger P n where
  taken _ := []
  queued _ := []
  written _ := []
  contribution _ := { generation := generation }

def set (l : Ledger P n) (i : Fin n) (taken queued : List Bytes) (written : List RecordBatch)
    (c : BlockClosed P) : Ledger P n where
  taken := Function.update l.taken i taken
  queued := Function.update l.queued i queued
  written := Function.update l.written i written
  contribution := Function.update l.contribution i c

/-- The lines that a worker has taken or will take. -/
def lines (l : Ledger P n) (i : Fin n) : List Bytes :=
  l.taken i ++ (l.queued i).flatMap Copy.rows

end Ledger

/-- The pool at work on one block, some of whose acknowledgements have been
collected. -/
structure Crewed (run : ℕ) (ctx : BlockCtx) (stage : Fin n → Stage)
    (collected : List (BlockClosed P)) (l : Ledger P n) (p : Pool P n) : Prop where
  follows : ∀ i : Fin n, Follows run ctx i (stage i) (l.taken i) (l.queued i) (l.written i)
    (l.contribution i) (p.workers i)
  acks : (collected ++ closedOf p.events).Perm
    (gather fun i => offered (stage i) (l.contribution i) (p.workers i))
  failures : (failedOf p.events).length = (gather fun i => complaints (p.workers i)).length
  lines : (p.trace.linesOf ctx.generation).Perm (gather l.lines)
  batches : (p.trace.batchesOf ctx.generation).Perm (gather l.written)

namespace Crewed

variable {run : ℕ} {ctx : BlockCtx} {stage : Fin n → Stage} {collected : List (BlockClosed P)}
  {l : Ledger P n} {p : Pool P n}

theorem fresh (run : ℕ) (ctx : BlockCtx) {trace : Trace}
    (hlines : trace.linesOf ctx.generation = [])
    (hbatches : trace.batchesOf ctx.generation = []) :
    Crewed run ctx (fun _ : Fin n => .waiting) [] (.fresh ctx.generation)
      (⟨fun _ => {}, [], trace⟩ : Pool P n) where
  follows _ := .fresh
  acks := by simp [offered, isIdle]
  failures := by simp [complaints, Status.hasReported]
  lines := by simp [hlines, Ledger.lines, Ledger.fresh, gather]
  batches := by simp [hbatches, Ledger.fresh]

theorem set (h : Crewed run ctx stage collected l p) (i : Fin n) {st : Stage}
    {taken queued : List Bytes} {written : List RecordBatch} {c : BlockClosed P} {w : Worker P}
    (hfollows : Follows run ctx i st taken queued written c w) (more : List (WorkerEvent P))
    (hoffered : offered st c w =
      offered (stage i) (l.contribution i) (p.workers i) ++ closedOf more)
    (hcomplaints : (complaints w).length =
      (complaints (p.workers i)).length + (failedOf more).length)
    (trace : Trace) (lines : List Bytes)
    (htrace : trace.linesOf ctx.generation = p.trace.linesOf ctx.generation ++ lines)
    (hlines : taken ++ queued.flatMap Copy.rows = l.lines i ++ lines)
    (batches : List RecordBatch)
    (htrace' : trace.batchesOf ctx.generation = p.trace.batchesOf ctx.generation ++ batches)
    (hbatches : written = l.written i ++ batches) :
    Crewed run ctx (Function.update stage i st) collected (l.set i taken queued written c)
      ⟨Function.update p.workers i w, p.events ++ more, trace⟩ where
  follows j := by
    rcases eq_or_ne j i with rfl | hj
    · simpa [Ledger.set] using hfollows
    · simpa [Ledger.set, hj] using h.follows j
  acks := by
    have hgather : (gather fun j => offered (Function.update stage i st j)
        ((l.set i taken queued written c).contribution j) (Function.update p.workers i w j)).Perm
        ((gather fun j => offered (stage j) (l.contribution j) (p.workers j))
          ++ closedOf more) := by
      apply gather_perm_append i
      · simpa [Ledger.set] using List.Perm.of_eq hoffered
      · intro j hj
        simp [Ledger.set, hj]
    rw [closedOf_append, ← List.append_assoc]
    exact (h.acks.append_right _).trans hgather.symm
  failures := by
    have hgather : (gather fun j => complaints (Function.update p.workers i w j)).Perm
        ((gather fun j => complaints (p.workers j)) ++ (failedOf more).map fun _ => ()) := by
      apply gather_perm_append i
      · apply List.Perm.of_eq
        apply List.ext_getElem
        · simp [hcomplaints]
        · intros
          rfl
      · intro j hj
        simp [hj]
    rw [hgather.length_eq]
    simp [h.failures]
  lines := by
    have hgather : (gather (l.set i taken queued written c).lines).Perm
        (gather l.lines ++ lines) := by
      apply gather_perm_append i
      · simpa [Ledger.lines, Ledger.set] using List.Perm.of_eq hlines
      · intro j hj
        simp [Ledger.lines, Ledger.set, hj]
    simp only [htrace]
    exact (h.lines.append_right _).trans hgather.symm
  batches := by
    have hgather : (gather (l.set i taken queued written c).written).Perm
        (gather l.written ++ batches) := by
      apply gather_perm_append i
      · simpa [Ledger.set] using List.Perm.of_eq hbatches
      · intro j hj
        simp [Ledger.set, hj]
    simp only [htrace']
    exact (h.batches.append_right _).trans hgather.symm

/-! ### Jobs are sent -/

theorem send_open (h : Crewed run ctx stage collected l p) {i : Fin n}
    (hstage : stage i = .waiting) :
    ∃ l', Crewed run ctx (Function.update stage i .opened) collected l'
      ⟨Function.update p.workers i
        { p.workers i with jobs := (p.workers i).jobs ++ [.openBlock ctx] }, p.events,
          p.trace⟩ := by
  have hfollows := h.follows i
  rw [hstage] at hfollows
  have h' := h.set i hfollows.send_open []
    (by simp [offered, isIdle, hstage])
    (by simp [complaints]) p.trace [] (by simp) (by simp [Ledger.lines]) [] (by simp) (by simp)
  exact ⟨_, by simpa using h'⟩

theorem linesOf_recordDispatch (t : Trace) (generation : ℕ) (payload : Bytes) :
    (System.recordDispatch t (.rows generation payload)).linesOf generation =
      t.linesOf generation ++ Copy.rows payload := by
  simp [System.recordDispatch, Trace.linesOf]

theorem send_rows (h : Crewed run ctx stage collected l p) {i : Fin n} (hstage : stage i = .opened)
    (payload : Bytes) :
    ∃ l', Crewed run ctx stage collected l'
      ⟨Function.update p.workers i
        { p.workers i with jobs := (p.workers i).jobs ++ [.rows ctx.generation payload] }, p.events,
        System.recordDispatch p.trace (.rows ctx.generation payload)⟩ := by
  have hfollows := h.follows i
  rw [hstage] at hfollows
  have h' := h.set i (hfollows.send_rows payload) []
    (by simp [offered, isIdle, hstage])
    (by simp [complaints]) _ (Copy.rows payload) (linesOf_recordDispatch ..)
    (by simp [Ledger.lines]) [] (by simp [System.recordDispatch, Trace.batchesOf]) (by simp)
  rw [← hstage, Function.update_eq_self] at h'
  exact ⟨_, by simpa using h'⟩

/-- The end of the block reaches a worker. -/
theorem send_close (h : Crewed run ctx stage collected l p) {i : Fin n}
    (hstage : stage i = .opened) :
    ∃ l', Crewed run ctx (Function.update stage i .closed) collected l'
      ⟨Function.update p.workers i
        { p.workers i with jobs := (p.workers i).jobs ++ [.close ctx.generation] }, p.events,
        p.trace⟩ := by
  have hfollows := h.follows i
  rw [hstage] at hfollows
  have h' := h.set i hfollows.send_close []
    (by simp [offered, isIdle, hstage])
    (by simp [complaints]) p.trace [] (by simp) (by simp [Ledger.lines]) [] (by simp) (by simp)
  exact ⟨_, by simpa using h'⟩

/-! ### A worker moves on its own -/

theorem job (h : Crewed run ctx stage collected l p) {i : Fin n} {job : Job} {jobs : List Job}
    {faults : JobFaults} {handled : Handled P} (hrun : (p.workers i).status = .running)
    (hjobs : (p.workers i).jobs = job :: jobs)
    (hdone : (p.workers i).state.handle ⟨run, job.generation, i, 0⟩ job faults = .ok handled) :
    job.generation = ctx.generation ∧
      ∃ l', Crewed run ctx stage collected l'
        ⟨Function.update p.workers i
          { jobs := jobs, state := handled.state, status := handled.status }, p.events,
          { p.trace with
            written := p.trace.written ++ handled.written.map fun b => (job.generation, b) }⟩ := by
  obtain ⟨hgeneration, taken, queued, c, hfollows, hlines, hafter⟩ :=
    (h.follows i).job hrun hjobs hdone
  refine ⟨hgeneration, ?_⟩
  have hbefore : isIdle (stage i) (p.workers i) = false := isIdle_eq_false_of_jobs hjobs
  have h' := h.set i hfollows [] (by simp [offered, hbefore, hafter])
    (by cases hclosed : handled.closed <;>
      simp [complaints, hrun, Status.hasReported, Handled.status, hclosed])
    { p.trace with
      written := p.trace.written ++ handled.written.map fun b => (job.generation, b) }
    [] (by simp [Trace.linesOf]) (by simpa [Ledger.lines] using hlines) handled.written
    (by simp [Trace.batchesOf, hgeneration, List.filter_map, Function.comp_def]) rfl
  rw [Function.update_eq_self] at h'
  exact ⟨_, by simpa using h'⟩

/-- A worker changes its status, and may send an event. -/
theorem setStatus (h : Crewed run ctx stage collected l p) {i : Fin n} {w : Worker P}
    (hfollows : Follows run ctx i (stage i) (l.taken i) (l.queued i) (l.written i)
      (l.contribution i) w) (more : List (WorkerEvent P))
    (hoffered : offered (stage i) (l.contribution i) w =
      offered (stage i) (l.contribution i) (p.workers i) ++ closedOf more)
    (hcomplaints : (complaints w).length =
      (complaints (p.workers i)).length + (failedOf more).length) :
    ∃ l', Crewed run ctx stage collected l'
      ⟨Function.update p.workers i w, p.events ++ more, p.trace⟩ := by
  have h' := h.set i hfollows more hoffered hcomplaints p.trace [] (by simp)
    (by simp [Ledger.lines]) [] (by simp) (by simp)
  rw [Function.update_eq_self] at h'
  exact ⟨_, h'⟩

theorem jobFailed (h : Crewed run ctx stage collected l p) {i : Fin n} {job : Job}
    {jobs : List Job} (hrun : (p.workers i).status = .running)
    (hjobs : (p.workers i).jobs = job :: jobs) (e : Error) :
    ∃ l', Crewed run ctx stage collected l'
      ⟨Function.update p.workers i { p.workers i with jobs := jobs, status := .failing e },
        p.events, p.trace⟩ := by
  have hbefore : isIdle (stage i) (p.workers i) = false := isIdle_eq_false_of_jobs hjobs
  have hafter :
      isIdle (stage i) ({ p.workers i with jobs := jobs, status := .failing e } : Worker P)
        = false :=
    isIdle_eq_false_of_status rfl
  have h' := h.setStatus (w := { p.workers i with jobs := jobs, status := .failing e })
    (.dead ((h.follows i).stage_ne_waiting hjobs) rfl) []
    (by simp [offered, hbefore, hafter])
    (by simp [complaints, hrun, Status.hasReported])
  simpa using h'

theorem sendAck (h : Crewed run ctx stage collected l p) {i : Fin n} {c : BlockClosed P}
    (hstatus : (p.workers i).status = .acking c) :
    ∃ l', Crewed run ctx stage collected l'
      ⟨Function.update p.workers i { p.workers i with status := .running },
        p.events ++ [.closed c], p.trace⟩ := by
  obtain ⟨rfl, -, hfollows, hidle⟩ := (h.follows i).sendAck hstatus
  have hbefore : isIdle (stage i) (p.workers i) = false :=
    isIdle_eq_false_of_status (by simp [hstatus, Status.isRunning])
  exact h.setStatus hfollows _ (by simp [offered, hbefore, hidle])
    (by simp [complaints, hstatus, Status.hasReported])

theorem sendFailure (h : Crewed run ctx stage collected l p) {i : Fin n} {e : Error}
    (hstatus : (p.workers i).status = .failing e) :
    ∃ l', Crewed run ctx stage collected l'
      ⟨Function.update p.workers i { p.workers i with status := .reported },
        p.events ++ [.failed e], p.trace⟩ := by
  have hbefore : isIdle (stage i) (p.workers i) = false :=
    isIdle_eq_false_of_status (by simp [hstatus, Status.isRunning])
  have hafter : isIdle (stage i) ({ p.workers i with status := .reported } : Worker P) = false :=
    isIdle_eq_false_of_status rfl
  exact h.setStatus ((h.follows i).of_dead (by simp [hstatus, Status.isDead]) rfl) _
    (by simp [offered, hbefore, hafter])
    (by simp [complaints, hstatus, Status.hasReported])

theorem exit (h : Crewed run ctx stage collected l p) {i : Fin n}
    (hstatus : (p.workers i).status = .reported) :
    ∃ l', Crewed run ctx stage collected l'
      ⟨Function.update p.workers i { p.workers i with status := .exited }, p.events, p.trace⟩ := by
  have hbefore : isIdle (stage i) (p.workers i) = false :=
    isIdle_eq_false_of_status (by simp [hstatus, Status.isRunning])
  have hafter : isIdle (stage i) ({ p.workers i with status := .exited } : Worker P) = false :=
    isIdle_eq_false_of_status rfl
  have h' := h.setStatus (w := { p.workers i with status := .exited })
    ((h.follows i).of_dead (by simp [hstatus, Status.isDead]) rfl) []
    (by simp [offered, hbefore, hafter])
    (by simp [complaints, hstatus, Status.hasReported])
  simpa using h'

/-! ### The acknowledgements are collected -/

/-- The reader takes an acknowledgement from the event queue. -/
theorem collect (h : Crewed run ctx stage collected l p) {c : BlockClosed P}
    {queue : List (WorkerEvent P)} (hq : p.events = .closed c :: queue) :
    Crewed run ctx stage (collected ++ [c]) l ⟨p.workers, queue, p.trace⟩ where
  follows := h.follows
  acks := by
    have hacks := h.acks
    rw [hq, closedOf_closed] at hacks
    simpa using hacks
  failures := by
    have hfailures := h.failures
    rw [hq, failedOf_closed] at hfailures
    exact hfailures
  lines := h.lines
  batches := h.batches

theorem acks_roster (h : Crewed run ctx stage collected l p) :
    (collected ++ closedOf p.events).Perm
      ((roster fun i => isIdle (stage i) (p.workers i)).map l.contribution) := by
  have hacks := h.acks
  simp only [offered] at hacks
  rwa [gather_ite] at hacks

/-- No more acknowledgements come than there are workers. -/
theorem length_acks_le (h : Crewed run ctx stage collected l p) :
    collected.length + (closedOf p.events).length ≤ n := by
  have hlen := h.acks_roster.length_eq
  rw [List.length_append, List.length_map] at hlen
  rw [hlen]
  exact length_roster_le _

theorem failures_roster (h : Crewed run ctx stage collected l p) :
    (failedOf p.events).length = (roster fun i => (p.workers i).status.hasReported).length := by
  rw [h.failures]
  unfold complaints
  rw [gather_ite, List.length_map]

/-- The events in the queue and those that can still come are two for each
worker at most. -/
theorem events_add_potential_le (h : Crewed run ctx stage collected l p) :
    p.events.length + ∑ i, (p.workers i).potential ≤ 2 * n := by
  have hacks : (closedOf p.events).length ≤
      ∑ i, if isIdle (stage i) (p.workers i) then 1 else 0 := by
    have hlen := h.acks.length_eq
    rw [List.length_append, length_gather_eq_sum] at hlen
    simp only [offered, apply_ite List.length, List.length_singleton, List.length_nil] at hlen
    omega
  have hfailures : (failedOf p.events).length =
      ∑ i, if (p.workers i).status.hasReported then 1 else 0 := by
    rw [h.failures, length_gather_eq_sum]
    simp only [complaints, apply_ite List.length, List.length_singleton, List.length_nil]
  have hworkers : ∑ i, ((if isIdle (stage i) (p.workers i) then 1 else 0) +
      (if (p.workers i).status.hasReported then 1 else 0) + (p.workers i).potential) ≤
        ∑ _i : Fin n, 2 :=
    Finset.sum_le_sum fun i _ => (h.follows i).potential_le
  rw [Finset.sum_add_distrib, Finset.sum_add_distrib] at hworkers
  have htwo : ∑ _i : Fin n, 2 = 2 * n := by simp [Nat.mul_comm]
  rw [length_events]
  omega

/-- A worker that has reported its error has left it in the event queue. -/
theorem exists_failed (h : Crewed run ctx stage collected l p) {i : Fin n}
    (hreported : (p.workers i).status.hasReported = true) : failedOf p.events ≠ [] := by
  intro hnil
  have hlen := h.failures_roster
  rw [hnil, List.length_nil] at hlen
  have hmem : i ∈ roster fun i => (p.workers i).status.hasReported := mem_roster.mpr hreported
  rw [List.length_eq_zero_iff.mp hlen.symm] at hmem
  cases hmem

/-- When as many acknowledgements are collected as there are workers, every
worker is done with the block, and nothing is on its way. -/
theorem finished (h : Crewed run ctx stage collected l p) (hall : n ≤ collected.length) :
    p.workers = (fun _ => {}) ∧ p.events = [] ∧
      collected.Perm ((List.finRange n).map l.contribution) ∧
      ∀ i : Fin n, ClosedData run ctx i (l.lines i) (l.written i) (l.contribution i) := by
  have hacks := h.acks_roster
  have hlen := hacks.length_eq
  rw [List.length_append, List.length_map] at hlen
  have hidle : ∀ i, isIdle (stage i) (p.workers i) = true :=
    all_of_length_roster (by omega)
  have hworker : ∀ i : Fin n, p.workers i = {} ∧ l.queued i = [] ∧
      ClosedData run ctx i (l.taken i) (l.written i) (l.contribution i) :=
    fun i => (h.follows i).of_idle (hidle i)
  have hclosed : closedOf p.events = [] := by
    apply List.length_eq_zero_iff.mp
    have := h.length_acks_le
    omega
  have hfailed : failedOf p.events = [] := by
    apply List.length_eq_zero_iff.mp
    rw [h.failures]
    simp [complaints, (hworker _).1, Status.hasReported, gather]
  have hroster : (roster fun i => isIdle (stage i) (p.workers i)) = List.finRange n :=
    List.filter_eq_self.mpr fun i _ => hidle i
  refine ⟨funext fun i => (hworker i).1, ?_, ?_, ?_⟩
  · apply List.length_eq_zero_iff.mp
    rw [length_events, hclosed, hfailed]
    rfl
  · rw [hclosed, List.append_nil, hroster] at hacks
    exact hacks
  · intro i
    obtain ⟨-, hqueued, hdata⟩ := hworker i
    simpa [Ledger.lines, hqueued] using hdata

end Crewed

end PgDelta.Pipeline
