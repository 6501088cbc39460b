import PgDelta.Lib.Family
import PgDelta.Pipeline.Decoding

/-!
One worker and the block in hand.

`Follows` says how a worker can stand towards a block of which the reader has
sent it some jobs: which lines it has taken, which payloads still wait in its
queue, which batches it has written, and what it contributes in the end.
-/

namespace PgDelta.Pipeline

open PgDelta.Lib PgDelta.Builders PgDelta.Sink PgDelta.Copy

variable {P : Platform}

def Job.isClose : Job → Bool
  | .close _ => true
  | _ => false

/-- How many events a worker can still send. -/
def Worker.potential (w : Worker P) : ℕ :=
  match w.status with
  | .running => w.jobs.countP Job.isClose + 1
  | .acking _ => w.jobs.countP Job.isClose + 2
  | .failing _ => 1
  | .reported | .exited => 0

/-- How much of a block the reader has sent to a worker: nothing yet, the
opening of the block, or its end as well. -/
inductive Stage
  | waiting
  | opened
  | closed
  deriving DecidableEq

def Status.isRunning : Status P → Bool
  | .running => true
  | _ => false

/-- The worker's loop has ended before its queue was closed. -/
def Status.isDead : Status P → Bool
  | .failing _ | .reported | .exited => true
  | _ => false

/-- The worker has reported the error that ended its loop. -/
def Status.hasReported : Status P → Bool
  | .reported | .exited => true
  | _ => false

def LoopState.holding (ctx : BlockCtx) (block : Option WorkerBlock) : LoopState where
  ctxs := Function.update (fun _ => none) ctx.generation (some ctx)
  blocks := Function.update (fun _ => none) ctx.generation block

/-- The jobs that are left of a block behind its opening. -/
def jobsOf (generation : ℕ) (stage : Stage) (payloads : List Bytes) : List Job :=
  payloads.map (.rows generation) ++ if stage = .closed then [.close generation] else []

/-- A block that has not been made yet has taken no lines. -/
def OptionData (run : ℕ) (ctx : BlockCtx) (i : ℕ) (lines : List Bytes)
    (written : List RecordBatch) : Option WorkerBlock → Prop
  | none => lines = [] ∧ written = []
  | some b => BlockData run ctx i lines written b

/-- How a worker can stand towards the block. -/
inductive Follows (run : ℕ) (ctx : BlockCtx) (i : ℕ) :
    Stage → List Bytes → List Bytes → List RecordBatch → BlockClosed P → Worker P → Prop
  | fresh {c : BlockClosed P} : Follows run ctx i .waiting [] [] [] c {}
  /-- The opening is still in the queue. -/
  | opening {stage : Stage} {queued : List Bytes} {c : BlockClosed P}
      (hstage : stage ≠ .waiting) :
      Follows run ctx i stage [] queued [] c
        { jobs := .openBlock ctx :: jobsOf ctx.generation stage queued }
  | working {stage : Stage} {taken queued : List Bytes} {written : List RecordBatch}
      {c : BlockClosed P} (hstage : stage ≠ .waiting) (block : Option WorkerBlock)
      (hdata : OptionData run ctx i taken written block) :
      Follows run ctx i stage taken queued written c
        { jobs := jobsOf ctx.generation stage queued, state := .holding ctx block }
  | acking {taken : List Bytes} {written : List RecordBatch} {c : BlockClosed P}
      (hdata : ClosedData run ctx i taken written c) :
      Follows run ctx i .closed taken [] written c { status := .acking c }
  /-- The acknowledgement is on its way or has arrived. -/
  | idle {taken : List Bytes} {written : List RecordBatch} {c : BlockClosed P}
      (hdata : ClosedData run ctx i taken written c) :
      Follows run ctx i .closed taken [] written c {}
  | dead {stage : Stage} {taken queued : List Bytes} {written : List RecordBatch}
      {c : BlockClosed P} {w : Worker P} (hstage : stage ≠ .waiting)
      (hdead : w.status.isDead = true) : Follows run ctx i stage taken queued written c w

def isIdle (stage : Stage) (w : Worker P) : Bool :=
  decide (stage = .closed) && w.status.isRunning && w.jobs.isEmpty

theorem jobsOf_closed (generation : ℕ) (payloads : List Bytes) :
    jobsOf generation .closed payloads = payloads.map (.rows generation)
      ++ [.close generation] := by
  simp [jobsOf]

theorem jobsOf_opened (generation : ℕ) (payloads : List Bytes) :
    jobsOf generation .opened payloads = payloads.map (.rows generation) := by
  simp [jobsOf]

theorem isIdle_jobsOf (stage : Stage) (generation : ℕ) (payloads : List Bytes) (state : LoopState)
    (status : Status P) :
    isIdle stage (⟨jobsOf generation stage payloads, state, status⟩ : Worker P) = false := by
  cases stage <;> simp [isIdle, jobsOf]

theorem isIdle_eq_false_of_jobs {stage : Stage} {w : Worker P} {job : Job} {jobs : List Job}
    (h : w.jobs = job :: jobs) : isIdle stage w = false := by
  simp [isIdle, h]

theorem isIdle_eq_false_of_status {stage : Stage} {w : Worker P}
    (h : w.status.isRunning = false) : isIdle stage w = false := by
  simp [isIdle, h]

section

variable {run : ℕ} {ctx : BlockCtx} {i : ℕ} {stage : Stage} {taken queued : List Bytes}
  {written : List RecordBatch} {c : BlockClosed P} {w : Worker P}

/-- An idle worker is as it was before the block, and has contributed. -/
theorem Follows.of_idle (h : Follows run ctx i stage taken queued written c w)
    (hidle : isIdle stage w = true) :
    w = {} ∧ queued = [] ∧ ClosedData run ctx i taken written c := by
  simp only [isIdle, Bool.and_eq_true, decide_eq_true_eq] at hidle
  obtain ⟨⟨rfl, hrun⟩, hjobs⟩ := hidle
  cases h with
  | opening hstage => simp at hjobs
  | working hstage block hdata =>
    simp [jobsOf_closed] at hjobs
  | acking hdata => simp [Status.isRunning] at hrun
  | idle hdata => exact ⟨rfl, rfl, hdata⟩
  | dead hstage hdead =>
    cases hw : w.status <;> simp [hw, Status.isRunning, Status.isDead] at hrun hdead

theorem Follows.of_waiting (h : Follows run ctx i .waiting taken queued written c w) :
    w = {} ∧ taken = [] ∧ queued = [] ∧ written = [] := by
  cases h with
  | fresh => exact ⟨rfl, rfl, rfl, rfl⟩
  | opening hstage => exact absurd rfl hstage
  | working hstage block hdata => exact absurd rfl hstage
  | dead hstage hdead => exact absurd rfl hstage

theorem Follows.send_open (h : Follows run ctx i .waiting taken queued written c w) :
    Follows run ctx i .opened taken queued written c
      { w with jobs := w.jobs ++ [.openBlock ctx] } := by
  obtain ⟨rfl, rfl, rfl, rfl⟩ := h.of_waiting
  exact .opening (by decide)

/-- A payload is sent to the worker. -/
theorem Follows.send_rows (h : Follows run ctx i .opened taken queued written c w)
    (payload : Bytes) :
    Follows run ctx i .opened taken (queued ++ [payload]) written c
      { w with jobs := w.jobs ++ [.rows ctx.generation payload] } := by
  cases h with
  | opening hstage =>
    have hjobs : (Job.openBlock ctx :: jobsOf ctx.generation .opened queued) ++
        [Job.rows ctx.generation payload] =
          .openBlock ctx :: jobsOf ctx.generation .opened (queued ++ [payload]) := by
      simp [jobsOf_opened]
    simp only [hjobs]
    exact .opening hstage
  | working hstage block hdata =>
    have hjobs : jobsOf ctx.generation .opened queued ++ [Job.rows ctx.generation payload] =
        jobsOf ctx.generation .opened (queued ++ [payload]) := by
      simp [jobsOf_opened]
    simp only [hjobs]
    exact .working hstage block hdata
  | dead hstage hdead =>
    exact .dead hstage hdead

/-- The end of the block is sent to the worker. -/
theorem Follows.send_close (h : Follows run ctx i .opened taken queued written c w) :
    Follows run ctx i .closed taken queued written c
      { w with jobs := w.jobs ++ [.close ctx.generation] } := by
  cases h with
  | opening hstage =>
    have hjobs : (Job.openBlock ctx :: jobsOf ctx.generation .opened queued) ++
        [Job.close ctx.generation] = .openBlock ctx :: jobsOf ctx.generation .closed queued := by
      simp [jobsOf_opened, jobsOf_closed]
    simp only [hjobs]
    exact .opening (by decide)
  | working hstage block hdata =>
    have hjobs : jobsOf ctx.generation .opened queued ++ [Job.close ctx.generation] =
        jobsOf ctx.generation .closed queued := by
      simp [jobsOf_opened, jobsOf_closed]
    simp only [hjobs]
    exact .working (by decide) block hdata
  | dead hstage hdead =>
    exact .dead (by decide) hdead

theorem update_holding_close (ctx : BlockCtx) (block : Option WorkerBlock) :
    ({ ctxs := Function.update (LoopState.holding ctx block).ctxs ctx.generation none
       blocks := Function.update (LoopState.holding ctx block).blocks ctx.generation none } :
        LoopState) = {} := by
  simp [LoopState.holding]

/-! ### A job is done -/

theorem onOpen_holding (ctx : BlockCtx) :
    (({} : LoopState).onOpen ctx : Handled P) = { state := .holding ctx none } := by
  simp [LoopState.onOpen, LoopState.holding]

theorem onRows_holding {block : Option WorkerBlock} {payload : Bytes} {faults : JobFaults}
    {handled : Handled P} (hdata : OptionData run ctx i taken written block)
    (h : (LoopState.holding ctx block).onRows ctx.generation payload ⟨run, ctx.generation, i, 0⟩
      faults = .ok handled) :
    ∃ b, handled.state = .holding ctx (some b) ∧ handled.closed = none ∧
      BlockData run ctx i (taken ++ Copy.rows payload) (written ++ handled.written) b := by
  simp only [LoopState.onRows, LoopState.holding, Function.update_self, LoopState.blockFor] at h
  split at h
  · simp at h
  · rename_i b hb
    have hb : BlockData run ctx i taken written b := by
      cases block with
      | none =>
        obtain ⟨rfl, rfl⟩ := hdata
        exact WorkerBlock.new_data hb
      | some b' =>
        obtain rfl := Except.ok.inj hb
        exact hdata
    cases hrows : WorkerBlock.rows ctx faults b (Copy.rows payload) with
    | error e => simp [hrows] at h
    | ok r =>
      obtain ⟨b', out⟩ := r
      simp only [hrows, Except.ok.injEq] at h
      subst h
      exact ⟨b', by simp [LoopState.holding], rfl, hb.rows_spec hrows⟩

theorem onClose_holding {block : Option WorkerBlock} {faults : JobFaults} {handled : Handled P}
    (hdata : OptionData run ctx i taken written block)
    (h : (LoopState.holding ctx block).onClose ctx.generation faults = .ok handled) :
    handled.state = {} ∧ ∃ c, handled.closed = some c ∧
      ClosedData run ctx i taken (written ++ handled.written) c := by
  simp only [LoopState.onClose] at h
  rw [update_holding_close] at h
  have hblock : (LoopState.holding ctx block).blocks ctx.generation = block := by
    simp [LoopState.holding]
  rw [hblock] at h
  cases block with
  | none =>
    obtain ⟨rfl, rfl⟩ := hdata
    simp only [Except.ok.injEq] at h
    subst h
    exact ⟨rfl, _, rfl, .empty run ctx i⟩
  | some b =>
    simp only at h
    cases hclose : LoopState.closeBlock (P := P) b ctx.generation faults with
    | error e => simp [hclose] at h
    | ok r =>
      obtain ⟨c, out⟩ := r
      simp only [hclose, Except.ok.injEq] at h
      subst h
      exact ⟨rfl, c, rfl, closeBlock_data hdata hclose⟩

theorem Follows.job {job : Job} {jobs : List Job} {faults : JobFaults} {handled : Handled P}
    (h : Follows run ctx i stage taken queued written c w) (hrun : w.status = .running)
    (hjobs : w.jobs = job :: jobs)
    (hdone : w.state.handle ⟨run, job.generation, i, 0⟩ job faults = .ok handled) :
    job.generation = ctx.generation ∧ ∃ taken' queued' c',
      Follows run ctx i stage taken' queued' (written ++ handled.written) c'
        { jobs := jobs, state := handled.state, status := handled.status } ∧
      taken' ++ queued'.flatMap Copy.rows = taken ++ queued.flatMap Copy.rows ∧
      isIdle stage (⟨jobs, handled.state, handled.status⟩ : Worker P) = false := by
  unfold LoopState.handle at hdone
  split at hdone
  · simp at hdone
  · cases h with
    | fresh => simp at hjobs
    | opening hstage =>
      simp only [List.cons.injEq] at hjobs
      obtain ⟨rfl, rfl⟩ := hjobs
      simp only [Except.ok.injEq] at hdone
      rw [onOpen_holding] at hdone
      subst hdone
      exact ⟨rfl, [], queued, c, .working hstage none ⟨rfl, rfl⟩, rfl, isIdle_jobsOf ..⟩
    | working hstage block hdata =>
      cases queued with
      | cons payload queued =>
        simp only [jobsOf, List.map_cons, List.cons_append, List.cons.injEq] at hjobs
        obtain ⟨rfl, rfl⟩ := hjobs
        obtain ⟨b, hstate, hclosed, hdata⟩ := onRows_holding hdata hdone
        refine ⟨rfl, taken ++ Copy.rows payload, queued, c, ?_, by simp, isIdle_jobsOf ..⟩
        simp only [Handled.status, hstate, hclosed]
        exact .working hstage (some b) hdata
      | nil =>
        simp only [jobsOf, List.map_nil, List.nil_append] at hjobs
        split at hjobs
        · rename_i hclosed
          subst hclosed
          simp only [List.cons.injEq] at hjobs
          obtain ⟨rfl, rfl⟩ := hjobs
          obtain ⟨hstate, c', hc, hdata⟩ := onClose_holding hdata hdone
          simp only [Handled.status, hstate, hc]
          exact ⟨rfl, taken, [], c', .acking hdata, rfl, isIdle_eq_false_of_status rfl⟩
        · simp at hjobs
    | acking hdata => simp at hrun
    | idle hdata => simp at hjobs
    | dead hstage hdead =>
      rw [hrun] at hdead
      simp [Status.isDead] at hdead

/-- The worker sends its acknowledgement. -/
theorem Follows.sendAck {c' : BlockClosed P}
    (h : Follows run ctx i stage taken queued written c w) (hstatus : w.status = .acking c') :
    c' = c ∧ stage = .closed ∧
      Follows run ctx i stage taken queued written c { w with status := .running } ∧
      isIdle stage ({ w with status := .running } : Worker P) = true := by
  cases h with
  | acking hdata =>
    simp only [Status.acking.injEq] at hstatus
    exact ⟨hstatus.symm, rfl, .idle hdata, rfl⟩
  | dead hstage hdead => simp [hstatus, Status.isDead] at hdead
  | _ => simp at hstatus

theorem countP_jobsOf_le (generation : ℕ) (stage : Stage) (payloads : List Bytes) :
    (jobsOf generation stage payloads).countP Job.isClose ≤ 1 := by
  have hrows : (payloads.map (Job.rows generation)).countP Job.isClose = 0 := by
    rw [List.countP_eq_zero]
    intro job hjob
    obtain ⟨payload, -, rfl⟩ := List.mem_map.mp hjob
    simp [Job.isClose]
  unfold jobsOf
  rw [List.countP_append, hrows]
  split <;> simp [Job.isClose]

/-- The events that a worker has sent for a block and can still send are two at
most: its acknowledgement, and the error that ends its loop. -/
theorem Follows.potential_le (h : Follows run ctx i stage taken queued written c w) :
    (if isIdle stage w then 1 else 0) + (if w.status.hasReported then 1 else 0) + w.potential ≤
      2 := by
  cases h with
  | fresh => simp [isIdle, Status.hasReported, Worker.potential]
  | opening hstage =>
    have hcount := countP_jobsOf_le ctx.generation stage queued
    simpa [isIdle, Status.hasReported, Worker.potential, Job.isClose] using hcount
  | working hstage block hdata =>
    have hcount := countP_jobsOf_le ctx.generation stage queued
    simpa [isIdle_jobsOf, Status.hasReported, Worker.potential] using hcount
  | acking hdata => simp [isIdle, Status.isRunning, Status.hasReported, Worker.potential]
  | idle hdata => simp [isIdle, Status.isRunning, Status.hasReported, Worker.potential]
  | dead hstage hdead =>
    have hidle : isIdle stage w = false := by
      apply isIdle_eq_false_of_status
      cases hw : w.status <;> simp [hw, Status.isRunning, Status.isDead] at hdead ⊢
    cases hw : w.status <;>
      simp [hidle, hw, Status.isDead, Status.hasReported, Worker.potential] at hdead ⊢

/-- A worker of a block that has been sent nothing has no jobs. -/
theorem Follows.stage_ne_waiting {job : Job} {jobs : List Job}
    (h : Follows run ctx i stage taken queued written c w) (hjobs : w.jobs = job :: jobs) :
    stage ≠ .waiting := by
  rintro rfl
  obtain ⟨rfl, -⟩ := h.of_waiting
  simp at hjobs

/-- What a dead worker does is no concern of the block's. -/
theorem Follows.of_dead {w' : Worker P} (h : Follows run ctx i stage taken queued written c w)
    (hdead : w.status.isDead = true) (hdead' : w'.status.isDead = true) :
    Follows run ctx i stage taken queued written c w' := by
  refine .dead ?_ hdead'
  rintro rfl
  obtain ⟨rfl, -⟩ := h.of_waiting
  simp [Status.isDead] at hdead

end

/-- A worker that has left, or that follows some block. -/
def Worker.Sound (run i : ℕ) (w : Worker P) : Prop :=
  w.status.isExited = true ∨
    ∃ ctx stage taken queued written c, Follows run ctx i stage taken queued written c w

theorem Worker.sound_idle (run i : ℕ) : ({} : Worker P).Sound run i :=
  .inr ⟨⟨0, "", [], [], 0, {}, 0, 0, false, false⟩, _, _, _, _, { generation := 0 }, .fresh⟩

theorem isClose_of_closed {state : LoopState} {path : FilePath} {job : Job} {faults : JobFaults}
    {handled : Handled P} {c : BlockClosed P} (h : state.handle path job faults = .ok handled)
    (hclosed : handled.closed = some c) : job.isClose = true := by
  cases job with
  | close generation => rfl
  | openBlock ctx =>
    unfold LoopState.handle at h
    split at h
    · simp at h
    · obtain rfl := Except.ok.inj h
      simp [LoopState.onOpen] at hclosed
  | rows generation bytes =>
    unfold LoopState.handle at h
    split at h
    · simp at h
    · simp only [LoopState.onRows] at h
      split at h
      · simp at h
      · split at h
        · simp at h
        · split at h
          · simp at h
          · obtain rfl := Except.ok.inj h
            simp at hclosed

end PgDelta.Pipeline
