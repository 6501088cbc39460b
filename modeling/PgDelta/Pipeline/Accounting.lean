import PgDelta.Pipeline.Alignment
import PgDelta.Pipeline.Pool

/-!
What holds of a load between any two steps.

`Accounted` ties the point that the reader has reached to the state of the
pool: outside a block every worker is as it began, and inside a block the pool
is `Crewed`. It is kept by every move, whoever makes it.
-/

namespace PgDelta.Pipeline

open PgDelta.Lib PgDelta.Builders PgDelta.Types PgDelta.Scan PgDelta.Sink

variable {P : Platform} {n : ℕ}

/-- Every worker is as it began, and no event is on its way. -/
def Pool.Quiet (p : Pool P n) : Prop := p.workers = (fun _ => {}) ∧ p.events = []

/-- The events on their way and those that can still come leave the event queue
with room. -/
def Pool.Bounded (p : Pool P n) : Prop :=
  p.events.length + ∑ i, (p.workers i).potential ≤ 2 * n

namespace System

/-- The pool is at work on a block of which the reader has reached some stage
with every worker. -/
structure InHand (L : Load) (r : Reader P) (p : Pool P n) (block : OpenBlock) (ctx : BlockCtx)
    (stage : Fin n → Stage) (collected : List (BlockClosed P)) : Prop where
  context : ∃ uri, ctx = Reader.blockCtx L.cfg block.generation uri block.columns
  generation : block.generation = r.generation
  tables : r.tables.length + 1 = r.generation
  crew : ∃ l, Crewed L.run ctx stage collected l p

/-- All jobs are sent. -/
def Settled (L : Load) (r : Reader P) (p : Pool P n) : Prop :=
  match r.current with
  | none => p.Quiet ∧ r.tables.length = r.generation
  | some block => ∃ ctx, InHand L r p block ctx (fun _ => .opened) []

def Sending (L : Load) (r : Reader P) (p : Pool P n) (sends : List (Fin n × Job)) : After → Prop
  | .resume =>
    Settled L r p ∧ (sends = [] ∨ ∃ block i payload, r.current = some block ∧
      sends = [(i, .rows block.generation payload)])
  | .opened block =>
    r.current = none ∧ ∃ (ctx : BlockCtx) (is : List (Fin n)), is.Nodup ∧
      sends = is.map (fun i => (i, .openBlock ctx)) ∧
      InHand L r p block ctx (fun j => if j ∈ is then .waiting else .opened) []
  | .collect block =>
    r.current = none ∧ ∃ (ctx : BlockCtx) (is : List (Fin n)), is.Nodup ∧
      sends = is.map (fun i => (i, .close block.generation)) ∧
      InHand L r p block ctx (fun j => if j ∈ is then .opened else .closed) []

def Standing (L : Load) (s : System P n) : Prop :=
  match s.point with
  | .reading => Settled L s.reader s.pool
  | .handling _ => Settled L s.reader s.pool
  | .dispatching i job rest after _ => Sending L s.reader s.pool ((i, job) :: rest) after
  | .failedSend =>
    (∃ i, (s.workers i).status.isExited = true) ∧
      ∃ block ctx stage, InHand L s.reader s.pool block ctx stage []
  | .collecting block acks _ =>
    s.reader.current = none ∧
      ∃ ctx collected, InHand L s.reader s.pool block ctx (fun _ => .closed) collected ∧
      acks = collected.foldl Acks.add (.start block) ∧ collected.length < n
  | .committing _ _ => s.pool.Quiet
  | .recording _ => s.pool.Quiet
  | .done (.ok _) =>
    s.pool.Bounded ∧ ∀ i, s.workers i = {} ∨ s.workers i = { status := .exited }
  | .done (.error _) => s.pool.Bounded ∧ ∀ i : Fin n, (s.workers i).Sound L.run i

structure Accounted (L : Load) (s : System P n) : Prop where
  dispatched : ∀ d ∈ s.trace.dispatched, d.1 ≤ s.reader.generation
  written : ∀ w ∈ s.trace.written, w.1 ≤ s.reader.generation
  /-- A job belongs to a block that has not been recorded yet. -/
  jobs : ∀ i, ∀ job ∈ (s.workers i).jobs,
    s.reader.tables.length < job.generation ∧ job.generation ≤ s.reader.generation
  standing : s.Standing L

end System

theorem Pool.Quiet.bounded {p : Pool P n} (h : p.Quiet) : p.Bounded := by
  obtain ⟨hworkers, hevents⟩ := h
  simp only [Pool.Bounded, hworkers, hevents, Worker.potential]
  simp
  omega

theorem Pool.Quiet.sound {p : Pool P n} (h : p.Quiet) (run : ℕ) (i : Fin n) :
    (p.workers i).Sound run i := by
  rw [h.1]
  exact Worker.sound_idle run i

theorem System.InHand.sound {L : Load} {r : Reader P} {p : Pool P n} {block : OpenBlock}
    {ctx : BlockCtx} {stage : Fin n → Stage} {collected : List (BlockClosed P)}
    (h : InHand L r p block ctx stage collected) (i : Fin n) : (p.workers i).Sound L.run i := by
  obtain ⟨l, hcrew⟩ := h.crew
  exact .inr ⟨_, _, _, _, _, _, hcrew.follows i⟩

theorem System.InHand.bounded {L : Load} {r : Reader P} {p : Pool P n} {block : OpenBlock}
    {ctx : BlockCtx}
    {stage : Fin n → Stage} {collected : List (BlockClosed P)}
    (h : InHand L r p block ctx stage collected) : p.Bounded := by
  obtain ⟨l, hcrew⟩ := h.crew
  exact hcrew.events_add_potential_le

namespace System

variable {L : Load} {s : System P n} {r : Reader P} {p : Pool P n}

theorem Settled.bounded (h : Settled L r p) : p.Bounded := by
  unfold Settled at h
  split at h
  · exact h.1.bounded
  · obtain ⟨ctx, h⟩ := h
    exact h.bounded

theorem Sending.bounded {sends : List (Fin n × Job)} {after : After}
    (h : Sending L r p sends after) : p.Bounded := by
  cases after with
  | resume => exact h.1.bounded
  | opened block =>
    obtain ⟨-, ctx, is, -, -, h⟩ := h
    exact h.bounded
  | collect block =>
    obtain ⟨-, ctx, is, -, -, h⟩ := h
    exact h.bounded

theorem Settled.sound (h : Settled L r p) (i : Fin n) : (p.workers i).Sound L.run i := by
  unfold Settled at h
  split at h
  · exact h.1.sound L.run i
  · obtain ⟨ctx, h⟩ := h
    exact h.sound i

theorem Sending.sound {sends : List (Fin n × Job)} {after : After}
    (h : Sending L r p sends after) (i : Fin n) : (p.workers i).Sound L.run i := by
  cases after with
  | resume => exact h.1.sound i
  | opened block =>
    obtain ⟨-, ctx, is, -, -, h⟩ := h
    exact h.sound i
  | collect block =>
    obtain ⟨-, ctx, is, -, -, h⟩ := h
    exact h.sound i

theorem Standing.sound (h : s.Standing L) (i : Fin n) : (s.workers i).Sound L.run i := by
  unfold Standing at h
  split at h
  · exact h.sound i
  · exact h.sound i
  · exact h.sound i
  · obtain ⟨-, block, ctx, stage, h⟩ := h
    exact h.sound i
  · obtain ⟨-, ctx, collected, h, -⟩ := h
    exact h.sound i
  · exact h.sound L.run i
  · exact h.sound L.run i
  · obtain ⟨-, h⟩ := h
    rcases h i with hw | hw
    · rw [hw]
      exact Worker.sound_idle L.run i
    · exact .inl (by rw [hw]; rfl)
  · exact h.2 i

/-- Wherever the load stands, the event queue has room for what can come. -/
theorem Standing.bounded (h : s.Standing L) : s.pool.Bounded := by
  unfold Standing at h
  split at h
  · exact h.bounded
  · exact h.bounded
  · exact h.bounded
  · obtain ⟨-, block, ctx, stage, h⟩ := h
    exact h.bounded
  · obtain ⟨-, ctx, collected, h, -⟩ := h
    exact h.bounded
  · exact h.bounded
  · exact h.bounded
  · exact h.1
  · exact h.1

/-! ### Jobs are sent -/

@[simp] theorem dispatching_pool (s : System P n) (sends : List (Fin n × Job)) (after : After)
    (events : List Event) : (s.dispatching sends after events).pool = s.pool := by
  cases sends <;> rfl

@[simp] theorem dispatching_trace (s : System P n) (sends : List (Fin n × Job)) (after : After)
    (events : List Event) : (s.dispatching sends after events).trace = s.trace := by
  cases sends <;> rfl

@[simp] theorem dispatching_workers (s : System P n) (sends : List (Fin n × Job)) (after : After)
    (events : List Event) : (s.dispatching sends after events).workers = s.workers := by
  cases sends <;> rfl

@[simp] theorem afterSends_generation (r : Reader P) (after : After) :
    (r.afterSends after).generation = r.generation := by
  cases after <;> rfl

@[simp] theorem afterSends_tables (r : Reader P) (after : After) :
    (r.afterSends after).tables = r.tables := by
  cases after <;> rfl

@[simp] theorem dispatching_generation (s : System P n) (sends : List (Fin n × Job))
    (after : After) (events : List Event) :
    (s.dispatching sends after events).reader.generation = s.reader.generation := by
  cases sends
  · simp [dispatching, resume]
  · rfl

@[simp] theorem dispatching_tables (s : System P n) (sends : List (Fin n × Job))
    (after : After) (events : List Event) :
    (s.dispatching sends after events).reader.tables = s.reader.tables := by
  cases sends
  · simp [dispatching, resume]
  · rfl

/-- Behind the last job of an event the reader goes on. -/
theorem Sending.standing [NeZero n] {sends : List (Fin n × Job)} {after : After}
    (h : Sending L s.reader s.pool sends after) (events : List Event) :
    (s.dispatching sends after events).Standing L := by
  cases sends with
  | cons send sends => exact h
  | nil =>
    cases after with
    | resume => exact h.1
    | opened block =>
      obtain ⟨-, ctx, is, -, hsends, hhand⟩ := h
      obtain rfl : is = [] := by simpa using hsends
      exact ⟨ctx, hhand.context, hhand.generation, hhand.tables, by simpa using hhand.crew⟩
    | collect block =>
      obtain ⟨hcurrent, ctx, is, -, hsends, hhand⟩ := h
      obtain rfl : is = [] := by simpa using hsends
      exact ⟨hcurrent, ctx, [], ⟨hhand.context, hhand.generation, hhand.tables,
        by simpa using hhand.crew⟩, rfl, NeZero.pos n⟩

/-- The pool behind one more job for a worker. -/
def sent (p : Pool P n) (i : Fin n) (job : Job) : Pool P n where
  workers := Function.update p.workers i
    { p.workers i with jobs := (p.workers i).jobs ++ [job] }
  events := p.events
  trace := recordDispatch p.trace job

theorem InHand.context_generation {block : OpenBlock} {ctx : BlockCtx} {stage : Fin n → Stage}
    {collected : List (BlockClosed P)} (h : InHand L r p block ctx stage collected) :
    ctx.generation = block.generation := by
  obtain ⟨uri, rfl⟩ := h.context
  rfl

/-- One more worker has been told. -/
theorem update_told (i : Fin n) (is : List (Fin n)) (hi : i ∉ is) (before after : Stage) :
    Function.update (fun j => if j ∈ i :: is then before else after) i after =
      fun j => if j ∈ is then before else after := by
  funext j
  rcases eq_or_ne j i with rfl | hj
  · simp [hi]
  · simp [hj]

theorem Sending.send {i : Fin n} {job : Job} {rest : List (Fin n × Job)} {after : After}
    (h : Sending L r p ((i, job) :: rest) after) : Sending L r (sent p i job) rest after := by
  cases after with
  | resume =>
    obtain ⟨hsettled, hsends⟩ := h
    obtain ⟨block, i', payload, hcurrent, hsends⟩ := hsends.resolve_left (by simp)
    obtain ⟨⟨rfl, rfl⟩, rfl⟩ : (i = i' ∧ job = .rows block.generation payload) ∧ rest = [] := by
      simpa using hsends
    refine ⟨?_, .inl rfl⟩
    simp only [Settled, hcurrent] at hsettled ⊢
    obtain ⟨ctx, hhand⟩ := hsettled
    obtain ⟨l, hcrew⟩ := hhand.crew
    refine ⟨ctx, hhand.context, hhand.generation, hhand.tables, ?_⟩
    rw [← hhand.context_generation]
    exact hcrew.send_rows rfl payload
  | opened block =>
    obtain ⟨hcurrent, ctx, is, hnodup, hsends, hhand⟩ := h
    obtain ⟨l, hcrew⟩ := hhand.crew
    cases is with
    | nil => simp at hsends
    | cons i' is =>
      obtain ⟨⟨rfl, rfl⟩, rfl⟩ : (i = i' ∧ job = .openBlock ctx) ∧
          rest = is.map fun i => (i, .openBlock ctx) := by simpa using hsends
      obtain ⟨hi, hnodup⟩ := List.nodup_cons.mp hnodup
      refine ⟨hcurrent, ctx, is, hnodup, rfl, hhand.context, hhand.generation, hhand.tables, ?_⟩
      have hcrew' := hcrew.send_open (i := i) (by simp)
      rwa [update_told i is hi] at hcrew'
  | collect block =>
    obtain ⟨hcurrent, ctx, is, hnodup, hsends, hhand⟩ := h
    obtain ⟨l, hcrew⟩ := hhand.crew
    cases is with
    | nil => simp at hsends
    | cons i' is =>
      obtain ⟨⟨rfl, rfl⟩, rfl⟩ : (i = i' ∧ job = .close block.generation) ∧
          rest = is.map fun i => (i, .close block.generation) := by simpa using hsends
      obtain ⟨hi, hnodup⟩ := List.nodup_cons.mp hnodup
      refine ⟨hcurrent, ctx, is, hnodup, rfl, hhand.context, hhand.generation, hhand.tables, ?_⟩
      have hcrew' := hcrew.send_close (i := i) (by simp)
      rw [update_told i is hi, hhand.context_generation] at hcrew'
      exact hcrew'

/-- A job that is about to be sent belongs to the block in hand. -/
theorem Sending.job_generation {i : Fin n} {job : Job} {rest : List (Fin n × Job)} {after : After}
    (h : Sending L r p ((i, job) :: rest) after) :
    job.generation = r.generation ∧ r.tables.length + 1 = r.generation := by
  cases after with
  | resume =>
    obtain ⟨hsettled, hsends⟩ := h
    obtain ⟨block, i', payload, hcurrent, hsends⟩ := hsends.resolve_left (by simp)
    obtain ⟨⟨rfl, rfl⟩, rfl⟩ : (i = i' ∧ job = .rows block.generation payload) ∧ rest = [] := by
      simpa using hsends
    simp only [Settled, hcurrent] at hsettled
    obtain ⟨ctx, hhand⟩ := hsettled
    exact ⟨hhand.generation, hhand.tables⟩
  | opened block =>
    obtain ⟨-, ctx, is, -, hsends, hhand⟩ := h
    cases is with
    | nil => simp at hsends
    | cons i' is =>
      obtain ⟨⟨rfl, rfl⟩, rfl⟩ : (i = i' ∧ job = .openBlock ctx) ∧
          rest = is.map fun i => (i, .openBlock ctx) := by simpa using hsends
      exact ⟨hhand.context_generation.trans hhand.generation, hhand.tables⟩
  | collect block =>
    obtain ⟨-, ctx, is, -, hsends, hhand⟩ := h
    cases is with
    | nil => simp at hsends
    | cons i' is =>
      obtain ⟨⟨rfl, rfl⟩, rfl⟩ : (i = i' ∧ job = .close block.generation) ∧
          rest = is.map fun i => (i, .close block.generation) := by simpa using hsends
      exact ⟨hhand.generation, hhand.tables⟩

/-- A send that fails finds the block in hand. -/
theorem Sending.inHand {i : Fin n} {job : Job} {rest : List (Fin n × Job)} {after : After}
    (h : Sending L r p ((i, job) :: rest) after) :
    ∃ block ctx stage, InHand L r p block ctx stage [] := by
  cases after with
  | resume =>
    obtain ⟨hsettled, hsends⟩ := h
    obtain ⟨block, i', payload, hcurrent, -⟩ := hsends.resolve_left (by simp)
    simp only [Settled, hcurrent] at hsettled
    obtain ⟨ctx, hhand⟩ := hsettled
    exact ⟨block, ctx, _, hhand⟩
  | opened block =>
    obtain ⟨-, ctx, is, -, -, hhand⟩ := h
    exact ⟨block, ctx, _, hhand⟩
  | collect block =>
    obtain ⟨-, ctx, is, -, -, hhand⟩ := h
    exact ⟨block, ctx, _, hhand⟩

/-! ### A worker moves -/

/-- A move of one worker that keeps any crew keeps the standing. -/
theorem Standing.crewMove (h : s.Standing L) (hlive : s.isDone = false) (hbusy : ¬ s.pool.Quiet)
    {p' : Pool P n}
    (hexited : ∀ i, (s.workers i).status.isExited = true → (p'.workers i).status.isExited = true)
    (hcrew : ∀ ctx stage collected l, Crewed L.run ctx stage collected l s.pool →
      ∃ l', Crewed L.run ctx stage collected l' p') :
    ({ s with workers := p'.workers, events := p'.events, trace := p'.trace } : System P n).Standing
      L := by
  have hhand : ∀ {block ctx stage collected}, InHand L s.reader s.pool block ctx stage collected →
      InHand L s.reader p' block ctx stage collected := by
    rintro block ctx stage collected ⟨hcontext, hgeneration, htables, l, h⟩
    exact ⟨hcontext, hgeneration, htables, hcrew _ _ _ _ h⟩
  have hsettled : Settled L s.reader s.pool → Settled L s.reader p' := by
    intro h
    unfold Settled at h ⊢
    split at h
    · exact absurd h.1 hbusy
    · obtain ⟨ctx, h⟩ := h
      exact ⟨ctx, hhand h⟩
  unfold Standing at h ⊢
  cases hp : s.point with
  | reading =>
    simp only [hp] at h ⊢
    exact hsettled h
  | handling events =>
    simp only [hp] at h ⊢
    exact hsettled h
  | dispatching i job rest after events =>
    simp only [hp] at h ⊢
    cases after with
    | resume => exact ⟨hsettled h.1, h.2⟩
    | opened block =>
      obtain ⟨hcurrent, ctx, is, hnodup, hsends, h⟩ := h
      exact ⟨hcurrent, ctx, is, hnodup, hsends, hhand h⟩
    | collect block =>
      obtain ⟨hcurrent, ctx, is, hnodup, hsends, h⟩ := h
      exact ⟨hcurrent, ctx, is, hnodup, hsends, hhand h⟩
  | failedSend =>
    simp only [hp] at h ⊢
    obtain ⟨⟨i, hi⟩, block, ctx, stage, h⟩ := h
    exact ⟨⟨i, hexited i hi⟩, block, ctx, stage, hhand h⟩
  | collecting block acks events =>
    simp only [hp] at h ⊢
    obtain ⟨hcurrent, ctx, collected, h, hacks⟩ := h
    exact ⟨hcurrent, ctx, collected, hhand h, hacks⟩
  | committing dumpedBy b =>
    simp only [hp] at h
    exact absurd h hbusy
  | recording report =>
    simp only [hp] at h
    exact absurd h hbusy
  | done result => simp [isDone, hp] at hlive

/-- A move that adds no more to the event queue than it spends. -/
theorem bounded_set {p : Pool P n} (h : p.Bounded) (i : Fin n) {w : Worker P}
    (more : List (WorkerEvent P)) (trace : Trace)
    (hw : w.potential + more.length ≤ (p.workers i).potential) :
    (⟨Function.update p.workers i w, p.events ++ more, trace⟩ : Pool P n).Bounded := by
  have hsum := sum_update Worker.potential p.workers i w
  unfold Pool.Bounded at h ⊢
  simp only [List.length_append]
  omega

/-- The moves of a worker that has something to do. -/
inductive WorkerMove (run : ℕ) (i : Fin n) (w : Worker P) :
    Worker P → List (WorkerEvent P) → List (ℕ × RecordBatch) → Prop
  | job (job : Job) (jobs : List Job) (faults : JobFaults) (handled : Handled P)
      (hrun : w.status = .running) (hjobs : w.jobs = job :: jobs)
      (h : w.state.handle ⟨run, job.generation, i, 0⟩ job faults = .ok handled) :
      WorkerMove run i w ⟨jobs, handled.state, handled.status⟩ []
        (handled.written.map fun b => (job.generation, b))
  | jobFailed (job : Job) (jobs : List Job) (faults : JobFaults) (e : Error)
      (hrun : w.status = .running) (hjobs : w.jobs = job :: jobs)
      (h : w.state.handle (P := P) ⟨run, job.generation, i, 0⟩ job faults = .error e) :
      WorkerMove run i w { w with jobs := jobs, status := .failing e } [] []
  | sendAck (c : BlockClosed P) (hstatus : w.status = .acking c) :
      WorkerMove run i w { w with status := .running } [.closed c] []
  | sendFailure (e : Error) (hstatus : w.status = .failing e) :
      WorkerMove run i w { w with status := .reported } [.failed e] []
  | exit (hstatus : w.status = .reported) : WorkerMove run i w { w with status := .exited } [] []

namespace WorkerMove

variable {run : ℕ} {i : Fin n} {w w' : Worker P} {more : List (WorkerEvent P)}
  {written : List (ℕ × RecordBatch)}

theorem potential_le (h : WorkerMove run i w w' more written) :
    w'.potential + more.length ≤ w.potential := by
  cases h with
  | job job jobs faults handled hrun hjobs h =>
    cases hclosed : handled.closed with
    | none =>
      simp only [Worker.potential, hrun, hjobs, Handled.status, hclosed, List.countP_cons,
        List.length_nil]
      omega
    | some c =>
      simp only [Worker.potential, hrun, hjobs, Handled.status, hclosed, List.countP_cons,
        isClose_of_closed h hclosed, List.length_nil, if_true]
      omega
  | jobFailed job jobs faults e hrun hjobs h => simp [Worker.potential, hrun]
  | sendAck c hstatus => simp [Worker.potential, hstatus]
  | sendFailure e hstatus => simp [Worker.potential, hstatus]
  | exit hstatus => simp [Worker.potential, hstatus]

theorem crewed (h : WorkerMove run i w w' more written) {ctx : BlockCtx} {stage : Fin n → Stage}
    {collected : List (BlockClosed P)} {l : Ledger P n} {p : Pool P n} (hw : p.workers i = w)
    (hcrew : Crewed run ctx stage collected l p) :
    ∃ l', Crewed run ctx stage collected l'
      ⟨Function.update p.workers i w', p.events ++ more,
        { p.trace with written := p.trace.written ++ written }⟩ := by
  subst hw
  cases h with
  | job job jobs faults handled hrun hjobs h =>
    obtain ⟨-, l', hcrew'⟩ := hcrew.job hrun hjobs h
    exact ⟨l', by simpa using hcrew'⟩
  | jobFailed job jobs faults e hrun hjobs h => simpa using hcrew.jobFailed hrun hjobs e
  | sendAck c hstatus => simpa using hcrew.sendAck hstatus
  | sendFailure e hstatus => simpa using hcrew.sendFailure hstatus
  | exit hstatus => simpa using hcrew.exit hstatus

theorem sound (h : WorkerMove run i w w' more written) (hw : w.Sound run i) :
    w'.Sound run i := by
  rcases hw with hexited | ⟨ctx, stage, taken, queued, out, c, hfollows⟩
  · cases hstatus : w.status with
    | exited =>
      cases h with
      | job job jobs faults handled hrun hjobs h => simp [hstatus] at hrun
      | jobFailed job jobs faults e hrun hjobs h => simp [hstatus] at hrun
      | sendAck c hstatus' => simp [hstatus] at hstatus'
      | sendFailure e hstatus' => simp [hstatus] at hstatus'
      | exit hstatus' => simp [hstatus] at hstatus'
    | _ => simp [hstatus, Status.isExited] at hexited
  · cases h with
    | job job jobs faults handled hrun hjobs h =>
      obtain ⟨-, taken', queued', c', hfollows', -⟩ := hfollows.job hrun hjobs h
      exact .inr ⟨_, _, _, _, _, _, hfollows'⟩
    | jobFailed job jobs faults e hrun hjobs h =>
      exact .inr ⟨ctx, stage, taken, queued, out, c, .dead (hfollows.stage_ne_waiting hjobs) rfl⟩
    | sendAck c hstatus => exact .inr ⟨_, _, _, _, _, _, (hfollows.sendAck hstatus).2.2.1⟩
    | sendFailure e hstatus =>
      exact .inr ⟨_, _, _, _, _, _, hfollows.of_dead (by simp [hstatus, Status.isDead]) rfl⟩
    | exit hstatus => exact .inl rfl

theorem ne_idle (h : WorkerMove run i w w' more written) : w ≠ {} := by
  rintro rfl
  cases h with
  | job job jobs faults handled hrun hjobs h => simp at hjobs
  | jobFailed job jobs faults e hrun hjobs h => simp at hjobs
  | sendAck c hstatus => simp at hstatus
  | sendFailure e hstatus => simp at hstatus
  | exit hstatus => simp at hstatus

theorem not_exited (h : WorkerMove run i w w' more written) : w.status.isExited = false := by
  cases h with
  | job job jobs faults handled hrun hjobs h => simp [hrun, Status.isExited]
  | jobFailed job jobs faults e hrun hjobs h => simp [hrun, Status.isExited]
  | sendAck c hstatus => simp [hstatus, Status.isExited]
  | sendFailure e hstatus => simp [hstatus, Status.isExited]
  | exit hstatus => simp [hstatus, Status.isExited]

/-- Only jobs that were in the queue are left, and what is written belongs to
one of them. -/
theorem jobs_subset (h : WorkerMove run i w w' more written) :
    (∀ job ∈ w'.jobs, job ∈ w.jobs) ∧
      ∀ b ∈ written, ∃ job ∈ w.jobs, b.1 = job.generation := by
  cases h with
  | job job jobs faults handled hrun hjobs h =>
    refine ⟨fun j hj => by simp [hjobs, hj], fun b hb => ⟨job, by simp [hjobs], ?_⟩⟩
    obtain ⟨batch, -, rfl⟩ := List.mem_map.mp hb
    rfl
  | jobFailed job jobs faults e hrun hjobs h => exact ⟨fun j hj => by simp [hjobs, hj], by simp⟩
  | _ => exact ⟨fun j hj => hj, by simp⟩

end WorkerMove

def moved (s : System P n) (i : Fin n) (w : Worker P) (more : List (WorkerEvent P))
    (written : List (ℕ × RecordBatch)) : System P n :=
  { s with
    workers := Function.update s.workers i w
    events := s.events ++ more
    trace := { s.trace with written := s.trace.written ++ written } }

theorem Standing.worker (h : s.Standing L) {i : Fin n} {w : Worker P}
    {more : List (WorkerEvent P)} {written : List (ℕ × RecordBatch)}
    (hmove : WorkerMove L.run i (s.workers i) w more written) :
    (s.moved i w more written).Standing L := by
  cases hdone : s.isDone with
  | false =>
    refine h.crewMove hdone ?_ ?_ fun ctx stage collected l hcrew => hmove.crewed rfl hcrew
    · intro hquiet
      exact hmove.ne_idle (congrFun hquiet.1 i)
    · intro j hj
      rcases eq_or_ne j i with rfl | hji
      · rw [hmove.not_exited] at hj
        cases hj
      · simpa [hji, pool] using hj
  | true =>
    have hbounded : (s.moved i w more written).pool.Bounded :=
      bounded_set h.bounded i more _ hmove.potential_le
    have hsound : ∀ j : Fin n, ((s.moved i w more written).workers j).Sound L.run j := by
      intro j
      rcases eq_or_ne j i with rfl | hji
      · simpa [moved] using hmove.sound (h.sound j)
      · simpa [moved, hji] using h.sound j
    cases hp : s.point with
    | done result =>
      have hp' : (s.moved i w more written).point = .done result := hp
      cases result with
      | error e =>
        simp only [Standing, hp']
        exact ⟨hbounded, hsound⟩
      | ok report =>
        simp only [Standing, hp] at h
        rcases h.2 i with hw | hw
        · exact absurd hw hmove.ne_idle
        · have hexited := hmove.not_exited
          rw [hw] at hexited
          cases hexited
    | _ => simp [isDone, hp] at hdone

theorem Standing.leave (h : s.Standing L) {i : Fin n} (hstatus : (s.workers i).status = .running)
    (hjobs : (s.workers i).jobs = []) (hdone : s.isDone = true) :
    (s.setWorker i { s.workers i with status := .exited }).Standing L := by
  have hbounded : (s.setWorker i { s.workers i with status := .exited }).pool.Bounded := by
    have h' := bounded_set h.bounded i (w := { s.workers i with status := .exited }) [] s.trace
      (by simp [Worker.potential])
    simpa [pool, setWorker] using h'
  cases hp : s.point with
  | done result =>
    have hp' : (s.setWorker i { s.workers i with status := .exited }).point = .done result := hp
    cases result with
    | error e =>
      simp only [Standing, hp']
      refine ⟨hbounded, fun j => ?_⟩
      rcases eq_or_ne j i with rfl | hji
      · exact .inl (by simp [setWorker, Status.isExited])
      · simpa [setWorker, hji] using h.sound j
    | ok report =>
      simp only [Standing, hp']
      simp only [Standing, hp] at h
      refine ⟨hbounded, fun j => ?_⟩
      rcases eq_or_ne j i with rfl | hji
      · rcases h.2 j with hw | hw
        · right
          simp [setWorker, hw]
        · simp [hw] at hstatus
      · simpa [setWorker, hji] using h.2 j
  | _ => simp [isDone, hp] at hdone

/-! ### The reader moves -/

theorem InHand.congr {block : OpenBlock} {ctx : BlockCtx} {stage : Fin n → Stage}
    {collected : List (BlockClosed P)} (h : InHand L r p block ctx stage collected)
    {r' : Reader P} (hgeneration : r'.generation = r.generation) (htables : r'.tables = r.tables) :
    InHand L r' p block ctx stage collected :=
  ⟨h.context, h.generation.trans hgeneration.symm, by rw [htables, hgeneration]; exact h.tables,
    h.crew⟩

theorem Settled.congr (h : Settled L r p) {r' : Reader P} (hcurrent : r'.current = r.current)
    (hgeneration : r'.generation = r.generation) (htables : r'.tables = r.tables) :
    Settled L r' p := by
  unfold Settled at h ⊢
  rw [hcurrent]
  split
  · rename_i hnone
    simp only [hnone] at h
    exact ⟨h.1, by rw [htables, hgeneration]; exact h.2⟩
  · rename_i block hblock
    simp only [hblock] at h
    obtain ⟨ctx, h⟩ := h
    exact ⟨ctx, h.congr hgeneration htables⟩

/-- No line and no batch of the next generation has been seen. -/
theorem fresh_generation {t : Trace} {generation : ℕ}
    (hdispatched : ∀ d ∈ t.dispatched, d.1 ≤ generation)
    (hwritten : ∀ w ∈ t.written, w.1 ≤ generation) :
    t.linesOf (generation + 1) = [] ∧ t.batchesOf (generation + 1) = [] := by
  constructor
  · have hnone : t.dispatched.filter (fun d => d.1 = generation + 1) = [] := by
      rw [List.filter_eq_nil_iff]
      intro d hd
      have := hdispatched d hd
      simp only [decide_eq_true_eq]
      omega
    simp [Trace.linesOf, hnone]
  · have hnone : t.written.filter (fun w => w.1 = generation + 1) = [] := by
      rw [List.filter_eq_nil_iff]
      intro w hw
      have := hwritten w hw
      simp only [decide_eq_true_eq]
      omega
    simp [Trace.batchesOf, hnone]

/-- The jobs of an event are about to be sent. -/
theorem Settled.reacts [NeZero n] {σ σ' : Store P} {o : Outside} {event : Event}
    {reaction : Reaction P n} (h : Settled L r p)
    (hreacts : Reader.Reacts L.cfg σ r o event reaction σ')
    (hdispatched : ∀ d ∈ p.trace.dispatched, d.1 ≤ r.generation)
    (hwritten : ∀ w ∈ p.trace.written, w.1 ≤ r.generation) :
    Sending L reaction.reader p reaction.sends reaction.after ∧
      reaction.reader.tables = r.tables ∧ r.generation ≤ reaction.reader.generation := by
  cases hreacts with
  | version dumpedBy fromDatabase => exact ⟨⟨h.congr rfl rfl rfl, .inl rfl⟩, rfl, le_refl _⟩
  | table definition => exact ⟨⟨h.congr rfl rfl rfl, .inl rfl⟩, rfl, le_refl _⟩
  | skips table columns hcurrent hwanted =>
    exact ⟨⟨h.congr rfl rfl rfl, .inl rfl⟩, rfl, le_refl _⟩
  | skipRows payload hskipping => exact ⟨⟨h, .inl rfl⟩, rfl, le_refl _⟩
  | skipEnd table hskipping => exact ⟨⟨h.congr rfl rfl rfl, .inl rfl⟩, rfl, le_refl _⟩
  | rows payload hskipping block hcurrent =>
    exact ⟨⟨h.congr rfl rfl rfl, .inr ⟨block, _, payload, hcurrent, rfl⟩⟩, rfl, le_refl _⟩
  | opens table names hcurrent hwanted hreserved definition hdefinition columns hcolumns preloaded
      hpreloaded opened σ' hopened =>
    simp only [Settled, hcurrent] at h
    obtain ⟨⟨hworkers, hevents⟩, htables⟩ := h
    obtain ⟨hlines, hbatches⟩ := fresh_generation hdispatched hwritten
    refine ⟨⟨hcurrent, _, List.finRange n, List.nodup_finRange n, rfl, ⟨opened.uri, rfl⟩, rfl, ?_,
      .fresh (r.generation + 1), ?_⟩, rfl, Nat.le_succ _⟩
    · simpa [Reader.openBlock] using htables
    · have hpool : p = ⟨fun _ => {}, [], p.trace⟩ := by
        cases p
        simp only at hworkers hevents
        rw [hworkers, hevents]
      have hcrew : Crewed L.run (Reader.blockCtx L.cfg (r.generation + 1) opened.uri columns)
          (fun _ => Stage.waiting) [] (.fresh _) (⟨fun _ => {}, [], p.trace⟩ : Pool P n) :=
        Crewed.fresh L.run _ hlines hbatches
      rw [hpool]
      simpa [Reader.blockCtx] using hcrew
  | ends table hskipping block hcurrent htable =>
    simp only [Settled, hcurrent] at h
    obtain ⟨ctx, hhand⟩ := h
    refine ⟨⟨rfl, ctx, List.finRange n, List.nodup_finRange n, rfl, hhand.context,
      hhand.generation, hhand.tables, ?_⟩, rfl, le_refl _⟩
    simpa using hhand.crew

/-- The last acknowledgement leaves the pool as it was before the block. -/
theorem InHand.close {block : OpenBlock} {ctx : BlockCtx} {stage : Fin n → Stage}
    {collected : List (BlockClosed P)} (h : InHand L r p block ctx stage collected)
    {c : BlockClosed P} {queue : List (WorkerEvent P)} (hq : p.events = .closed c :: queue)
    (hlast : n ≤ collected.length + 1) :
    Pool.Quiet (⟨p.workers, queue, p.trace⟩ : Pool P n) := by
  obtain ⟨l, hcrew⟩ := h.crew
  obtain ⟨hworkers, hevents, -⟩ := (hcrew.collect hq).finished (by simpa using hlast)
  exact ⟨hworkers, hevents⟩

theorem length_collected {collected : List (BlockClosed P)} (a : Acks P) :
    (collected.foldl Acks.add a).acked = a.acked + collected.length := by
  induction collected generalizing a with
  | nil => rfl
  | cons c collected ih =>
    rw [List.foldl_cons, ih]
    simp only [Acks.add, List.length_cons]
    omega

theorem Accounted.same {t : System P n} (h : s.Accounted L) (htrace : t.trace = s.trace)
    (hworkers : t.workers = s.workers) (hgeneration : t.reader.generation = s.reader.generation)
    (htables : t.reader.tables = s.reader.tables) (hstanding : t.Standing L) : t.Accounted L where
  dispatched := by rw [htrace, hgeneration]; exact h.dispatched
  written := by rw [htrace, hgeneration]; exact h.written
  jobs := by rw [hworkers, hgeneration, htables]; exact h.jobs
  standing := hstanding

theorem Accounted.worker (h : s.Accounted L) {i : Fin n} {w : Worker P}
    {more : List (WorkerEvent P)} {written : List (ℕ × RecordBatch)}
    (hmove : WorkerMove L.run i (s.workers i) w more written) :
    (s.moved i w more written).Accounted L where
  dispatched := h.dispatched
  written := by
    intro b hb
    rcases List.mem_append.mp hb with hb | hb
    · exact h.written b hb
    · obtain ⟨job, hjob, hgeneration⟩ := hmove.jobs_subset.2 b hb
      rw [hgeneration]
      exact (h.jobs i job hjob).2
  jobs := by
    intro j job hjob
    rcases eq_or_ne j i with rfl | hji
    · exact h.jobs j job (hmove.jobs_subset.1 job (by simpa [moved] using hjob))
    · exact h.jobs j job (by simpa [moved, hji] using hjob)
  standing := h.standing.worker hmove

/-- Every move keeps the accounts. -/
theorem Accounted.move [NeZero n] {t : System P n} {a : Label n} (h : s.Accounted L)
    (haligned : s.Aligned L) (hmove : Move L s a t) : t.Accounted L := by
  have hstanding := h.standing
  unfold Standing at hstanding
  -- However the load stops, the generation stays and the queue only gets shorter.
  have hstop : ∀ {r : Reader P} {σ : Store P} {queue : List (WorkerEvent P)} {e : Error},
      queue <:+ s.events → r.generation = s.reader.generation →
      (∀ i, ∀ job ∈ (s.workers i).jobs, r.tables.length < job.generation) →
      ({ s with store := σ, reader := r, events := queue, point := .done (.error e) } :
        System P n).Accounted L := by
    intro r σ queue e hqueue hgeneration hjobs
    refine ⟨?_, ?_, ?_, ?_, h.standing.sound⟩
    · simpa [hgeneration] using h.dispatched
    · simpa [hgeneration] using h.written
    · intro i job hjob
      exact ⟨hjobs i job hjob, by simpa [hgeneration] using (h.jobs i job hjob).2⟩
    · have hbounded := h.standing.bounded
      unfold Pool.Bounded at hbounded ⊢
      have hlen := hqueue.length_le
      simp only [pool] at hbounded ⊢
      omega
  have hjobs : ∀ i, ∀ job ∈ (s.workers i).jobs, s.reader.tables.length < job.generation :=
    fun i job hjob => (h.jobs i job hjob).1
  cases hmove with
  | read o hp chunk chunks hc scanner events hf =>
    simp only [hp] at hstanding
    exact h.same rfl rfl rfl rfl (hstanding.congr rfl rfl rfl)
  | finish o hp hc he hf dumpedBy hd =>
    have hwithin := haligned.2
    simp only [hp] at hstanding hwithin
    rw [Scanner.openTable_of_finish haligned.1 hf] at hwithin
    simp only [Settled, hwithin.1] at hstanding
    exact h.same rfl rfl rfl rfl hstanding.1
  | next o hp =>
    simp only [hp] at hstanding
    exact h.same rfl rfl rfl rfl hstanding
  | event o event events hp reaction σ hevent =>
    simp only [hp] at hstanding
    obtain ⟨hsending, htables, hgeneration⟩ :=
      hstanding.reacts (Reader.onEvent_reacts hevent) h.dispatched h.written
    refine ⟨?_, ?_, ?_, ?_⟩
    · intro d hd
      have := h.dispatched d (by simpa using hd)
      simp only [dispatching_generation]
      omega
    · intro w hw
      have := h.written w (by simpa using hw)
      simp only [dispatching_generation]
      omega
    · intro i job hjob
      have := h.jobs i job (by simpa using hjob)
      simp only [dispatching_generation, dispatching_tables, htables]
      omega
    · exact Sending.standing (s := { s with store := σ, reader := reaction.reader }) hsending events
  | send o i job rest after events hp halive hroom =>
    simp only [hp] at hstanding
    obtain ⟨hgeneration, htables⟩ := hstanding.job_generation
    refine ⟨?_, ?_, ?_, ?_⟩
    · intro d hd
      simp only [dispatching_trace] at hd
      simp only [dispatching_generation]
      cases job with
      | rows generation bytes =>
        -- only rows are recorded as dispatched
        simp only [recordDispatch, List.mem_append, List.mem_singleton] at hd
        rcases hd with hd | rfl
        · exact h.dispatched d hd
        · exact le_of_eq hgeneration
      | openBlock ctx => exact h.dispatched d hd
      | close generation => exact h.dispatched d hd
    · intro w hw
      simp only [dispatching_trace] at hw
      simp only [dispatching_generation]
      cases job <;> exact h.written w hw
    · intro j job' hjob'
      simp only [dispatching_workers] at hjob'
      simp only [dispatching_generation, dispatching_tables]
      rcases eq_or_ne j i with rfl | hji
      · simp only [setWorker, Function.update_self, List.mem_append, List.mem_singleton] at hjob'
        rcases hjob' with hjob' | rfl
        · exact h.jobs j job' hjob'
        · simp only [setWorker]
          omega
      · simp only [setWorker, Function.update_of_ne hji] at hjob'
        exact h.jobs j job' hjob'
    · apply Sending.standing
      exact hstanding.send
  | sendFailed o i job rest after events hp hdead =>
    simp only [hp] at hstanding
    exact h.same rfl rfl rfl rfl ⟨⟨i, hdead⟩, hstanding.inHand⟩
  | ack o block acks events hp c queue hq hmore =>
    simp only [hp] at hstanding
    obtain ⟨hcurrent, ctx, collected, hhand, hacks, hlen⟩ := hstanding
    obtain ⟨l, hcrew⟩ := hhand.crew
    refine h.same rfl rfl rfl rfl ⟨hcurrent, ctx, collected ++ [c], ⟨hhand.context,
      hhand.generation, hhand.tables, l, hcrew.collect hq⟩, ?_, ?_⟩
    · rw [List.foldl_append, ← hacks]
      rfl
    · rw [hacks, length_collected] at hmore
      simpa [Acks.start] using hmore
  | close o block acks events hp c queue hq hlast =>
    -- with the last acknowledgement every worker is idle and has no job
    simp only [hp] at hstanding
    obtain ⟨hcurrent, ctx, collected, hhand, hacks, hlen⟩ := hstanding
    rw [hacks, length_collected] at hlast
    have hquiet := hhand.close hq (by simpa [Acks.start] using hlast)
    refine ⟨h.dispatched, h.written, ?_, ?_⟩
    · intro i job hjob
      have hworker : s.workers i = {} := congrFun hquiet.1 i
      simp only [hworker] at hjob
      cases hjob
    · simp only [Standing, Settled, Reader.closeBlock, hcurrent]
      exact ⟨hquiet, by simpa using hhand.tables⟩
  | burst o dumpedBy b hp hover b' σ attempts hburst =>
    simp only [hp] at hstanding
    exact ⟨h.dispatched, h.written, h.jobs, hstanding⟩
  | report o dumpedBy b hp hover hok hm =>
    simp only [hp] at hstanding
    exact h.same rfl rfl rfl rfl hstanding
  | succeed o dumpedBy b hp hover hok hm =>
    simp only [hp] at hstanding
    exact h.same rfl rfl rfl rfl ⟨hstanding.bounded, fun i => .inl (congrFun hstanding.1 i)⟩
  | recorded o report hp loadId σ hrecorded =>
    simp only [hp] at hstanding
    exact h.same rfl rfl rfl rfl ⟨hstanding.bounded, fun i => .inl (congrFun hstanding.1 i)⟩
  | stop o e hphase queue hqueue => exact hstop hqueue rfl hjobs
  | stopEvent o event events hp e σ hevent => exact hstop (List.suffix_refl _) rfl hjobs
  | interrupt o block acks events hp c queue hq hlast =>
    simp only [hp] at hstanding
    obtain ⟨hcurrent, ctx, collected, hhand, hacks, hlen⟩ := hstanding
    rw [hacks, length_collected] at hlast
    have hquiet := hhand.close hq (by simpa [Acks.start] using hlast)
    refine hstop (hq ▸ List.suffix_cons _ queue) rfl fun i job hjob => ?_
    have hworker : s.workers i = {} := congrFun hquiet.1 i
    rw [hworker] at hjob
    cases hjob
  | commitFailed o dumpedBy b hp hover table e hfail => exact hstop (List.suffix_refl _) rfl hjobs
  | stopRecord o report hp e σ hrecord => exact hstop (List.suffix_refl _) rfl hjobs
  | job i faults hrun job jobs hjobs handled hhandle =>
    simpa [moved, setWorker] using h.worker (.job job jobs faults handled hrun hjobs hhandle)
  | jobFailed i faults hrun job jobs hjobs e hhandle =>
    simpa [moved, setWorker] using h.worker (.jobFailed job jobs faults e hrun hjobs hhandle)
  | sendAck i faults c hstatus hroom =>
    simpa [moved, setWorker] using h.worker (.sendAck c hstatus)
  | sendFailure i faults e hstatus hroom =>
    simpa [moved, setWorker] using h.worker (.sendFailure e hstatus)
  | exit i faults hstatus => simpa [moved, setWorker] using h.worker (.exit hstatus)
  | leave i faults hstatus hjobs hdone =>
    refine ⟨h.dispatched, h.written, ?_, h.standing.leave hstatus hjobs hdone⟩
    intro j job hjob
    rcases eq_or_ne j i with rfl | hji
    · exact h.jobs j job (by simpa [setWorker] using hjob)
    · exact h.jobs j job (by simpa [setWorker, hji] using hjob)

theorem accounted_start (L : Load) (σ : Store P) (faults : StartFaults) :
    (start L σ faults : System P n).Accounted L := by
  have hquiet : (start L σ faults : System P n).pool.Quiet := ⟨rfl, rfl⟩
  refine ⟨by simp [start], by simp [start], by simp [start], ?_⟩
  cases hstart : startError L faults with
  | some e =>
    simp only [Standing, start, hstart]
    exact ⟨hquiet.bounded, fun i => hquiet.sound L.run i⟩
  | none =>
    simp only [Standing, start, hstart]
    exact ⟨hquiet, rfl⟩

/-- Every state of every load is accounted for. -/
theorem Reachable.accounted [NeZero n] {σ : Store P} (h : Reachable L σ s) :
    s.Accounted L ∧ s.Aligned L := by
  obtain ⟨faults, labels, hrun⟩ := h
  have hkeep : ∀ (s : System P n) a t, s.Accounted L ∧ s.Aligned L → step L s a = some t →
      t.Accounted L ∧ t.Aligned L := by
    rintro s a t ⟨haccounted, haligned⟩ hstep
    have hmove := step_move hstep
    exact ⟨haccounted.move haligned hmove, haligned.move hmove⟩
  exact runFrom_invariant hkeep ⟨accounted_start L σ faults, aligned_start L σ faults⟩ hrun

theorem Reachable.trans [NeZero n] {σ : Store P} {t : System P n} {labels : List (Label n)}
    (h : Reachable L σ s) (hrun : runFrom (step L) s labels = some t) : Reachable L σ t := by
  obtain ⟨faults, before, hbefore⟩ := h
  exact ⟨faults, before ++ labels, runFrom_append.mpr ⟨s, hbefore, hrun⟩⟩

end System

end PgDelta.Pipeline
