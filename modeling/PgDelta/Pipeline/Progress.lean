import PgDelta.Pipeline.Accounting
import Mathlib.Data.Prod.Lex

/-!
No load comes to a standstill, and none goes on for ever.

While a load is unfinished, some party can move, because the event queue has
room for whatever the workers can still send. And each move is paid for: the
reader works off the chunks, the events of a chunk and the jobs of an event, in
this order, and the workers work off what the reader has sent them.
-/

namespace PgDelta.Pipeline

open PgDelta.Lib PgDelta.Builders PgDelta.Types PgDelta.Scan PgDelta.Sink

variable {P : Platform} {n : ℕ}

namespace System

variable {L : Load} {s : System P n}

/-- The reader is done, and every worker has been joined. -/
def Finished (s : System P n) : Prop := s.isDone = true ∧ s.allExited = true

/-! ### Some party can move -/

/-- Where commits are waiting, some commit is in flight. -/
def Stocked (s : System P n) : Prop :=
  ∀ dumpedBy b, s.point = .committing dumpedBy b → b.waiting ≠ [] → b.flight ≠ []

theorem fill_stocked {concurrency : ℕ} (h : 0 < concurrency) (b : Burst P) :
    (b.fill concurrency).waiting ≠ [] → (b.fill concurrency).flight ≠ [] := by
  intro hwaiting hflight
  simp only [Burst.fill, List.append_eq_nil_iff, List.map_eq_nil_iff] at hwaiting hflight
  obtain ⟨hnone, htake⟩ := hflight
  simp only [hnone, List.length_nil, Nat.sub_zero] at hwaiting htake
  rcases List.take_eq_nil_iff.mp htake with h0 | h0
  · omega
  · simp [h0] at hwaiting

theorem burst_step_stocked {cfg : LoadConfig} {σ σ' : Store P} {b b' : Burst P} {i : ℕ}
    {faults : CommitFaults} {attempts : List Attempt}
    (h : b.step cfg σ i faults = some (b', σ', attempts)) :
    b'.waiting ≠ [] → b'.flight ≠ [] := by
  unfold Burst.step at h
  split at h
  · simp at h
  · rename_i t hi
    have hlen : i < b.flight.length := (List.getElem?_eq_some_iff.mp hi).1
    split at h
    · simp only [Option.some.injEq, Prod.mk.injEq] at h
      obtain ⟨rfl, -⟩ := h
      exact fill_stocked cfg.concurrency_pos _
    · simp only [Option.some.injEq, Prod.mk.injEq] at h
      obtain ⟨rfl, -⟩ := h
      intro _ hnil
      rw [List.set_eq_nil_iff] at hnil
      simp [hnil] at hlen
  · rename_i t actions hi
    have hlen : i < b.flight.length := (List.getElem?_eq_some_iff.mp hi).1
    split at h
    · simp only [Option.some.injEq, Prod.mk.injEq] at h
      obtain ⟨rfl, -⟩ := h
      exact fill_stocked cfg.concurrency_pos _
    · simp only [Option.some.injEq, Prod.mk.injEq] at h
      obtain ⟨rfl, -⟩ := h
      intro _ hnil
      rw [List.set_eq_nil_iff] at hnil
      simp [hnil] at hlen
  · split at h
    · simp only [Option.some.injEq, Prod.mk.injEq] at h
      obtain ⟨rfl, -⟩ := h
      exact fill_stocked cfg.concurrency_pos _
    · simp only [Option.some.injEq, Prod.mk.injEq] at h
      obtain ⟨rfl, -⟩ := h
      exact fill_stocked cfg.concurrency_pos _

theorem dispatching_point (s : System P n) (sends : List (Fin n × Job)) (after : After)
    (events : List Event) (dumpedBy : ℕ) (b : Burst P) :
    (s.dispatching sends after events).point ≠ .committing dumpedBy b := by
  cases sends with
  | cons send sends => simp [dispatching]
  | nil => cases after <;> simp [dispatching, resume]

theorem Stocked.move [NeZero n] {t : System P n} {a : Label n} (h : s.Stocked)
    (hmove : Move L s a t) : t.Stocked := by
  intro dumpedBy b hpoint
  cases hmove with
  | finish o hp hc he hf dumpedBy' hd =>
    simp only [Point.committing.injEq] at hpoint
    obtain ⟨rfl, rfl⟩ := hpoint
    exact fill_stocked L.cfg.concurrency_pos _
  | burst o dumpedBy' b' hp hover b'' σ attempts hburst =>
    simp only [Point.committing.injEq] at hpoint
    obtain ⟨rfl, rfl⟩ := hpoint
    exact burst_step_stocked hburst
  | event o event events hp reaction σ hevent => exact absurd hpoint (dispatching_point _ _ _ _ _ _)
  | send o i job rest after events hp halive hroom =>
    exact absurd hpoint (dispatching_point _ _ _ _ _ _)
  | job i faults hrun job jobs hjobs handled hhandle => exact h dumpedBy b hpoint
  | jobFailed i faults hrun job jobs hjobs e hhandle => exact h dumpedBy b hpoint
  | sendAck i faults c hstatus hroom => exact h dumpedBy b hpoint
  | sendFailure i faults e hstatus hroom => exact h dumpedBy b hpoint
  | exit i faults hstatus => exact h dumpedBy b hpoint
  | leave i faults hstatus hjobs hdone => exact h dumpedBy b hpoint
  | _ => simp at hpoint

theorem Reachable.stocked [NeZero n] {σ : Store P} (h : Reachable L σ s) : s.Stocked := by
  obtain ⟨faults, labels, hrun⟩ := h
  have hkeep : ∀ (s : System P n) a t, s.Stocked → step L s a = some t → t.Stocked :=
    fun s a t hs hstep => hs.move (step_move hstep)
  refine runFrom_invariant hkeep ?_ hrun
  intro dumpedBy b hpoint
  simp only [start] at hpoint
  split at hpoint <;> cases hpoint

/-- A worker that has not left moves, unless it waits for a job that may yet
come. -/
theorem worker_enabled (hbounded : s.pool.Bounded) {i : Fin n}
    (hlive : (s.workers i).status ≠ .exited)
    (hwork : (s.workers i).status ≠ .running ∨ (s.workers i).jobs ≠ [] ∨ s.isDone = true)
    (faults : JobFaults) : ∃ t, s.workerStep L i faults = some t := by
  have hroom : s.events.length < eventCapacity n := by
    unfold Pool.Bounded at hbounded
    simp only [pool] at hbounded
    unfold eventCapacity
    omega
  simp only [workerStep, sendEvent, if_pos hroom]
  cases hstatus : (s.workers i).status with
  | running =>
    cases hjobs : (s.workers i).jobs with
    | cons job jobs => exact ⟨_, rfl⟩
    | nil =>
      have hdone : s.isDone = true := by simpa [hstatus, hjobs] using hwork
      exact ⟨_, if_pos hdone⟩
  | acking c => exact ⟨_, rfl⟩
  | failing e => exact ⟨_, rfl⟩
  | reported => exact ⟨_, rfl⟩
  | exited => exact absurd hstatus hlive

/-- A worker that has left its loop has left its error in the event queue. -/
theorem InHand.events_ne_nil {r : Reader P} {p : Pool P n} {block : OpenBlock} {ctx : BlockCtx}
    {stage : Fin n → Stage} {collected : List (BlockClosed P)}
    (h : InHand L r p block ctx stage collected) {i : Fin n}
    (hi : (p.workers i).status.isExited = true) : p.events ≠ [] := by
  obtain ⟨l, hcrew⟩ := h.crew
  have hreported : (p.workers i).status.hasReported = true := by
    cases hstatus : (p.workers i).status <;>
      simp [hstatus, Status.isExited, Status.hasReported] at hi ⊢
  intro hnil
  have hfailed := hcrew.exists_failed hreported
  rw [hnil] at hfailed
  exact hfailed rfl

/-- A reader that collects acknowledgements in vain waits for a worker that can
move. -/
theorem collecting_enabled {block : OpenBlock} {ctx : BlockCtx} {collected : List (BlockClosed P)}
    (hhand : InHand L s.reader s.pool block ctx (fun _ => .closed) collected)
    (hmore : collected.length < n) (hevents : s.events = []) (faults : JobFaults) :
    ∃ i t, s.workerStep L i faults = some t := by
  obtain ⟨l, hcrew⟩ := hhand.crew
  have hidle : ∃ i, isIdle .closed (s.workers i) = false := by
    by_contra hall
    simp only [not_exists, Bool.not_eq_false] at hall
    have hlen := hcrew.acks_roster.length_eq
    have hroster : (roster fun i => isIdle .closed (s.pool.workers i)) = List.finRange n :=
      List.filter_eq_self.mpr fun i _ => hall i
    rw [hroster] at hlen
    simp only [pool, hevents, closedOf_nil, List.append_nil, List.length_map, List.length_finRange]
      at hlen
    omega
  obtain ⟨i, hi⟩ := hidle
  have hlive : (s.workers i).status ≠ .exited := by
    intro hexited
    have hfailed := hcrew.exists_failed (i := i) (by simp [pool, hexited, Status.hasReported])
    simp [pool, hevents] at hfailed
  obtain ⟨t, ht⟩ := worker_enabled (L := L) hhand.bounded hlive (by
    simp only [isIdle, decide_true, Bool.true_and, Bool.and_eq_false_iff] at hi
    rcases hi with hi | hi
    · left
      intro hrun
      simp [hrun, Status.isRunning] at hi
    · right
      left
      simpa using hi) faults
  exact ⟨i, t, ht⟩

theorem enabled [NeZero n] (h : s.Accounted L) (hstocked : s.Stocked) (hfinished : ¬ s.Finished) :
    ∃ a t, step L s a = some t := by
  have hbounded := h.standing.bounded
  have hstanding := h.standing
  have hworker : ∀ {i t}, s.workerStep L i {} = some t → ∃ a t, step L s a = some t :=
    fun {i t} ht => ⟨.worker i {}, t, ht⟩
  have hreader : (s.readerStep L {}).isSome = true → ∃ a t, step L s a = some t := by
    intro hsome
    obtain ⟨t, ht⟩ := Option.isSome_iff_exists.mp hsome
    exact ⟨.reader {}, t, ht⟩
  unfold Standing at hstanding
  cases hp : s.point with
  | reading => exact hreader (by simp [readerStep, hp])
  | handling events => cases events <;> exact hreader (by simp [readerStep, hp])
  | dispatching i job rest after events =>
    by_cases hdead : (s.workers i).status.isExited = true
    · exact hreader (by simp [readerStep, hp, sendJob, hdead])
    · by_cases hroom : (s.workers i).jobs.length < queueDepth
      · exact hreader (by simp [readerStep, hp, sendJob, hdead, hroom])
      · -- The queue is full, so that its worker has something to do.
        obtain ⟨t, ht⟩ := worker_enabled (L := L) (i := i) hbounded
          (fun hexited => hdead (by rw [hexited]; rfl))
          (.inr (.inl fun hnil => hroom (by rw [hnil]; decide))) {}
        exact hworker ht
  | failedSend =>
    -- a dead worker leaves its failure in the queue
    simp only [hp] at hstanding
    obtain ⟨⟨i, hi⟩, block, ctx, stage, hhand⟩ := hstanding
    cases hevents : s.events with
    | nil => exact absurd hevents (hhand.events_ne_nil hi)
    | cons event queue =>
      cases event <;> exact hreader (by simp [readerStep, hp, receiveCause, hevents])
  | collecting block acks events =>
    cases hevents : s.events with
    | cons event queue =>
      cases event <;> exact hreader (by simp [readerStep, hp, receiveAck, hevents])
    | nil =>
      simp only [hp] at hstanding
      obtain ⟨-, ctx, collected, hhand, -, hmore⟩ := hstanding
      -- an acknowledgement is outstanding, so that some worker has work to do
      obtain ⟨i, t, ht⟩ := collecting_enabled hhand hmore hevents {}
      exact hworker ht
  | committing dumpedBy b =>
    cases hover : b.isOver with
    | true => exact hreader (by simp [readerStep, hp, stepBurst, hover])
    | false =>
      cases hflight : b.flight with
      | nil =>
        have hwaiting : b.waiting = [] := by
          by_contra hwaiting
          exact hstocked dumpedBy b hp hwaiting hflight
        simp [Burst.isOver, hflight, hwaiting] at hover
      | cons c flight =>
        have hstep : ∃ r, b.step L.cfg s.store 0 {} = some r := by
          obtain ⟨t, stage⟩ := c
          simp only [Burst.step, hflight, List.getElem?_cons_zero]
          cases stage with
          | begun =>
            simp only
            split <;> exact ⟨_, rfl⟩
          | prepared actions =>
            simp only
            split <;> exact ⟨_, rfl⟩
          | committed version => exact ⟨_, rfl⟩
        obtain ⟨r, hr⟩ := hstep
        exact hreader (by simp [readerStep, hp, stepBurst, hover, hr])
  | recording report => exact hreader (by simp [readerStep, hp])
  | done result =>
    have hdone : s.isDone = true := by simp [isDone, hp]
    have hexited : s.allExited = false := by
      by_contra hall
      exact hfinished ⟨hdone, by simpa using hall⟩
    simp only [allExited, List.all_eq_false, List.mem_finRange, true_and] at hexited
    obtain ⟨i, hi⟩ := hexited
    obtain ⟨t, ht⟩ := worker_enabled (L := L) (i := i) hbounded
      (fun hstatus => hi (by rw [hstatus]; rfl)) (.inr (.inr hdone)) {}
    exact hworker ht

/-! ### Every move is paid for -/

def workerWeight (w : Worker P) : ℕ :=
  4 * w.jobs.length +
    match w.status with
    | .running => 1
    | .acking _ => 2
    | .failing _ => 3
    | .reported => 2
    | .exited => 0

def flightWeight (c : InFlight P) : ℕ :=
  match c.stage with
  | .begun => 3
  | .prepared _ => 2
  | .committed _ => 1

def burstWeight (b : Burst P) : ℕ := 4 * b.waiting.length + (b.flight.map flightWeight).sum

/-- How far the reader is from the end: by chunks, by what is left of the
chunk or of the commits, and by the jobs or acknowledgements of one event. -/
def readerWeight (s : System P n) : ℕ × ℕ × ℕ :=
  match s.point with
  | .reading => (s.reader.chunks.length + 3, 0, 0)
  | .handling events => (s.reader.chunks.length + 3, 3 * events.length + 1, 0)
  | .dispatching _ _ rest _ events =>
    (s.reader.chunks.length + 3, 3 * events.length + 3, rest.length)
  | .failedSend => (s.reader.chunks.length + 3, 0, 0)
  | .collecting _ acks events =>
    (s.reader.chunks.length + 3, 3 * events.length + 2, n - acks.acked)
  | .committing _ b => (2, burstWeight b, 0)
  | .recording _ => (1, 0, 0)
  | .done _ => (0, 0, 0)

def weight (s : System P n) : ℕ ×ₗ ℕ ×ₗ ℕ ×ₗ ℕ :=
  toLex (s.readerWeight.1, toLex (s.readerWeight.2.1, toLex (s.readerWeight.2.2,
    ∑ i, workerWeight (s.workers i))))

theorem weight_lt_of_worker {t : System P n} (hreader : t.readerWeight = s.readerWeight)
    (h : ∑ i, workerWeight (t.workers i) < ∑ i, workerWeight (s.workers i)) :
    t.weight < s.weight := by
  simp only [weight, hreader, Prod.Lex.toLex_lt_toLex, lt_self_iff_false, true_and, false_or]
  exact h

theorem weight_lt_of_reader {t : System P n}
    (h : t.readerWeight.1 < s.readerWeight.1 ∨
      t.readerWeight.1 = s.readerWeight.1 ∧ (t.readerWeight.2.1 < s.readerWeight.2.1 ∨
        t.readerWeight.2.1 = s.readerWeight.2.1 ∧ t.readerWeight.2.2 < s.readerWeight.2.2)) :
    t.weight < s.weight := by
  simp only [weight, Prod.Lex.toLex_lt_toLex]
  rcases h with h | ⟨h₁, h | ⟨h₂, h⟩⟩
  · exact .inl h
  · exact .inr ⟨h₁, .inl h⟩
  · exact .inr ⟨h₁, .inr ⟨h₂, .inl h⟩⟩

theorem workerMove_weight {run : ℕ} {i : Fin n} {w w' : Worker P} {more : List (WorkerEvent P)}
    {written : List (ℕ × RecordBatch)} (h : WorkerMove run i w w' more written) :
    workerWeight w' < workerWeight w := by
  cases h with
  | job job jobs faults handled hrun hjobs h =>
    have hstatus : handled.status = .running ∨ ∃ c, handled.status = .acking c := by
      unfold Handled.status
      cases handled.closed with
      | none => exact .inl rfl
      | some c => exact .inr ⟨c, rfl⟩
    rcases hstatus with hstatus | ⟨c, hstatus⟩
    · simp only [workerWeight, hrun, hjobs, hstatus, List.length_cons]
      omega
    · simp only [workerWeight, hrun, hjobs, hstatus, List.length_cons]
      omega
  | jobFailed job jobs faults e hrun hjobs h =>
    simp only [workerWeight, hrun, hjobs, List.length_cons]
    omega
  | sendAck c hstatus => simp [workerWeight, hstatus]
  | sendFailure e hstatus => simp [workerWeight, hstatus]
  | exit hstatus => simp [workerWeight, hstatus]

theorem weight_setWorker {t : System P n} {i : Fin n} {w : Worker P}
    (hreader : t.readerWeight = s.readerWeight)
    (hworkers : t.workers = Function.update s.workers i w)
    (h : workerWeight w < workerWeight (s.workers i)) : t.weight < s.weight := by
  apply weight_lt_of_worker hreader
  have hsum := sum_update workerWeight s.workers i w
  rw [hworkers]
  omega

theorem burstWeight_fill_le (concurrency : ℕ) (b : Burst P) :
    burstWeight (b.fill concurrency) ≤ burstWeight b := by
  have hbegun : (((b.waiting.take (concurrency - b.flight.length)).map
      fun target => ({ target := target } : InFlight P)).map flightWeight).sum =
        3 * (b.waiting.take (concurrency - b.flight.length)).length := by
    rw [List.map_map]
    simp [Function.comp_def, flightWeight, Nat.mul_comm]
  have hlen := congrArg List.length
    (List.take_append_drop (concurrency - b.flight.length) b.waiting)
  rw [List.length_append] at hlen
  simp only [burstWeight, Burst.fill, List.map_append, List.sum_append, hbegun]
  omega

theorem sum_eraseIdx {α : Type} (f : α → ℕ) {l : List α} {i : ℕ} {c : α} (h : l[i]? = some c) :
    ((l.eraseIdx i).map f).sum + f c = (l.map f).sum := by
  induction l generalizing i with
  | nil => simp at h
  | cons d l ih =>
    cases i with
    | zero =>
      obtain rfl : d = c := by simpa using h
      simp [Nat.add_comm]
    | succ i =>
      have ih := ih (by simpa using h)
      simp only [List.eraseIdx_cons_succ, List.map_cons, List.sum_cons]
      omega

theorem sum_set {α : Type} (f : α → ℕ) {l : List α} {i : ℕ} {c : α} (h : l[i]? = some c) (d : α) :
    ((l.set i d).map f).sum + f c = (l.map f).sum + f d := by
  induction l generalizing i with
  | nil => simp at h
  | cons e l ih =>
    cases i with
    | zero =>
      obtain rfl : e = c := by simpa using h
      simp only [List.set_cons_zero, List.map_cons, List.sum_cons]
      omega
    | succ i =>
      have ih := ih (by simpa using h)
      simp only [List.set_cons_succ, List.map_cons, List.sum_cons]
      omega

theorem burst_step_weight {cfg : LoadConfig} {σ σ' : Store P} {b b' : Burst P} {i : ℕ}
    {faults : CommitFaults} {attempts : List Attempt}
    (h : b.step cfg σ i faults = some (b', σ', attempts)) : burstWeight b' < burstWeight b := by
  have hsettle : ∀ {c : InFlight P} {name outcome}, b.flight[i]? = some c → 0 < flightWeight c →
      burstWeight (b.settle cfg.concurrency i name outcome) < burstWeight b := by
    intro c name outcome hi hpos
    have hsum := sum_eraseIdx flightWeight hi
    have hfill := burstWeight_fill_le cfg.concurrency
      { b with flight := b.flight.eraseIdx i, outcomes := b.outcomes ++ [(name, outcome)] }
    simp only [burstWeight] at hfill ⊢
    simp only [Burst.settle]
    omega
  have hset : ∀ {c d : InFlight P}, b.flight[i]? = some c → flightWeight d < flightWeight c →
      burstWeight { b with flight := b.flight.set i d } < burstWeight b := by
    intro c d hi hlt
    have hsum := sum_set flightWeight hi d
    simp only [burstWeight]
    omega
  unfold Burst.step at h
  split at h
  · simp at h
  · rename_i t hi
    split at h
    · simp only [Option.some.injEq, Prod.mk.injEq] at h
      obtain ⟨rfl, -⟩ := h
      exact hsettle hi (by simp [flightWeight])
    · simp only [Option.some.injEq, Prod.mk.injEq] at h
      obtain ⟨rfl, -⟩ := h
      exact hset hi (by simp [flightWeight])
  · rename_i t actions hi
    split at h
    · simp only [Option.some.injEq, Prod.mk.injEq] at h
      obtain ⟨rfl, -⟩ := h
      exact hsettle hi (by simp [flightWeight])
    · simp only [Option.some.injEq, Prod.mk.injEq] at h
      obtain ⟨rfl, -⟩ := h
      exact hset hi (by simp [flightWeight])
  · rename_i t version hi
    split at h
    · simp only [Option.some.injEq, Prod.mk.injEq] at h
      obtain ⟨rfl, -⟩ := h
      exact hsettle hi (by simp [flightWeight])
    · simp only [Option.some.injEq, Prod.mk.injEq] at h
      obtain ⟨rfl, -⟩ := h
      exact hsettle hi (by simp [flightWeight])

/-- Behind an event, and behind each job of it, less is left of the chunk. -/
theorem readerWeight_dispatching (s : System P n) (sends : List (Fin n × Job)) (after : After)
    (events : List Event) :
    (s.dispatching sends after events).readerWeight.1 = s.reader.chunks.length + 3 ∧
      ((s.dispatching sends after events).readerWeight.2.1 < 3 * events.length + 3 ∨
        (s.dispatching sends after events).readerWeight.2 =
          (3 * events.length + 3, sends.length - 1) ∧ sends ≠ []) := by
  cases sends with
  | cons send sends => exact ⟨rfl, .inr ⟨by simp [dispatching, readerWeight], by simp⟩⟩
  | nil =>
    cases after with
    | collect block =>
      refine ⟨rfl, .inl ?_⟩
      simp only [dispatching, resume, readerWeight]
      omega
    | resume =>
      refine ⟨rfl, .inl ?_⟩
      simp only [dispatching, resume, readerWeight]
      omega
    | opened block =>
      refine ⟨rfl, .inl ?_⟩
      simp only [dispatching, resume, readerWeight]
      omega

theorem move_weight [NeZero n] {t : System P n} {a : Label n} (hmove : Move L s a t) :
    t.weight < s.weight := by
  -- The end of a load weighs nothing.
  have hfinal : ∀ {t : System P n}, t.readerWeight.1 = 0 → 0 < s.readerWeight.1 →
      t.weight < s.weight := by
    intro t hzero hpos
    exact weight_lt_of_reader (.inl (by omega))
  cases hmove with
  | read o hp chunk chunks hc scanner events hf =>
    apply weight_lt_of_reader
    left
    simp [readerWeight, hp, hc]
  | finish o hp hc he hf dumpedBy hd =>
    apply weight_lt_of_reader
    left
    simp [readerWeight, hp]
  | next o hp =>
    apply weight_lt_of_reader
    right
    simp [readerWeight, hp]
  | event o event events hp reaction σ hevent =>
    -- an event weighs more than the sends it gives rise to
    apply weight_lt_of_reader
    right
    have hchunks : reaction.reader.chunks = s.reader.chunks := by
      cases Reader.onEvent_reacts hevent <;> rfl
    obtain ⟨hfirst, hsecond⟩ := readerWeight_dispatching
      ({ s with store := σ, reader := reaction.reader } : System P n) reaction.sends
      reaction.after events
    refine ⟨by rw [hfirst]; simp [readerWeight, hp, hchunks], .inl ?_⟩
    have hweight : s.readerWeight.2.1 = 3 * events.length + 4 := by
      simp only [readerWeight, hp, List.length_cons]
      omega
    rcases hsecond with hlt | ⟨heq, -⟩
    · omega
    · rw [heq, hweight]
      simp
  | send o i job rest after events hp halive hroom =>
    apply weight_lt_of_reader
    right
    have hdispatching := readerWeight_dispatching
      ({ s.setWorker i { s.workers i with jobs := (s.workers i).jobs ++ [job] } with
        trace := recordDispatch s.trace job } : System P n) rest after events
    obtain ⟨hfirst, hsecond⟩ := hdispatching
    have hweight : s.readerWeight = (s.reader.chunks.length + 3, 3 * events.length + 3,
        rest.length) := by simp only [readerWeight, hp]
    refine ⟨by rw [hfirst, hweight]; rfl, ?_⟩
    rcases hsecond with hlt | ⟨heq, hrest⟩
    · exact .inl (by rw [hweight]; exact hlt)
    · right
      rw [heq, hweight]
      have hpos := List.length_pos_of_ne_nil hrest
      exact ⟨rfl, by simp only; omega⟩
  | sendFailed o i job rest after events hp hdead =>
    apply weight_lt_of_reader
    right
    simp [readerWeight, hp]
  | ack o block acks events hp c queue hq hmore =>
    apply weight_lt_of_reader
    right
    simp only [readerWeight, hp, Acks.add, lt_self_iff_false, true_and, false_or]
    omega
  | close o block acks events hp c queue hq hlast =>
    apply weight_lt_of_reader
    right
    simp only [readerWeight, hp, Reader.closeBlock, true_and]
    omega
  | burst o dumpedBy b hp hover b' σ attempts hburst =>
    apply weight_lt_of_reader
    right
    simp only [readerWeight, hp, true_and]
    exact .inl (burst_step_weight hburst)
  | report o dumpedBy b hp hover hok hm =>
    apply weight_lt_of_reader
    left
    simp [readerWeight, hp]
  | succeed o dumpedBy b hp hover hok hm => exact hfinal rfl (by simp [readerWeight, hp])
  | recorded o report hp loadId σ hrecorded => exact hfinal rfl (by simp [readerWeight, hp])
  | stop o e hphase queue hqueue =>
    apply hfinal rfl
    rcases hphase with hp | ⟨events, hp⟩ | hp | ⟨block, acks, events, hp⟩ <;>
      simp [readerWeight, hp]
  | stopEvent o event events hp e σ hevent => exact hfinal rfl (by simp [readerWeight, hp])
  | interrupt o block acks events hp c queue hq hlast =>
    exact hfinal rfl (by simp [readerWeight, hp])
  | commitFailed o dumpedBy b hp hover table e hfail =>
    exact hfinal rfl (by simp [readerWeight, hp])
  | stopRecord o report hp e σ hrecord => exact hfinal rfl (by simp [readerWeight, hp])
  | job i faults hrun job jobs hjobs handled hhandle =>
    exact weight_setWorker rfl rfl
      (workerMove_weight
        (.job job jobs faults handled hrun hjobs hhandle : WorkerMove L.run i _ _ _ _))
  | jobFailed i faults hrun job jobs hjobs e hhandle =>
    exact weight_setWorker rfl rfl
      (workerMove_weight
        (.jobFailed job jobs faults e hrun hjobs hhandle : WorkerMove L.run i _ _ _ _))
  | sendAck i faults c hstatus hroom =>
    exact weight_setWorker rfl rfl
      (workerMove_weight (.sendAck c hstatus : WorkerMove L.run i _ _ _ _))
  | sendFailure i faults e hstatus hroom =>
    exact weight_setWorker rfl rfl
      (workerMove_weight (.sendFailure e hstatus : WorkerMove L.run i _ _ _ _))
  | exit i faults hstatus =>
    exact weight_setWorker rfl rfl
      (workerMove_weight (.exit hstatus : WorkerMove L.run i _ _ _ _))
  | leave i faults hstatus hjobs hdone =>
    exact weight_setWorker rfl rfl (by simp [workerWeight, hstatus, hjobs])

/-- Whatever the schedule, a load comes to its end. -/
theorem Reachable.inevitably_finished [NeZero n] {σ : Store P} (h : Reachable L σ s) :
    Inevitably (step L) Finished s := by
  have hkeep : ∀ (s : System P n) a t, Reachable L σ s → step L s a = some t →
      Reachable L σ t := by
    intro s a t hs hstep
    exact hs.trans (runFrom_cons.mpr ⟨t, hstep, runFrom_nil t⟩)
  refine inevitably_of_measure wellFounded_lt weight hkeep ?_ ?_ h
  · intro s hs hfinished
    exact enabled hs.accounted.1 hs.stocked hfinished
  · intro s a t hs _ hstep
    exact move_weight (step_move hstep)

/-- The pool cannot deadlock. -/
theorem never_deadlocks [NeZero n] {σ : Store P} (h : Reachable L σ s) :
    s.events.length ≤ 2 * n ∧
      (∀ i, ((∃ c, (s.workers i).status = .acking c) ∨ ∃ e, (s.workers i).status = .failing e) →
        ∀ faults, ∃ t, step L s (.worker i faults) = some t) ∧
      (s.point = .failedSend → s.events ≠ []) ∧
      (¬ s.Finished → ∃ a t, step L s a = some t) ∧
      Inevitably (step L) Finished s := by
  have haccounted := h.accounted.1
  have hbounded := haccounted.standing.bounded
  refine ⟨?_, ?_, ?_, enabled haccounted h.stocked, h.inevitably_finished⟩
  · unfold Pool.Bounded at hbounded
    simp only [pool] at hbounded
    omega
  · intro i hsending faults
    apply worker_enabled hbounded
    · intro hexited
      simp [hexited] at hsending
    · left
      intro hrun
      simp [hrun] at hsending
  · intro hp hevents
    have hstanding := haccounted.standing
    simp only [Standing, hp] at hstanding
    obtain ⟨⟨i, hi⟩, block, ctx, stage, hhand⟩ := hstanding
    exact absurd hevents (hhand.events_ne_nil hi)

/-! ### Checked runs -/

theorem exists_reachable [NeZero n] {σ : Store P} {faults : StartFaults}
    {labels : List (Label n)} {check : System P n → Bool}
    (h : (runFrom (step L) (start L σ faults) labels).any check = true) :
    ∃ s, Reachable L σ s ∧ check s = true := by
  obtain ⟨s, hs, hcheck⟩ := (Option.any_eq_true _ _).mp h
  exact ⟨s, ⟨faults, labels, hs⟩, hcheck⟩

/-- A dump whose second row has a field too many. -/
def mismatched : Load where
  cfg := { outputUri := "out", writeManifest := false }
  input :=
    { chunks :=
        [⟨ascii "-- Dumped by pg_dump version 17.2\nCREATE TABLE t (\n    a integer\n);\n", 0⟩,
          ⟨ascii "COPY t (a) FROM stdin;\n1\n", 0⟩, ⟨ascii "2\t3\n\\.\n", 0⟩] }

/-- Both workers decode their rows while the reader tells the first one that
the block is over. -/
def closing : List (Label 2) :=
  List.replicate 14 (.reader {}) ++
    [.worker 1 {}, .worker 1 {}, .worker 0 {}, .worker 0 {}, .reader {}, .reader {}]

/-- The second worker reports its failure and leaves, the reader finds that a
send has failed, and returns the worker's error. -/
def reporting : List (Label 2) := [.worker 1 {}, .worker 1 {}, .reader {}, .reader {}]

/-- The first worker acknowledges, and then the second one fails. -/
def overtaken : List (Label 2) :=
  closing ++ [.worker 0 {}, .worker 0 {}, .worker 1 {}, .worker 1 {}, .reader {}]

def atFailedSend (s : System P n) : Bool :=
  match s.point with
  | .failedSend => true
  | _ => false

theorem point_of_atFailedSend (h : s.atFailedSend = true) : s.point = .failedSend := by
  unfold atFailedSend at h
  split at h
  · assumption
  · cases h

/-- A worker has failed, the send to it has failed, and the load goes on to its
end. -/
theorem never_deadlocks_overtaken :
    ∃ s : System .plain 2, Reachable mismatched (fun _ => []) s ∧ s.point = .failedSend ∧
      s.events.length ≤ 4 ∧ s.events ≠ [] ∧ Inevitably (step mismatched) Finished s := by
  have hrun : ((runFrom (step mismatched) (start mismatched (fun _ => []) {} : System .plain 2)
      overtaken).any atFailedSend) = true := by decide +kernel
  obtain ⟨s, hs, hcheck⟩ := exists_reachable hrun
  have hp := point_of_atFailedSend hcheck
  obtain ⟨hlength, -, hevents, -, hfinished⟩ := never_deadlocks hs
  exact ⟨s, hs, hp, hlength, hevents hp, hfinished⟩

end System

end PgDelta.Pipeline
