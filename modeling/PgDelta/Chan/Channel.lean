import PgDelta.Lib.Transition

/-!
The bounded channel that feeds the decode workers: a queue and the counts of
the live ends behind one lock, with a condition variable for the receivers that
find the queue empty and one for the senders that find it full.

A step is one critical section of one party, or one notification, which comes
after the lock is released. Any party may come next. A call that waits may wake
without a notification, as a condition variable allows.
-/

namespace PgDelta.Chan

open PgDelta.Lib

/-! ### Under the lock -/

/-- The queue and the live end counts. -/
structure State (α : Type) where
  items : List α := []
  senders : ℕ := 1
  receivers : ℕ := 1
  deriving DecidableEq, Repr

inductive Side
  | sender
  | receiver
  deriving DecidableEq, Repr

inductive Condvar
  | notEmpty
  | notFull
  deriving DecidableEq, Repr

/-- What the calls of a side wait for. -/
def Side.awaits : Side → Condvar
  | .sender => .notFull
  | .receiver => .notEmpty

/-- What the calls of a side, and the drop of its last end, notify. -/
def Side.notifies : Side → Condvar
  | .sender => .notEmpty
  | .receiver => .notFull

inductive Op (α : Type)
  | send (value : α)
  | recv
  deriving DecidableEq, Repr

def Op.side {α : Type} : Op α → Side
  | .send _ => .sender
  | .recv => .receiver

/-- What a call returns. -/
inductive Result (α : Type)
  | sent
  | refused (value : α)
  | received (value : α)
  | ended
  deriving DecidableEq, Repr

/-- How one pass through the loop of a call ends: with a result, and perhaps
with a party to notify once the lock is released, or by waiting. -/
inductive Pass (α : Type)
  | done (state : State α) (result : Result α) (notify : Bool)
  | wait
  deriving DecidableEq, Repr

namespace State

variable {α : Type}

/-- One pass through the loop of `send`. -/
def send (s : State α) (capacity : ℕ) (value : α) : Pass α :=
  -- A send without a receiver gives its value back, also where there is room.
  if s.receivers = 0 then .done s (.refused value) false
  else if s.items.length < capacity then
    .done { s with items := s.items ++ [value] } .sent true
  else .wait

/-- One pass through the loop of `recv`. -/
def recv (s : State α) : Pass α :=
  match s.items with
  | value :: items => .done { s with items := items } (.received value) true
  -- What is queued is delivered before the end is told.
  | [] => if s.senders = 0 then .done s .ended false else .wait

def pass (s : State α) (capacity : ℕ) : Op α → Pass α
  | .send value => s.send capacity value
  | .recv => s.recv

def count (s : State α) : Side → ℕ
  | .sender => s.senders
  | .receiver => s.receivers

/-- `clone`, of either end. -/
def clone (s : State α) : Side → State α
  | .sender => { s with senders := s.senders + 1 }
  | .receiver => { s with receivers := s.receivers + 1 }

/-- `drop`, of either end, and whether it was the last one of its side. -/
def drop (s : State α) : Side → State α × Bool
  | .sender =>
    let senders := s.senders - 1
    ({ s with senders := senders }, decide (senders = 0))
  | .receiver =>
    let receivers := s.receivers - 1
    ({ s with receivers := receivers }, decide (receivers = 0))

theorem count_clone (s : State α) (side other : Side) :
    (s.clone side).count other = if other = side then s.count other + 1 else s.count other := by
  cases side <;> cases other <;> rfl

theorem count_drop (s : State α) (side other : Side) :
    (s.drop side).1.count other = if other = side then s.count other - 1 else s.count other := by
  cases side <;> cases other <;> rfl

@[simp] theorem items_clone (s : State α) (side : Side) : (s.clone side).items = s.items := by
  cases side <;> rfl

@[simp] theorem items_drop (s : State α) (side : Side) : (s.drop side).1.items = s.items := by
  cases side <;> rfl

theorem drop_last (s : State α) (side : Side) :
    (s.drop side).2 = decide (s.count side - 1 = 0) := by
  cases side <;> rfl

end State

/-- What a pass comes to. -/
inductive Passes {α : Type} (s : State α) (capacity : ℕ) : Op α → Pass α → Prop
  | refused {value : α} (hclosed : s.receivers = 0) :
      Passes s capacity (.send value) (.done s (.refused value) false)
  | sent {value : α} (hopen : s.receivers ≠ 0) (hroom : s.items.length < capacity) :
      Passes s capacity (.send value)
        (.done { s with items := s.items ++ [value] } .sent true)
  | full {value : α} (hopen : s.receivers ≠ 0) (hfull : capacity ≤ s.items.length) :
      Passes s capacity (.send value) .wait
  | received {value : α} {items : List α} (hitems : s.items = value :: items) :
      Passes s capacity .recv (.done { s with items := items } (.received value) true)
  | ended (hitems : s.items = []) (hclosed : s.senders = 0) :
      Passes s capacity .recv (.done s .ended false)
  | empty (hitems : s.items = []) (hopen : s.senders ≠ 0) : Passes s capacity .recv .wait

theorem State.passes {α : Type} (s : State α) (capacity : ℕ) (op : Op α) :
    Passes s capacity op (s.pass capacity op) := by
  cases op with
  | send value =>
      simp only [pass, send]
      split_ifs with hclosed hroom
      · exact .refused hclosed
      · exact .sent hclosed hroom
      · exact .full hclosed (not_lt.mp hroom)
  | recv =>
      simp only [pass, recv]
      cases hitems : s.items with
      | nil =>
          dsimp only
          split_ifs with hclosed
          · exact .ended hitems hclosed
          · exact .empty hitems hclosed
      | cons value items => exact .received hitems

/-! ### The parties -/

/-- Where a call stands: it has not looked yet, it waits, it was woken and has
not looked again, or it has its result and is about to notify. -/
inductive Stage
  | entering
  | waiting
  | woken
  | notifying
  deriving DecidableEq, Repr

/-- A call in progress, which borrows the end that it was made on. -/
structure Call (α : Type) where
  holder : ℕ
  op : Op α
  stage : Stage
  deriving DecidableEq, Repr

/-- A channel with all who use it. The ends are told apart by numbers. -/
structure System (α : Type) where
  state : State α := {}
  capacity : ℕ
  senderEnds : List ℕ := [0]
  receiverEnds : List ℕ := [0]
  calls : List (Call α) := []
  /-- Dropped last ends that are about to notify all. -/
  closing : List Condvar := []
  /-- The results so far, in the order of their critical sections. No step
  reads them. -/
  results : List (Op α × Result α) := []
  deriving DecidableEq, Repr

/-- A channel that holds at most `capacity` items, clamped up to one. -/
def bounded (α : Type) (capacity : ℕ) : System α where
  capacity := max capacity 1

inductive Label (α : Type)
  | clone (side : Side) (holder fresh : ℕ)
  | drop (side : Side) (holder : ℕ)
  /-- An end is used for a call. -/
  | enter (holder : ℕ) (op : Op α)
  /-- A call takes the lock and passes once through its loop. -/
  | pass (i : ℕ)
  /-- A call notifies one, which reaches the call `j` if any waits. -/
  | notifyOne (i : ℕ) (j : Option ℕ)
  | notifyAll (condvar : Condvar)
  | spurious (j : ℕ)
  deriving DecidableEq, Repr

namespace System

variable {α : Type}

def ends (s : System α) : Side → List ℕ
  | .sender => s.senderEnds
  | .receiver => s.receiverEnds

def setEnds (s : System α) (side : Side) (ends : List ℕ) : System α :=
  match side with
  | .sender => { s with senderEnds := ends }
  | .receiver => { s with receiverEnds := ends }

/-- No call borrows an end. -/
def unused (s : System α) (side : Side) (holder : ℕ) : Bool :=
  s.calls.all fun call => call.op.side != side || call.holder != holder

def callAt (s : System α) (i : ℕ) (stages : List Stage) : Option (Call α) :=
  (s.calls[i]?).filter fun call => stages.contains call.stage

def setStage (s : System α) (i : ℕ) (call : Call α) (stage : Stage) : System α :=
  { s with calls := s.calls.set i { call with stage := stage } }

def leave (s : System α) (i : ℕ) : System α := { s with calls := s.calls.eraseIdx i }

def afterPass (s : System α) (i : ℕ) (call : Call α) : Pass α → System α
  | .wait => s.setStage i call .waiting
  | .done state result notify =>
    let s := { s with state := state, results := s.results ++ [(call.op, result)] }
    if notify then s.setStage i call .notifying else s.leave i

/-- A call that waits for a condition is woken. -/
def wake (s : System α) (condvar : Condvar) (j : ℕ) : Option (System α) :=
  match s.callAt j [.waiting] with
  | none => none
  | some call =>
    if call.op.side.awaits = condvar then some (s.setStage j call .woken) else none

def Awaits (condvar : Condvar) (call : Call α) : Bool :=
  call.op.side.awaits == condvar && call.stage == .waiting

def wakeAll (s : System α) (condvar : Condvar) : System α :=
  { s with calls := s.calls.map fun call =>
      if Awaits condvar call then { call with stage := .woken } else call }

def step (s : System α) : Label α → Option (System α)
  | .clone side holder fresh =>
    if holder ∈ s.ends side ∧ fresh ∉ s.ends side then
      some ({ s with state := s.state.clone side }.setEnds side (s.ends side ++ [fresh]))
    else none
  | .drop side holder =>
    if holder ∈ s.ends side ∧ s.unused side holder then
      let (state, last) := s.state.drop side
      some ({ s with
        state := state
        closing := if last then s.closing ++ [side.notifies] else s.closing }.setEnds side
          ((s.ends side).erase holder))
    else none
  | .enter holder op =>
    if holder ∈ s.ends op.side then
      some { s with calls := s.calls ++ [⟨holder, op, .entering⟩] }
    else none
  | .pass i =>
    (s.callAt i [.entering, .woken]).map fun call =>
      s.afterPass i call (s.state.pass s.capacity call.op)
  | .notifyOne i j =>
    match s.callAt i [.notifying] with
    | none => none
    | some call =>
      match j with
      | some j => (s.wake call.op.side.notifies j).map fun s => s.leave i
      | none =>
        if s.calls.any (Awaits call.op.side.notifies) then none else some (s.leave i)
  | .notifyAll condvar =>
    if condvar ∈ s.closing then
      some ({ s with closing := s.closing.erase condvar }.wakeAll condvar)
    else none
  | .spurious j => (s.callAt j [.waiting]).map fun call => s.setStage j call .woken

/-! ### What a step comes to -/

/-- The steps, one after another, with what they need. -/
inductive Move (s : System α) : System α → Prop
  | cloned (side : Side) (holder fresh : ℕ) (hlive : holder ∈ s.ends side) :
      Move s ({ s with state := s.state.clone side }.setEnds side (s.ends side ++ [fresh]))
  | dropped (side : Side) (holder : ℕ) (hlive : holder ∈ s.ends side)
      (hunused : ∀ call ∈ s.calls, call.op.side = side → call.holder ≠ holder) :
      Move s ({ s with
        state := (s.state.drop side).1
        closing :=
          if (s.state.drop side).2 then s.closing ++ [side.notifies] else s.closing }.setEnds
            side ((s.ends side).erase holder))
  | entered (holder : ℕ) (op : Op α) (hlive : holder ∈ s.ends op.side) :
      Move s { s with calls := s.calls ++ [⟨holder, op, .entering⟩] }
  | passed (i : ℕ) (call : Call α) (hcall : s.calls[i]? = some call)
      (hstage : call.stage = .entering ∨ call.stage = .woken) :
      Move s (s.afterPass i call (s.state.pass s.capacity call.op))
  | notifiedOne (i j : ℕ) (call waiter : Call α) (hcall : s.calls[i]? = some call)
      (hstage : call.stage = .notifying) (hwaiter : s.calls[j]? = some waiter)
      (hwaits : waiter.stage = .waiting)
      (hcondvar : waiter.op.side.awaits = call.op.side.notifies) :
      Move s ((s.setStage j waiter .woken).leave i)
  | notifiedNone (i : ℕ) (call : Call α) (hcall : s.calls[i]? = some call)
      (hstage : call.stage = .notifying)
      (hnone : s.calls.any (Awaits call.op.side.notifies) = false) : Move s (s.leave i)
  | notifiedAll (condvar : Condvar) (hclosing : condvar ∈ s.closing) :
      Move s ({ s with closing := s.closing.erase condvar }.wakeAll condvar)
  | woke (j : ℕ) (waiter : Call α) (hwaiter : s.calls[j]? = some waiter)
      (hwaits : waiter.stage = .waiting) : Move s (s.setStage j waiter .woken)

theorem callAt_eq_some {s : System α} {i : ℕ} {stages : List Stage} {call : Call α}
    (h : s.callAt i stages = some call) : s.calls[i]? = some call ∧ call.stage ∈ stages := by
  obtain ⟨hcall, hstage⟩ := Option.filter_eq_some_iff.mp h
  exact ⟨hcall, by simpa using hstage⟩

theorem step_move {s t : System α} {label : Label α} (h : s.step label = some t) : Move s t := by
  cases label with
  | clone side holder fresh =>
      rw [step, Option.ite_none_right_eq_some] at h
      obtain ⟨⟨hlive, -⟩, ht⟩ := h
      rw [← Option.some.inj ht]
      exact .cloned side holder fresh hlive
  | drop side holder =>
      rw [step, Option.ite_none_right_eq_some] at h
      obtain ⟨⟨hlive, hunused⟩, ht⟩ := h
      rw [← Option.some.inj ht]
      refine .dropped side holder hlive fun call hcall hside hholder => ?_
      have hother := List.all_eq_true.mp hunused call hcall
      simp [hside, hholder] at hother
  | enter holder op =>
      rw [step, Option.ite_none_right_eq_some] at h
      obtain ⟨hlive, ht⟩ := h
      rw [← Option.some.inj ht]
      exact .entered holder op hlive
  | pass i =>
      rw [step] at h
      obtain ⟨call, hcall, rfl⟩ := Option.map_eq_some_iff.mp h
      obtain ⟨hget, hstage⟩ := callAt_eq_some hcall
      exact .passed i call hget (by simpa using hstage)
  | notifyOne i j =>
      rw [step] at h
      cases hcall : s.callAt i [.notifying] with
      | none => simp [hcall] at h
      | some call =>
          simp only [hcall] at h
          obtain ⟨hget, hstage⟩ := callAt_eq_some hcall
          rw [List.mem_singleton] at hstage
          cases j with
          | none =>
              dsimp only at h
              split_ifs at h with hany
              rw [← Option.some.inj h]
              exact .notifiedNone i call hget hstage (by simpa using hany)
          | some j =>
              obtain ⟨u, hwake, rfl⟩ := Option.map_eq_some_iff.mp h
              unfold wake at hwake
              cases hwaiter : s.callAt j [.waiting] with
              | none => simp [hwaiter] at hwake
              | some waiter =>
                  simp only [hwaiter] at hwake
                  split_ifs at hwake with hcondvar
                  obtain ⟨hget', hwaits⟩ := callAt_eq_some hwaiter
                  rw [← Option.some.inj hwake]
                  exact .notifiedOne i j call waiter hget hstage hget'
                    (List.mem_singleton.mp hwaits) hcondvar
  | notifyAll condvar =>
      rw [step, Option.ite_none_right_eq_some] at h
      obtain ⟨hclosing, ht⟩ := h
      rw [← Option.some.inj ht]
      exact .notifiedAll condvar hclosing
  | spurious j =>
      rw [step] at h
      obtain ⟨waiter, hwaiter, rfl⟩ := Option.map_eq_some_iff.mp h
      obtain ⟨hget, hwaits⟩ := callAt_eq_some hwaiter
      exact .woke j waiter hget (List.mem_singleton.mp hwaits)

/-! ### What happened -/

/-- The value that a call put into the queue. -/
def acceptedBy : Op α × Result α → Option α
  | (.send value, .sent) => some value
  | _ => none

/-- The value that a call took out of the queue. -/
def receivedBy : Op α × Result α → Option α
  | (_, .received value) => some value
  | _ => none

/-- The values of the accepted sends, in their order. -/
def accepted (s : System α) : List α := s.results.filterMap acceptedBy

/-- The values that all receivers received, in their order. -/
def received (s : System α) : List α := s.results.filterMap receivedBy

end System

end PgDelta.Chan
