import PgDelta.Chan.Fifo

/-!
No wakeup of the channel is lost. A notification follows the critical section
that it is about, so that by the time it is delivered another party may have
taken what it announces. What holds at every moment is a count: where calls
wait, the chances they wait for are no more than the calls that were woken and
have not looked again, together with the notifications on their way.
-/

namespace PgDelta.Chan

open PgDelta.Lib

/-! ### Counting in a list with one place changed -/

theorem countP_set_add {α : Type} {l : List α} {i : ℕ} {a : α} (h : l[i]? = some a)
    (p : α → Bool) (b : α) :
    (l.set i b).countP p + (p a).toNat = l.countP p + (p b).toNat := by
  obtain ⟨hi, rfl⟩ := List.getElem?_eq_some_iff.mp h
  have hsplit : l = l.take i ++ l[i] :: l.drop (i + 1) := by simp
  have hset : l.set i b = l.take i ++ b :: l.drop (i + 1) := List.set_eq_take_append_cons_drop.trans
    (if_pos hi)
  have hcount := congrArg (List.countP p) hsplit
  rw [List.countP_append, List.countP_cons] at hcount
  rw [hset, List.countP_append, List.countP_cons, hcount]
  cases p l[i] <;> cases p b <;> simp <;> omega

theorem countP_eraseIdx_add {α : Type} {l : List α} {i : ℕ} {a : α} (h : l[i]? = some a)
    (p : α → Bool) : (l.eraseIdx i).countP p + (p a).toNat = l.countP p := by
  obtain ⟨hi, rfl⟩ := List.getElem?_eq_some_iff.mp h
  have hsplit : l = l.take i ++ l[i] :: l.drop (i + 1) := by simp
  have hcount := congrArg (List.countP p) hsplit
  rw [List.countP_append, List.countP_cons] at hcount
  rw [List.eraseIdx_eq_take_drop_succ, List.countP_append, hcount]
  cases p l[i] <;> simp; omega

/-! ### Where the calls stand -/

def Side.other : Side → Side
  | .sender => .receiver
  | .receiver => .sender

/-- A call of a side stands at a stage. -/
def Call.stands {α : Type} (side : Side) (stage : Stage) (call : Call α) : Bool :=
  decide (call.op.side = side ∧ call.stage = stage)

namespace System

variable {α : Type}

def standing (s : System α) (side : Side) (stage : Stage) : ℕ :=
  s.calls.countP (Call.stands side stage)

/-- What the calls of a side wait for: values, or room for them. -/
def chances (s : System α) : Side → ℕ
  | .sender => s.capacity - s.state.items.length
  | .receiver => s.state.items.length

theorem standing_setStage {s : System α} {i : ℕ} {call : Call α} (hcall : s.calls[i]? = some call)
    (side : Side) (stage stage' : Stage) :
    (s.setStage i call stage').standing side stage + (call.stands side stage).toNat
      = s.standing side stage
        + (({ call with stage := stage' } : Call α).stands side stage).toNat :=
  countP_set_add hcall _ _

theorem standing_leave {s : System α} {i : ℕ} {call : Call α} (hcall : s.calls[i]? = some call)
    (side : Side) (stage : Stage) :
    (s.leave i).standing side stage + (call.stands side stage).toNat = s.standing side stage :=
  countP_eraseIdx_add hcall _

/-- Where calls of a side wait, either all of them are about to be woken, or
each chance has a call that will look, or a notification on its way. -/
def Covered (s : System α) (side : Side) : Prop :=
  0 < s.standing side .waiting →
    side.awaits ∈ s.closing ∨ s.state.count side.other ≠ 0 ∧
      s.chances side ≤ s.standing side .woken + s.standing side.other .notifying

theorem stands_of_ne_side {call : Call α} {side : Side} (h : call.op.side ≠ side) (stage : Stage) :
    call.stands side stage = false :=
  decide_eq_false fun hstands => h hstands.1

theorem stands_of_ne_stage {call : Call α} {stage : Stage} (h : call.stage ≠ stage) (side : Side) :
    call.stands side stage = false :=
  decide_eq_false fun hstands => h hstands.2

theorem other_ne (side : Side) : side.other ≠ side := by
  cases side <;> decide

theorem awaits_other (side : Side) : side.other.awaits = side.notifies := by
  cases side <;> rfl

/-- Where no call starts to wait, it is enough that the chances grow no more
than the calls and the notifications that cover them. -/
theorem Covered.mono {s t : System α} {side : Side} (h : s.Covered side)
    (hwaiting : t.standing side .waiting ≤ s.standing side .waiting)
    (hclosing : side.awaits ∈ s.closing → side.awaits ∈ t.closing)
    (hcount : s.state.count side.other ≠ 0 →
      t.state.count side.other ≠ 0 ∨ side.awaits ∈ t.closing)
    (hcover : s.state.count side.other ≠ 0 →
      t.chances side + (s.standing side .woken + s.standing side.other .notifying) ≤
        s.chances side + (t.standing side .woken + t.standing side.other .notifying)) :
    t.Covered side := by
  intro hwaits
  obtain hmem | ⟨hopen, hle⟩ := h (hwaits.trans_le hwaiting)
  · exact .inl (hclosing hmem)
  · obtain hopen' | hmem := hcount hopen
    · have hcover := hcover hopen
      exact .inr ⟨hopen', by omega⟩
    · exact .inl hmem

theorem Covered.wait {s : System α} {side : Side} {i : ℕ} {call : Call α} (h : s.Covered side)
    (hcall : s.calls[i]? = some call) (hstage : call.stage = .entering ∨ call.stage = .woken)
    (hnone : call.op.side = side → s.state.count side.other ≠ 0 ∧ s.chances side = 0) :
    (s.setStage i call .waiting).Covered side := by
  have hchances : (s.setStage i call .waiting).chances side = s.chances side := by
    cases side <;> rfl
  by_cases hside : call.op.side = side
  · obtain ⟨hcount, hzero⟩ := hnone hside
    intro _
    refine .inr ⟨hcount, ?_⟩
    rw [hchances, hzero]
    exact Nat.zero_le _
  · have hsame : ∀ stage, (s.setStage i call .waiting).standing side stage
        = s.standing side stage := by
      intro stage
      have hset := standing_setStage hcall side stage .waiting
      rw [stands_of_ne_side hside, stands_of_ne_side (by exact hside)] at hset
      exact hset
    have hnotifying : (s.setStage i call .waiting).standing side.other .notifying
        = s.standing side.other .notifying := by
      have hset := standing_setStage hcall side.other .notifying .waiting
      have hne : call.stage ≠ .notifying := by
        obtain hstage | hstage := hstage <;> simp [hstage]
      rw [stands_of_ne_stage hne, stands_of_ne_stage (by simp)] at hset
      exact hset
    refine h.mono (hsame _).le id .inl fun _ => ?_
    rw [hchances, hsame, hnotifying]

/-- A pass that is over takes a chance as it goes, or opens one for the other
side and is about to notify it. -/
theorem Covered.done {s : System α} {side : Side} {i : ℕ} {call : Call α} {state : State α}
    {result : Result α} {notify : Bool} (h : s.Covered side) (hcall : s.calls[i]? = some call)
    (hstage : call.stage = .entering ∨ call.stage = .woken)
    (hpasses : Passes s.state s.capacity call.op (.done state result notify)) :
    (s.afterPass i call (.done state result notify)).Covered side := by
  obtain ⟨hstate, -, hcapacity, -⟩ := s.afterPass_done i call state result notify
  have hstanding : ∀ side stage,
      (s.afterPass i call (.done state result notify)).standing side stage
          + (call.stands side stage).toNat
        = s.standing side stage +
          (notify && ({ call with stage := .notifying } : Call α).stands side stage).toNat := by
    intro side stage
    cases notify with
    | true => exact countP_set_add hcall _ _
    | false => exact countP_eraseIdx_add hcall _
  have hclosing : (s.afterPass i call (.done state result notify)).closing = s.closing := by
    cases notify <;> rfl
  generalize s.afterPass i call (.done state result notify) = t at *
  obtain ⟨holder, op, stage⟩ := call
  dsimp only at hstage hpasses hstanding
  have hwaiting := hstanding side .waiting
  have hwoken := hstanding side .woken
  have hnotifying := hstanding side.other .notifying
  have hcount : t.state.count side.other = s.state.count side.other := by
    rw [hstate]
    cases hpasses with
    | _ => rfl
  -- A call that is done waits no longer; what it owes the other side is its notification.
  refine h.mono ?_ (by rw [hclosing]; exact id) (by rw [hcount]; exact .inl) ?_
  · have hnew := @stands_of_ne_stage _ ⟨holder, op, .notifying⟩ .waiting (by simp) side
    rw [hnew, Bool.and_false, Bool.toNat_false] at hwaiting
    omega
  · intro hopen
    cases hpasses with
    | refused hclosed =>
        cases side with
        | sender => exact absurd hclosed hopen
        | receiver =>
            simp only [chances, hstate]
            obtain rfl | rfl := hstage <;>
              simp [Call.stands, Op.side, Side.other] at hwoken hnotifying ⊢ <;> omega
    | sent hroom hlt =>
        cases side with
        | sender =>
            simp only [chances, hstate, hcapacity, List.length_append, List.length_singleton]
            obtain rfl | rfl := hstage <;>
              simp [Call.stands, Op.side, Side.other] at hwoken hnotifying ⊢ <;> omega
        | receiver =>
            simp only [chances, hstate, List.length_append, List.length_singleton]
            obtain rfl | rfl := hstage <;>
              simp [Call.stands, Op.side, Side.other] at hwoken hnotifying ⊢ <;> omega
    | received hitems =>
        cases side with
        | sender =>
            simp only [chances, hstate, hcapacity, hitems, List.length_cons]
            obtain rfl | rfl := hstage <;>
              simp [Call.stands, Op.side, Side.other] at hwoken hnotifying ⊢ <;> omega
        | receiver =>
            simp only [chances, hstate, hitems, List.length_cons]
            obtain rfl | rfl := hstage <;>
              simp [Call.stands, Op.side, Side.other] at hwoken hnotifying ⊢ <;> omega
    | ended hitems hclosed =>
        cases side with
        | sender =>
            simp only [chances, hstate, hcapacity]
            obtain rfl | rfl := hstage <;>
              simp [Call.stands, Op.side, Side.other] at hwoken hnotifying ⊢ <;> omega
        | receiver => exact absurd hclosed hopen

theorem chances_congr {s t : System α} (hstate : t.state.items = s.state.items)
    (hcapacity : t.capacity = s.capacity) (side : Side) : t.chances side = s.chances side := by
  cases side with
  | sender => rw [chances, chances, hstate, hcapacity]
  | receiver => rw [chances, chances, hstate]

theorem standing_congr {s t : System α} (h : t.calls = s.calls) (side : Side) (stage : Stage) :
    t.standing side stage = s.standing side stage := by
  rw [standing, h, standing]

/-- A notification of one takes a call from those that wait to those that will
look, and is no longer on its way. -/
theorem Covered.notifyOne {s : System α} {side : Side} {i j : ℕ} {call waiter : Call α}
    (h : s.Covered side) (hcall : s.calls[i]? = some call) (hstage : call.stage = .notifying)
    (hwaiter : s.calls[j]? = some waiter) (hwaits : waiter.stage = .waiting)
    (hcondvar : waiter.op.side.awaits = call.op.side.notifies) :
    ((s.setStage j waiter .woken).leave i).Covered side := by
  have hne : j ≠ i := by
    rintro rfl
    rw [hcall] at hwaiter
    rw [Option.some.inj hwaiter, hwaits] at hstage
    cases hstage
  have hcall' : (s.setStage j waiter .woken).calls[i]? = some call := by
    rw [setStage, List.getElem?_set_ne hne, hcall]
  have hwoken := standing_setStage hwaiter side .woken .woken
  have hwaiting := standing_setStage hwaiter side .waiting .woken
  have hnotifying := standing_setStage hwaiter side.other .notifying .woken
  have hwoken' := standing_leave hcall' side .woken
  have hwaiting' := standing_leave hcall' side .waiting
  have hnotifying' := standing_leave hcall' side.other .notifying
  have hchances : ((s.setStage j waiter .woken).leave i).chances side = s.chances side :=
    chances_congr rfl rfl side
  obtain ⟨holder, op, stage⟩ := call
  obtain ⟨holder', op', stage'⟩ := waiter
  obtain rfl : stage = .notifying := hstage
  obtain rfl : stage' = .waiting := hwaits
  -- The call that is woken stands on the side that the notification is for.
  have hcover : op'.side = side ∧ op.side = side.other ∨
      op'.side ≠ side ∧ op.side ≠ side.other := by
    cases op with
    | _ => cases op' with
      | _ => cases side with
        | _ => simp_all [Op.side, Side.awaits, Side.notifies, Side.other]
  refine h.mono ?_ id .inl fun _ => ?_
  · obtain ⟨hside, hside'⟩ | ⟨hside, hside'⟩ := hcover
    · simp [Call.stands, hside] at hwaiting hwaiting'
      omega
    · simp [Call.stands, hside] at hwaiting hwaiting'
      omega
  · rw [hchances]
    obtain ⟨hside, hside'⟩ | ⟨hside, hside'⟩ := hcover
    · simp [Call.stands, hside, hside', (other_ne side).symm]
        at hwoken hwoken' hnotifying hnotifying'
      omega
    · simp [Call.stands, hside, hside'] at hwoken hwoken' hnotifying hnotifying'
      omega

/-- Waking all leaves no call waiting, and touches no other calls. -/
theorem standing_wakeAll (s : System α) (condvar : Condvar) {side : Side} {stage : Stage}
    (h : side.awaits ≠ condvar ∨ stage = .notifying) :
    (s.wakeAll condvar).standing side stage = s.standing side stage := by
  rw [standing, wakeAll, List.countP_map, standing]
  congr 1
  funext call
  rw [Function.comp_apply]
  split_ifs with hawaits
  · rw [Awaits, Bool.and_eq_true, beq_iff_eq, beq_iff_eq] at hawaits
    obtain hne | rfl := h
    · have hside : call.op.side ≠ side := by
        rintro rfl
        exact hne hawaits.1
      rw [stands_of_ne_side hside, stands_of_ne_side (by exact hside)]
    · rw [stands_of_ne_stage (by simp), stands_of_ne_stage (by simp [hawaits.2])]
  · rfl

theorem standing_wakeAll_waiting (s : System α) (side : Side) :
    (s.wakeAll side.awaits).standing side .waiting = 0 := by
  rw [standing, wakeAll, List.countP_map, List.countP_eq_zero]
  intro call _
  rw [Function.comp_apply]
  split_ifs with hawaits
  · rw [stands_of_ne_stage (by simp)]
    exact Bool.false_ne_true
  · intro hstands
    obtain ⟨hside, hstage⟩ := of_decide_eq_true hstands
    rw [Awaits, hside, hstage, beq_self_eq_true, beq_self_eq_true] at hawaits
    exact hawaits rfl

/-- A step that moves no call between the stages and leaves the queue alone. -/
theorem Covered.frame {s t : System α} {side : Side} (h : s.Covered side)
    (hstanding : ∀ side stage, stage ≠ .entering → t.standing side stage = s.standing side stage)
    (hitems : t.state.items = s.state.items) (hcapacity : t.capacity = s.capacity)
    (hclosing : side.awaits ∈ s.closing → side.awaits ∈ t.closing)
    (hcount : s.state.count side.other ≠ 0 →
      t.state.count side.other ≠ 0 ∨ side.awaits ∈ t.closing) : t.Covered side := by
  refine h.mono (hstanding _ _ (by simp)).le hclosing hcount fun _ => ?_
  rw [hstanding _ _ (by simp), hstanding _ _ (by simp), chances_congr hitems hcapacity]

theorem Covered.drop {s : System α} {side dropped : Side} (h : s.Covered side) (ends : List ℕ) :
    ({ s with
        state := (s.state.drop dropped).1
        closing := if (s.state.drop dropped).2 then s.closing ++ [dropped.notifies]
          else s.closing }.setEnds dropped ends).Covered side := by
  refine h.frame (fun side stage _ => standing_congr (calls_setEnds _ _ _) side stage)
    (by simp) (capacity_setEnds _ _ _) ?_ ?_
  · intro hmem
    rw [closing_setEnds]
    split_ifs
    · exact List.mem_append_left _ hmem
    · exact hmem
  · intro hopen
    rw [state_setEnds, closing_setEnds, State.count_drop, State.drop_last]
    by_cases hside : side.other = dropped
    · subst hside
      rw [if_pos rfl]
      by_cases hlast : s.state.count side.other - 1 = 0
      · refine .inr ?_
        rw [if_pos (decide_eq_true hlast)]
        refine List.mem_append_right _ (List.mem_singleton.mpr ?_)
        cases side <;> rfl
      · exact .inl hlast
    · rw [if_neg hside]
      exact .inl hopen

theorem Covered.wakeAll {s : System α} {side : Side} (h : s.Covered side) (condvar : Condvar) :
    ({ s with closing := s.closing.erase condvar }.wakeAll condvar).Covered side := by
  by_cases hcondvar : side.awaits = condvar
  · subst hcondvar
    intro hwaits
    rw [standing_wakeAll_waiting] at hwaits
    exact absurd hwaits (lt_irrefl 0)
  · have hchances : ({ s with closing := s.closing.erase condvar }.wakeAll condvar).chances side
        = s.chances side := chances_congr rfl rfl side
    refine h.mono (standing_wakeAll _ condvar (.inl hcondvar)).le ?_ .inl fun _ => ?_
    · exact (List.mem_erase_of_ne hcondvar).mpr
    · rw [hchances, standing_wakeAll _ condvar (.inl hcondvar),
        standing_wakeAll _ condvar (.inr rfl)]
      exact le_rfl

theorem Covered.woke {s : System α} {side : Side} {j : ℕ} {waiter : Call α} (h : s.Covered side)
    (hwaiter : s.calls[j]? = some waiter) (hwaits : waiter.stage = .waiting) :
    (s.setStage j waiter .woken).Covered side := by
  have hwoken := standing_setStage hwaiter side .woken .woken
  have hwaiting := standing_setStage hwaiter side .waiting .woken
  have hnotifying := standing_setStage hwaiter side.other .notifying .woken
  have hchances : (s.setStage j waiter .woken).chances side = s.chances side :=
    chances_congr rfl rfl side
  obtain ⟨holder, op, stage⟩ := waiter
  obtain rfl : stage = .waiting := hwaits
  refine h.mono ?_ id .inl fun _ => ?_
  · simp [Call.stands] at hwaiting
    omega
  · rw [hchances]
    simp [Call.stands] at hwoken hnotifying
    omega

theorem Covered.notifyNone {s : System α} {side : Side} {i : ℕ} {call : Call α} (h : s.Covered side)
    (hcall : s.calls[i]? = some call) (hstage : call.stage = .notifying)
    (hnone : s.calls.any (Awaits call.op.side.notifies) = false) : (s.leave i).Covered side := by
  have hwoken := standing_leave hcall side .woken
  have hwaiting := standing_leave hcall side .waiting
  have hnotifying := standing_leave hcall side.other .notifying
  have hchances : (s.leave i).chances side = s.chances side := chances_congr rfl rfl side
  rw [stands_of_ne_stage (by simp [hstage])] at hwoken hwaiting
  by_cases hside : call.op.side = side.other
  · have hzero : s.standing side .waiting = 0 := by
      rw [standing, List.countP_eq_zero]
      intro other hother hstands
      obtain ⟨hother', hwaits⟩ := of_decide_eq_true hstands
      have hfalse := List.any_eq_false.mp hnone other hother
      rw [Awaits, hother', hwaits, hside, ← awaits_other] at hfalse
      cases side <;> exact hfalse rfl
    intro hwaits
    simp only [Bool.toNat_false] at hwaiting
    omega
  · rw [stands_of_ne_side hside] at hnotifying
    simp only [Bool.toNat_false] at hwoken hwaiting hnotifying
    refine h.mono (by omega) id .inl fun _ => ?_
    rw [hchances]
    omega

theorem Covered.step {s t : System α} {label : Label α} {side : Side} (h : s.Covered side)
    (hstep : s.step label = some t) : t.Covered side := by
  cases step_move hstep with
  | cloned side' holder fresh hlive =>
      refine h.frame (fun side stage _ => standing_congr (calls_setEnds _ _ _) side stage)
        (by simp) (capacity_setEnds _ _ _) (by rw [closing_setEnds]; exact id) ?_
      intro hopen
      rw [state_setEnds, State.count_clone]
      split_ifs
      · exact .inl (Nat.succ_ne_zero _)
      · exact .inl hopen
  | dropped side' holder hlive hunused => exact h.drop _
  | entered holder op hlive =>
      refine h.frame (fun side stage hne => ?_) rfl rfl id .inl
      rw [standing, List.countP_append, List.countP_singleton,
        stands_of_ne_stage (by exact hne.symm)]
      rfl
  | passed i call hcall hstage =>
      have hpasses := s.state.passes s.capacity call.op
      generalize hpass : s.state.pass s.capacity call.op = pass at hpasses
      cases pass with
      | done state result notify => exact h.done hcall hstage hpasses
      | wait =>
          refine h.wait hcall hstage fun hside => ?_
          subst hside
          generalize hop : call.op = op at hpasses
          cases hpasses with
          | full hopen hfull => exact ⟨hopen, Nat.sub_eq_zero_of_le hfull⟩
          | empty hitems hopen => exact ⟨hopen, by rw [Op.side, chances, hitems]; rfl⟩
  | notifiedOne i j call waiter hcall hstage hwaiter hwaits hcondvar =>
      exact h.notifyOne hcall hstage hwaiter hwaits hcondvar
  | notifiedNone i call hcall hstage hnone => exact h.notifyNone hcall hstage hnone
  | notifiedAll condvar hclosing => exact h.wakeAll condvar
  | woke j waiter hwaiter hwaits => exact h.woke hwaiter hwaits

theorem standing_pos {s : System α} {side : Side} {stage : Stage} :
    0 < s.standing side stage ↔ ∃ call ∈ s.calls, call.op.side = side ∧ call.stage = stage := by
  simp [standing, List.countP_pos_iff, Call.stands]

/-- No wakeup is lost: where calls of a side wait that could go on, a call of
the side was woken and has not looked again, or a wakeup is on its way: of a call of the other
side that is about to notify one, or of the last end of the other side that is
about to notify all. -/
theorem no_lost_wakeup {capacity : ℕ} {labels : List (Label α)} {s : System α}
    (hrun : runFrom step (bounded α capacity) labels = some s) :
    ((∃ call ∈ s.calls, call.op.side = .receiver ∧ call.stage = .waiting) →
      s.state.items ≠ [] ∨ s.senderEnds = [] →
        (∃ call ∈ s.calls, call.op.side = .receiver ∧ call.stage = .woken) ∨
          (∃ call ∈ s.calls, call.op.side = .sender ∧ call.stage = .notifying) ∨
          Condvar.notEmpty ∈ s.closing) ∧
    ((∃ call ∈ s.calls, call.op.side = .sender ∧ call.stage = .waiting) →
      s.state.items.length < s.capacity ∨ s.receiverEnds = [] →
        (∃ call ∈ s.calls, call.op.side = .sender ∧ call.stage = .woken) ∨
          (∃ call ∈ s.calls, call.op.side = .receiver ∧ call.stage = .notifying) ∨
          Condvar.notFull ∈ s.closing) := by
  have hsound : s.Sound :=
    runFrom_invariant (fun u label t hu hstep => hu.step hstep) (bounded_sound capacity) hrun
  have hcovered : ∀ side, s.Covered side := by
    intro side
    apply runFrom_invariant (fun u label t hu hstep => hu.step hstep) _ hrun
    intro hwaits
    exact absurd hwaits (lt_irrefl 0)
  have hcount : ∀ side, s.ends side = [] → s.state.count side = 0 := by
    intro side hends
    rw [hsound.counted, hends, List.length_nil]
  -- One argument for both sides: what covers the chances is one of the two.
  have hside : ∀ side, (∃ call ∈ s.calls, call.op.side = side ∧ call.stage = .waiting) →
      0 < s.chances side ∨ s.ends side.other = [] →
        (∃ call ∈ s.calls, call.op.side = side ∧ call.stage = .woken) ∨
          (∃ call ∈ s.calls, call.op.side = side.other ∧ call.stage = .notifying) ∨
          side.awaits ∈ s.closing := by
    intro side hwaits hready
    rw [← standing_pos] at hwaits ⊢
    rw [← standing_pos]
    obtain hclosing | ⟨hopen, hle⟩ := hcovered side hwaits
    · exact .inr (.inr hclosing)
    · obtain hchances | hgone := hready
      · by_cases hwoken : 0 < s.standing side .woken
        · exact .inl hwoken
        · exact .inr (.inl (by omega))
      · exact absurd (hcount _ hgone) hopen
  refine ⟨fun hwaits hready => hside .receiver hwaits ?_, fun hwaits hready =>
    hside .sender hwaits ?_⟩
  · exact hready.imp_left List.length_pos_iff.mpr
  · exact hready.imp_left Nat.sub_pos_of_lt

/-- The receiver waits, its value is in the queue, and nobody has told it yet. -/
theorem no_lost_wakeup_relay :
    ∃ s, runFrom step (bounded ℕ 0) (relay.take 4) = some s ∧
      ((∃ call ∈ s.calls, call.op.side = .receiver ∧ call.stage = .woken) ∨
        (∃ call ∈ s.calls, call.op.side = .sender ∧ call.stage = .notifying) ∨
        Condvar.notEmpty ∈ s.closing) := by
  obtain ⟨s, hs, hwaits, hready⟩ : ∃ s, runFrom step (bounded ℕ 0) (relay.take 4) = some s ∧
      (∃ call ∈ s.calls, call.op.side = .receiver ∧ call.stage = .waiting) ∧ s.state.items ≠ [] :=
    ⟨_, rfl, ⟨⟨0, .recv, .waiting⟩, by decide, rfl, rfl⟩, by decide⟩
  exact ⟨s, hs, (no_lost_wakeup hs).1 hwaits (.inl hready)⟩

end System

end PgDelta.Chan
