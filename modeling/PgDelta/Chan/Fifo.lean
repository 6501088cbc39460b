import PgDelta.Chan.Channel

/-!
The channel as a queue: bounded, in order, and closed for good once one side is
gone. All of it is kept by every critical section, whoever makes it.
-/

namespace PgDelta.Chan

open PgDelta.Lib

namespace System

variable {α : Type}

/-! ### Fields that a step leaves alone -/

@[simp] theorem ends_setEnds (s : System α) (side other : Side) (ends : List ℕ) :
    (s.setEnds side ends).ends other = if other = side then ends else s.ends other := by
  cases side <;> cases other <;> rfl

@[simp] theorem state_setEnds (s : System α) (side : Side) (ends : List ℕ) :
    (s.setEnds side ends).state = s.state := by
  cases side <;> rfl

@[simp] theorem capacity_setEnds (s : System α) (side : Side) (ends : List ℕ) :
    (s.setEnds side ends).capacity = s.capacity := by
  cases side <;> rfl

@[simp] theorem results_setEnds (s : System α) (side : Side) (ends : List ℕ) :
    (s.setEnds side ends).results = s.results := by
  cases side <;> rfl

@[simp] theorem calls_setEnds (s : System α) (side : Side) (ends : List ℕ) :
    (s.setEnds side ends).calls = s.calls := by
  cases side <;> rfl

@[simp] theorem closing_setEnds (s : System α) (side : Side) (ends : List ℕ) :
    (s.setEnds side ends).closing = s.closing := by
  cases side <;> rfl

theorem accepted_congr {s t : System α} (h : t.results = s.results) : t.accepted = s.accepted := by
  rw [accepted, h, accepted]

theorem received_congr {s t : System α} (h : t.results = s.results) : t.received = s.received := by
  rw [received, h, received]

/-- What a call adds to the accepted values. -/
theorem accepted_snoc {s t : System α} {r : Op α × Result α}
    (h : t.results = s.results ++ [r]) : t.accepted = s.accepted ++ (acceptedBy r).toList := by
  rw [accepted, h, List.filterMap_append, ← accepted, List.filterMap_cons, List.filterMap_nil]
  cases acceptedBy r <;> rfl

theorem received_snoc {s t : System α} {r : Op α × Result α}
    (h : t.results = s.results ++ [r]) : t.received = s.received ++ (receivedBy r).toList := by
  rw [received, h, List.filterMap_append, ← received, List.filterMap_cons, List.filterMap_nil]
  cases receivedBy r <;> rfl

/-! ### A pass -/

/-- A pass that is over leaves its state and its result behind. -/
theorem afterPass_done (s : System α) (i : ℕ) (call : Call α) (state : State α)
    (result : Result α) (notify : Bool) :
    (s.afterPass i call (.done state result notify)).state = state ∧
      (s.afterPass i call (.done state result notify)).results
        = s.results ++ [(call.op, result)] ∧
      (s.afterPass i call (.done state result notify)).capacity = s.capacity ∧
      ∀ side, (s.afterPass i call (.done state result notify)).ends side = s.ends side := by
  cases notify <;> exact ⟨rfl, rfl, rfl, fun side => by cases side <;> rfl⟩

/-! ### The calls -/

/-- The calls of a state are calls of another one, at stages of their own. -/
def CallsOf (s t : System α) : Prop :=
  ∀ call ∈ t.calls, ∃ earlier ∈ s.calls, earlier.holder = call.holder ∧ earlier.op = call.op

theorem CallsOf.trans {s t u : System α} (h : CallsOf s t) (h' : CallsOf t u) : CallsOf s u := by
  intro call hcall
  obtain ⟨middle, hmiddle, hholder, hop⟩ := h' call hcall
  obtain ⟨earlier, hearlier, hholder', hop'⟩ := h middle hmiddle
  exact ⟨earlier, hearlier, hholder'.trans hholder, hop'.trans hop⟩

theorem callsOf_setStage {s : System α} {i : ℕ} {call : Call α} (hcall : s.calls[i]? = some call)
    (stage : Stage) : CallsOf s (s.setStage i call stage) := by
  intro other hother
  obtain hother | rfl := List.mem_or_eq_of_mem_set hother
  · exact ⟨other, hother, rfl, rfl⟩
  · exact ⟨call, List.mem_of_getElem? hcall, rfl, rfl⟩

theorem callsOf_leave (s : System α) (i : ℕ) : CallsOf s (s.leave i) :=
  fun call hcall => ⟨call, List.mem_of_mem_eraseIdx hcall, rfl, rfl⟩

theorem callsOf_wakeAll (s : System α) (condvar : Condvar) : CallsOf s (s.wakeAll condvar) := by
  intro call hcall
  obtain ⟨earlier, hearlier, rfl⟩ := List.mem_map.mp hcall
  refine ⟨earlier, hearlier, ?_⟩
  split_ifs
  · exact ⟨rfl, rfl⟩
  · exact ⟨rfl, rfl⟩

theorem callsOf_afterPass {s : System α} {i : ℕ} {call : Call α}
    (hcall : s.calls[i]? = some call) (pass : Pass α) : CallsOf s (s.afterPass i call pass) := by
  cases pass with
  | wait => exact callsOf_setStage hcall .waiting
  | done state result notify =>
      cases notify with
      | true => exact @callsOf_setStage _ s i call hcall .notifying
      | false => exact s.callsOf_leave i

/-! ### The queue -/

/-- What the queue and the counts have to do with the calls and the ends. -/
structure Sound (s : System α) : Prop where
  bounded : s.state.items.length ≤ s.capacity
  fifo : s.received ++ s.state.items = s.accepted
  counted : ∀ side, s.state.count side = (s.ends side).length
  held : ∀ call ∈ s.calls, call.holder ∈ s.ends call.op.side

theorem bounded_sound (capacity : ℕ) : (bounded α capacity).Sound where
  bounded := Nat.zero_le _
  fifo := rfl
  counted := by
    intro side
    cases side <;> rfl
  held := by
    intro call hcall
    cases hcall

/-- A step that touches neither the queue nor the ends. -/
theorem Sound.congr {s t : System α} (h : s.Sound) (hstate : t.state = s.state)
    (hcapacity : t.capacity = s.capacity) (hresults : t.results = s.results)
    (hends : ∀ side, t.ends side = s.ends side) (hcalls : CallsOf s t) : t.Sound where
  bounded := by rw [hstate, hcapacity]; exact h.bounded
  fifo := by rw [hstate, received_congr hresults, accepted_congr hresults]; exact h.fifo
  counted := by
    intro side
    rw [hstate, hends]
    exact h.counted side
  held := by
    intro call hcall
    obtain ⟨earlier, hearlier, hholder, hop⟩ := hcalls call hcall
    rw [hends, ← hholder, ← hop]
    exact h.held earlier hearlier

theorem Sound.pass {s : System α} {i : ℕ} {call : Call α} (h : s.Sound)
    (hcall : s.calls[i]? = some call) :
    (s.afterPass i call (s.state.pass s.capacity call.op)).Sound := by
  have hpasses := s.state.passes s.capacity call.op
  generalize s.state.pass s.capacity call.op = pass at hpasses
  generalize hop : call.op = op at hpasses
  cases pass with
  | wait =>
      exact h.congr rfl rfl rfl (fun side => by cases side <;> rfl)
        (callsOf_afterPass hcall .wait)
  | done state result notify =>
      obtain ⟨hstate, hresults, hcapacity, hends⟩ := s.afterPass_done i call state result notify
      have haccepted := accepted_snoc hresults
      have hreceived := received_snoc hresults
      have hfifo := h.fifo
      refine ⟨?_, ?_, ?_, ?_⟩
      · rw [hstate, hcapacity]
        have hbounded := h.bounded
        cases hpasses with
        | refused hclosed => exact hbounded
        | sent hopen hroom =>
            rw [List.length_append]
            exact hroom
        | received hitems =>
            rw [hitems, List.length_cons] at hbounded
            exact (Nat.le_succ _).trans hbounded
        | ended hitems hclosed => exact hbounded
      · rw [hstate, haccepted, hreceived, hop]
        cases hpasses with
        | refused hclosed => simpa [acceptedBy, receivedBy] using hfifo
        | sent hopen hroom => simp [acceptedBy, receivedBy, ← hfifo]
        | received hitems =>
            rw [hitems] at hfifo
            simpa [acceptedBy, receivedBy] using hfifo
        | ended hitems hclosed => simpa [acceptedBy, receivedBy] using hfifo
      · intro side
        rw [hstate, hends, ← h.counted]
        cases hpasses with
        | _ => rfl
      · intro other hother
        obtain ⟨earlier, hearlier, hholder, hop'⟩ :=
          callsOf_afterPass hcall (.done state result notify) other hother
        rw [hends, ← hholder, ← hop']
        exact h.held earlier hearlier

theorem Sound.step {s t : System α} {label : Label α} (h : s.Sound)
    (hstep : s.step label = some t) :
    t.Sound := by
  cases step_move hstep with
  | cloned side holder fresh hlive =>
      refine ⟨?_, ?_, ?_, ?_⟩
      · simpa using h.bounded
      · rw [received_congr (results_setEnds _ _ _), accepted_congr (results_setEnds _ _ _),
          state_setEnds, State.items_clone]
        exact h.fifo
      · intro other
        have hcounted := h.counted other
        rw [state_setEnds, State.count_clone, ends_setEnds]
        by_cases hside : other = side
        · subst hside
          rw [if_pos rfl, if_pos rfl, List.length_append, List.length_singleton, hcounted]
        · rw [if_neg hside, if_neg hside]
          exact hcounted
      · intro call hcall
        rw [calls_setEnds] at hcall
        have hheld := h.held call hcall
        rw [ends_setEnds]
        split_ifs with hside
        · rw [← hside]
          exact List.mem_append_left _ hheld
        · exact hheld
  | dropped side holder hlive hunused =>
    -- no call borrows the end that is dropped
      refine ⟨?_, ?_, ?_, ?_⟩
      · simpa using h.bounded
      · rw [received_congr (results_setEnds _ _ _), accepted_congr (results_setEnds _ _ _),
          state_setEnds, State.items_drop]
        exact h.fifo
      · intro other
        have hcounted := h.counted other
        rw [state_setEnds, State.count_drop, ends_setEnds]
        by_cases hside : other = side
        · subst hside
          rw [if_pos rfl, if_pos rfl, List.length_erase_of_mem hlive, hcounted]
        · rw [if_neg hside, if_neg hside]
          exact hcounted
      · intro call hcall
        rw [calls_setEnds] at hcall
        have hheld := h.held call hcall
        rw [ends_setEnds]
        by_cases hside : call.op.side = side
        · rw [if_pos hside, ← hside]
          exact (List.mem_erase_of_ne (hunused call hcall hside)).mpr hheld
        · rw [if_neg hside]
          exact hheld
  | entered holder op hlive =>
      refine ⟨h.bounded, h.fifo, h.counted, ?_⟩
      intro call hcall
      obtain hcall | hcall := List.mem_append.mp hcall
      · exact h.held call hcall
      · rw [List.mem_singleton.mp hcall]
        exact hlive
  | passed i call hcall hstage => exact h.pass hcall
  | notifiedOne i j call waiter hcall hstage hwaiter hwaits hcondvar =>
      exact h.congr rfl rfl rfl (fun side => by cases side <;> rfl)
        ((callsOf_setStage hwaiter .woken).trans (callsOf_leave _ i))
  | notifiedNone i call hcall hstage hnone =>
      exact h.congr rfl rfl rfl (fun side => by cases side <;> rfl) (s.callsOf_leave i)
  | notifiedAll condvar hclosing =>
      exact h.congr rfl rfl rfl (fun side => by cases side <;> rfl) (s.callsOf_wakeAll condvar)
  | woke j waiter hwaiter hwaits =>
      exact h.congr rfl rfl rfl (fun side => by cases side <;> rfl)
        (callsOf_setStage hwaiter .woken)

/-! ### A closed channel -/

/-- A step has no result and leaves the queue alone, or is a pass that is over. -/
theorem step_results {s t : System α} {label : Label α} (h : s.step label = some t) :
    (t.results = s.results ∧ t.state.items = s.state.items) ∨
      ∃ i call state result notify, call ∈ s.calls ∧
        t = s.afterPass i call (.done state result notify) ∧
        Passes s.state s.capacity call.op (.done state result notify) := by
  cases step_move h with
  | cloned side holder fresh hlive => exact .inl ⟨results_setEnds _ _ _, by simp⟩
  | dropped side holder hlive hunused => exact .inl ⟨results_setEnds _ _ _, by simp⟩
  | entered holder op hlive => exact .inl ⟨rfl, rfl⟩
  | passed i call hcall hstage =>
      have hpasses := s.state.passes s.capacity call.op
      cases hpass : s.state.pass s.capacity call.op with
      | wait => exact .inl ⟨rfl, rfl⟩
      | done state result notify =>
          rw [hpass] at hpasses
          exact .inr ⟨i, call, state, result, notify, List.mem_of_getElem? hcall, rfl, hpasses⟩
  | notifiedOne i j call waiter hcall hstage hwaiter hwaits hcondvar => exact .inl ⟨rfl, rfl⟩
  | notifiedNone i call hcall hstage hnone => exact .inl ⟨rfl, rfl⟩
  | notifiedAll condvar hclosing => exact .inl ⟨rfl, rfl⟩
  | woke j waiter hwaiter hwaits => exact .inl ⟨rfl, rfl⟩

/-- A step with a result is a pass that comes to it. -/
theorem step_result {s t : System α} {label : Label α} {op : Op α} {result : Result α}
    (h : s.step label = some t) (hresult : t.results = s.results ++ [(op, result)]) :
    ∃ notify, Passes s.state s.capacity op (.done t.state result notify) := by
  obtain ⟨hnone, -⟩ | ⟨i, call, state, result', notify, -, rfl, hpasses⟩ := step_results h
  · rw [hnone] at hresult
    have hlen := congrArg List.length hresult
    rw [List.length_append, List.length_singleton] at hlen
    omega
  · obtain ⟨hstate, hresults, -, -⟩ := s.afterPass_done i call state result' notify
    rw [hresults] at hresult
    obtain ⟨rfl, rfl⟩ := Prod.mk.inj (List.singleton_inj.mp (List.append_cancel_left hresult))
    rw [hstate]
    exact ⟨notify, hpasses⟩

/-- A side that is gone stays gone. -/
theorem step_ends_nil {s t : System α} {label : Label α} {side : Side} (hends : s.ends side = [])
    (h : s.step label = some t) : t.ends side = [] := by
  cases step_move h with
  | cloned side' holder fresh hlive =>
      have hne : side ≠ side' := by
        rintro rfl
        rw [hends] at hlive
        cases hlive
      rw [ends_setEnds, if_neg hne]
      cases side <;> exact hends
  | dropped side' holder hlive hunused =>
      have hne : side ≠ side' := by
        rintro rfl
        rw [hends] at hlive
        cases hlive
      rw [ends_setEnds, if_neg hne]
      cases side <;> exact hends
  | entered holder op hlive => cases side <;> exact hends
  | passed i call hcall hstage =>
      cases s.state.pass s.capacity call.op with
      | wait => cases side <;> exact hends
      | done state result notify =>
          rw [(s.afterPass_done i call state result notify).2.2.2]
          exact hends
  | notifiedOne i j call waiter hcall hstage hwaiter hwaits hcondvar => cases side <;> exact hends
  | notifiedNone i call hcall hstage hnone => cases side <;> exact hends
  | notifiedAll condvar hclosing => cases side <;> exact hends
  | woke j waiter hwaiter hwaits => cases side <;> exact hends

/-- The queue is empty and no sender is left, and the receivers were told
nothing else than that since the results `before`. -/
structure Ended (before : List (Op α × Result α)) (s : System α) : Prop where
  sound : s.Sound
  senders : s.senderEnds = []
  items : s.state.items = []
  later : ∃ more, s.results = before ++ more ∧ ∀ r ∈ more, r.1 = .recv → r.2 = .ended

theorem Ended.step {before : List (Op α × Result α)} {s t : System α} {label : Label α}
    (h : s.Ended before) (hstep : s.step label = some t) : t.Ended before := by
  have hsound := h.sound.step hstep
  have hsenders : t.senderEnds = [] := @step_ends_nil _ s t label .sender h.senders hstep
  obtain ⟨more, hmore, hended⟩ := h.later
  obtain ⟨hresults, hitems⟩ | ⟨i, call, state, result, notify, hcall, rfl, hpasses⟩ :=
    step_results hstep
  · exact ⟨hsound, hsenders, hitems.trans h.items, more, hresults.trans hmore, hended⟩
  · obtain ⟨hstate, hresults, -, -⟩ := s.afterPass_done i call state result notify
    have hheld := h.sound.held call hcall
    have hitems := h.items
    have hkept : state.items = [] ∧ (call.op = .recv → result = .ended) := by
      generalize hop : call.op = op at hpasses hheld
      cases hpasses with
      | refused hclosed => exact ⟨hitems, fun hrecv => by cases hrecv⟩
      | sent hopen hroom =>
          -- A call to send borrows a sender, and none is left.
          have hnone : call.holder ∈ s.senderEnds := hheld
          rw [h.senders] at hnone
          cases hnone
      | received hcons =>
          rw [hitems] at hcons
          cases hcons
      | ended hempty hclosed => exact ⟨hitems, fun _ => rfl⟩
    refine ⟨hsound, hsenders, ?_, more ++ [(call.op, result)], ?_, ?_⟩
    · rw [hstate]
      exact hkept.1
    · rw [hresults, hmore, List.append_assoc]
    · intro r hr
      obtain hr | hr := List.mem_append.mp hr
      · exact hended r hr
      · rw [List.mem_singleton.mp hr]
        exact hkept.2

theorem step_capacity {s t : System α} {label : Label α} (h : s.step label = some t) :
    t.capacity = s.capacity := by
  cases step_move h with
  | cloned side holder fresh hlive => exact capacity_setEnds _ _ _
  | dropped side holder hlive hunused => exact capacity_setEnds _ _ _
  | passed i call hcall hstage =>
      cases s.state.pass s.capacity call.op with
      | wait => rfl
      | done state result notify => exact (s.afterPass_done i call state result notify).2.2.1
  | _ => rfl

/-- The channel is an exact bounded queue, whoever sends, receives, clones and
drops in whatever order: it is no longer than its capacity, what was received
and what it holds is what was accepted, a value is refused only without a
receiver and is not put into the queue, and the end is told only once no sender is left and
everything was received, and from then on for good. -/
theorem channel_is_bounded_fifo {capacity : ℕ} {labels : List (Label α)} {s : System α}
    (hrun : runFrom step (bounded α capacity) labels = some s) :
    s.state.items.length ≤ max 1 capacity ∧
      s.received ++ s.state.items = s.accepted ∧
      (s.state.senders = s.senderEnds.length ∧ s.state.receivers = s.receiverEnds.length) ∧
      (∀ label t op value, s.step label = some t →
        t.results = s.results ++ [(op, .refused value)] →
          op = .send value ∧ s.receiverEnds = [] ∧ t.state.items = s.state.items ∧
            t.accepted = s.accepted) ∧
      ∀ label t op, s.step label = some t → t.results = s.results ++ [(op, .ended)] →
        (s.senderEnds = [] ∧ s.received = s.accepted) ∧
          ∀ later u, runFrom step t later = some u →
            ∃ more, u.results = t.results ++ more ∧ ∀ r ∈ more, r.1 = .recv → r.2 = .ended := by
  have hsound : s.Sound :=
    runFrom_invariant (fun u label t hu hstep => hu.step hstep) (bounded_sound capacity) hrun
  have hcapacity : s.capacity = max capacity 1 :=
    @runFrom_invariant _ _ step (fun u => u.capacity = max capacity 1)
      (fun u label t hu hstep => (step_capacity hstep).trans hu) _ _ _ rfl hrun
  refine ⟨?_, hsound.fifo, ⟨hsound.counted .sender, hsound.counted .receiver⟩, ?_, ?_⟩
  · rw [max_comm, ← hcapacity]
    exact hsound.bounded
  · intro label t op value hstep hresult
    obtain ⟨notify, hpasses⟩ := step_result hstep hresult
    have haccepted := accepted_snoc hresult
    generalize ht : t.state = state at hpasses
    cases hpasses with
    | refused hclosed =>
        have hreceivers := hsound.counted .receiver
        rw [show s.state.count .receiver = 0 from hclosed] at hreceivers
        refine ⟨rfl, List.eq_nil_of_length_eq_zero hreceivers.symm, rfl, ?_⟩
        rw [haccepted]
        exact List.append_nil _
  · intro label t op hstep hresult
    obtain ⟨notify, hpasses⟩ := step_result hstep hresult
    generalize ht : t.state = state at hpasses
    cases hpasses with
    | ended hitems hclosed =>
        have hsenders := hsound.counted .sender
        rw [show s.state.count .sender = 0 from hclosed] at hsenders
        have hnone : s.senderEnds = [] := List.eq_nil_of_length_eq_zero hsenders.symm
        have hfifo := hsound.fifo
        rw [hitems, List.append_nil] at hfifo
        refine ⟨⟨hnone, hfifo⟩, ?_⟩
        intro later u hlater
        have hended : t.Ended t.results :=
          ⟨hsound.step hstep, @step_ends_nil _ s t label .sender hnone hstep, by rw [ht, hitems],
            [], (List.append_nil _).symm, by simp⟩
        exact (runFrom_invariant (fun u label t hu hstep => hu.step hstep) hended hlater).later

/-- A receiver that waits, a value for it, and the end of the channel. -/
def relay : List (Label ℕ) :=
  [.enter 0 .recv, .pass 0, .enter 0 (.send 7), .pass 1, .notifyOne 1 (some 0), .pass 0,
    .notifyOne 0 none, .drop .sender 0, .notifyAll .notEmpty, .enter 0 .recv, .pass 0]

theorem channel_is_bounded_fifo_relay :
    ∃ s, runFrom step (bounded ℕ 0) relay = some s ∧ s.received ++ s.state.items = s.accepted ∧
      s.results = [(.send 7, .sent), (.recv, .received 7), (.recv, .ended)] := by
  obtain ⟨s, hs, hresults⟩ : ∃ s, runFrom step (bounded ℕ 0) relay = some s ∧
      s.results = [(.send 7, .sent), (.recv, .received 7), (.recv, .ended)] :=
    Option.map_eq_some_iff.mp (by decide +kernel)
  exact ⟨s, hs, (channel_is_bounded_fifo hs).2.1, hresults⟩

end System

end PgDelta.Chan
