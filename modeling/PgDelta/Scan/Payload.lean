import PgDelta.Scan.LineMachine

/-!
The payloads that the scanner hands out. Each is a run of whole lines, so that
the events can be recovered from what is observed of them.
-/

namespace PgDelta.Scan

open PgDelta.Lib PgDelta.Copy

/-- A payload is at least one line, and every line of it is complete. -/
def Event.Whole : Event → Prop
  | .copyRows payload =>
    ∃ ls, ls ≠ [] ∧ (∀ l ∈ ls, newline ∉ l) ∧ payload = unlines newline ls
  | _ => True

/-- A payload is not empty, and no part of a line is left behind its last
newline. -/
theorem Event.Whole.payload {payload : Bytes} (h : (Event.copyRows payload).Whole) :
    payload ≠ [] ∧ payload.getLast? = some newline ∧ remainder payload = [] := by
  obtain ⟨ls, hne, hls, rfl⟩ := h
  refine ⟨?_, ?_, remainder_unlines hls⟩
  all_goals
    obtain ⟨ls, l, rfl⟩ := ls.eq_nil_or_concat.resolve_left hne
    simp

/-- What is observed first is an event when that event was emitted first. -/
theorem observe_eq_event_cons {events : List Event} (hw : ∀ e ∈ events, e.Whole) {e : Event}
    {obs : List Obs} (h : observe events = .event e :: obs) :
    ∃ es, events = e :: es ∧ observe es = obs := by
  cases events with
  | nil => simp at h
  | cons f es =>
      cases f with
      | copyRows payload =>
          obtain ⟨ls, hne, hls, rfl⟩ := hw _ (List.mem_cons_self ..)
          obtain ⟨l, ls, rfl⟩ := List.exists_cons_of_ne_nil hne
          simp only [observe, Event.observe, List.flatMap_cons, rows_unlines hls] at h
          simp at h
      | _ =>
          simp only [observe, Event.observe, List.flatMap_cons, List.singleton_append,
            List.cons.injEq, Obs.event.injEq] at h
          exact ⟨es, by rw [h.1], h.2⟩

/-- What is observed as rows up to a last event was emitted as payloads up to
that event. -/
theorem observe_eq_rows_concat {events : List Event} (hw : ∀ e ∈ events, e.Whole) {e : Event}
    {rs : List Bytes} (h : observe events = rs.map .row ++ [.event e]) :
    ∃ payloads : List Bytes,
      events = payloads.map .copyRows ++ [e] ∧ payloads.flatMap rows = rs := by
  induction events generalizing rs with
  | nil => simp at h
  | cons f es ih =>
      have hw' : ∀ e ∈ es, e.Whole := fun e he => hw e (by simp [he])
      cases f with
      | copyRows payload =>
          have hsplit : (rows payload).map Obs.row ++ observe es = rs.map .row ++ [.event e] := h
          rcases List.append_eq_append_iff.mp hsplit with ⟨t, hrs, hes⟩ | ⟨t, hrows, ht⟩
          · obtain ⟨r₁, r₂, rfl, hr₁, rfl⟩ := List.map_eq_append_iff.mp hrs
            have hr₁ : r₁ = rows payload :=
              (List.map_injective_iff.mpr fun _ _ h => Obs.row.inj h) hr₁
            obtain ⟨payloads, rfl, hflat⟩ := ih hw' hes
            exact ⟨payload :: payloads, rfl, by simp [hflat, hr₁]⟩
          · cases t with
            | nil =>
                have hrs : rs = rows payload :=
                  (List.map_injective_iff.mpr fun _ _ h => Obs.row.inj h)
                    (by simpa using hrows.symm)
                have hes : observe es = ([] : List Bytes).map .row ++ [.event e] := by
                  simpa using ht.symm
                obtain ⟨payloads, rfl, hflat⟩ := ih hw' hes
                exact ⟨payload :: payloads, rfl, by simp [hflat, hrs]⟩
            | cons o t =>
                have ho : o = .event e := by
                  simpa using congrArg List.head? ht.symm
                have hmem : Obs.event e ∈ (rows payload).map Obs.row := by
                  rw [hrows, ho]
                  simp
                simp at hmem
      | _ =>
          cases rs with
          | nil =>
              obtain ⟨rfl, hes⟩ : _ = e ∧ observe es = [] := by
                simpa [observe, Event.observe] using h
              cases es with
              | nil => exact ⟨[], rfl, rfl⟩
              | cons g es =>
                  cases g with
                  | copyRows payload =>
                      obtain ⟨ls, hne, hls, rfl⟩ := hw' _ (List.mem_cons_self ..)
                      obtain ⟨l, ls, rfl⟩ := List.exists_cons_of_ne_nil hne
                      simp only [observe, Event.observe, List.flatMap_cons,
                        rows_unlines hls] at hes
                      simp at hes
                  | _ => simp [observe, Event.observe] at hes
          | cons r rs => simp [observe, Event.observe] at h

namespace Scanner

theorem rowsEvent_whole {ls : List Bytes} (h : ∀ l ∈ ls, newline ∉ l) :
    ∀ e ∈ rowsEvent (unlines newline ls), e.Whole := by
  intro e he
  unfold rowsEvent at he
  split_ifs at he with hempty
  · simp at he
  · obtain rfl : e = .copyRows (unlines newline ls) := by simpa using he
    refine ⟨ls, ?_, h, rfl⟩
    rintro rfl
    simp at hempty

theorem closeCopy_whole (s : Scanner) : ∀ e ∈ s.closeCopy.2, e.Whole := by
  unfold closeCopy
  cases s.openTable <;> simp [Event.Whole]

theorem sqlLine_whole {s s' : Scanner} {line : Bytes} {events : List Event}
    (h : s.sqlLine line = .ok (s', events)) : ∀ e ∈ events, e.Whole := by
  intro e he
  cases e with
  | copyRows payload => exact absurd he ((sqlLine_step h).events.2 payload)
  | _ => trivial

theorem feedLoop_whole (fuel : ℕ) (s : Scanner) (input : Bytes) (events : List Event)
    (hevents : ∀ e ∈ events, e.Whole) {s' : Scanner} {out : List Event}
    (h : feedLoop fuel s input events = .ok (s', out)) : ∀ e ∈ out, e.Whole := by
  induction fuel generalizing s input events with
  | zero =>
      obtain ⟨-, rfl⟩ := Prod.mk.inj (Except.ok.inj h)
      exact hevents
  | succ fuel ih =>
      rw [feedLoop] at h
      cases hstate : s.state with
      | sql =>
          simp only [hstate] at h
          cases hnl : memchr newline input with
          | none =>
              simp only [hnl, Except.ok.injEq, Prod.mk.injEq] at h
              rw [← h.2]
              exact hevents
          | some nl =>
              simp only [hnl] at h
              cases hline : s.sqlLine (stripCr (input.take nl)) with
              | error e => simp [hline] at h
              | ok r =>
                  simp only [hline] at h
                  refine ih _ _ _ ?_ h
                  intro e he
                  rcases List.mem_append.mp he with he | he
                  · exact hevents e he
                  · exact sqlLine_whole hline e he
      | copy =>
          simp only [hstate] at h
          rcases findTerminatorLoop_spec (input.length + 1) 0 input (by omega) with
            ⟨before, line, after, rfl, hbefore, hline, hterm, hfind⟩ | ⟨hnone, hfind⟩
          · simp only [findTerminator, hfind, Nat.zero_add, List.take_left] at h
            refine ih _ _ _ ?_ h
            intro e he
            rcases List.mem_append.mp he with he | he
            · rcases List.mem_append.mp he with he | he
              · exact hevents e he
              · exact rowsEvent_whole (fun l hl => (hbefore l hl).1) e he
            · exact s.closeCopy_whole e he
          · have htake := @List.take_left _ (unlines newline (lines newline input).1)
              (lines newline input).2
            rw [unlines_lines] at htake
            simp only [findTerminator, hfind, Nat.zero_add, htake, Except.ok.injEq,
              Prod.mk.injEq] at h
            rw [← h.2]
            intro e he
            rcases List.mem_append.mp he with he | he
            · exact hevents e he
            · exact rowsEvent_whole (fun l hl => not_mem_of_mem_lines hl) e he

theorem feed_whole {s s' : Scanner} (hs : newline ∉ s.pending) {chunk : Bytes}
    {events : List Event} (h : s.feed chunk = .ok (s', events)) : ∀ e ∈ events, e.Whole := by
  rw [feed] at h
  split_ifs at h with hp
  · exact feedLoop_whole _ _ _ _ (by simp) h
  · cases hnl : memchr newline chunk with
    | none =>
        simp only [hnl, Except.ok.injEq, Prod.mk.injEq] at h
        simp [← h.2]
    | some nl =>
        obtain ⟨-, htake, -⟩ := memchr_eq_some hnl
        have hline : newline ∉ stripCr (s.pending ++ chunk.take nl) := by
          have hfree : newline ∉ s.pending ++ chunk.take nl := by
            rw [List.mem_append, not_or]
            exact ⟨hs, htake⟩
          unfold stripCr
          split_ifs
          · exact fun hmem => hfree (List.mem_of_mem_dropLast hmem)
          · exact hfree
        simp only [hnl] at h
        cases hpending : { s with pending := [] }.pendingLine
            (stripCr (s.pending ++ chunk.take nl)) with
        | error e => simp [hpending] at h
        | ok r =>
            simp only [hpending] at h
            refine feedLoop_whole _ _ _ _ ?_ h
            unfold pendingLine at hpending
            cases hstate : s.state with
            | sql =>
                simp only [hstate] at hpending
                exact sqlLine_whole hpending
            | copy =>
                simp only [hstate] at hpending
                split_ifs at hpending with hend
                · rw [← Except.ok.inj hpending]
                  exact closeCopy_whole _
                · rw [← Except.ok.inj hpending]
                  intro e he
                  obtain rfl : e = _ := List.mem_singleton.mp he
                  exact ⟨[_], by simp, by simpa using hline, by simp⟩

theorem feed_pending {s s' : Scanner} (hs : newline ∉ s.pending) {chunk : Bytes}
    {events : List Event} (h : s.feed chunk = .ok (s', events)) : newline ∉ s'.pending := by
  have hobs := s.feed_observed hs chunk
  rw [h, observed_ok] at hobs
  cases hrun : { s with pending := [] }.runLines
      (markFirst (!s.pending.isEmpty) (lines newline (s.pending ++ chunk)).1) with
  | error e => simp [hrun] at hobs
  | ok r =>
      simp only [hrun, resume_ok, Except.ok.injEq, Prod.mk.injEq] at hobs
      rw [hobs.1]
      exact not_mem_lines_rest newline _

theorem feedAll_whole {s s' : Scanner} (hs : newline ∉ s.pending) {chunks : List Bytes}
    {events : List Event} (h : s.feedAll chunks = .ok (s', events)) : ∀ e ∈ events, e.Whole := by
  induction chunks generalizing s events with
  | nil =>
      obtain ⟨-, rfl⟩ := Prod.mk.inj (Except.ok.inj h)
      simp
  | cons chunk chunks ih =>
      rw [feedAll] at h
      cases hfeed : s.feed chunk with
      | error e => simp [hfeed] at h
      | ok r =>
          obtain ⟨s₁, es⟩ := r
          cases hall : s₁.feedAll chunks with
          | error e => simp [hfeed, hall] at h
          | ok r =>
              obtain ⟨s₂, fs⟩ := r
              simp only [hfeed, hall, Except.ok.injEq, Prod.mk.injEq] at h
              obtain ⟨rfl, rfl⟩ := h
              intro e he
              rcases List.mem_append.mp he with he | he
              · exact feed_whole hs hfeed e he
              · exact ih (feed_pending hs hfeed) hall e he

end Scanner

end PgDelta.Scan
