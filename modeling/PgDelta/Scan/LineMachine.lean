import PgDelta.Copy.RoundTrip
import PgDelta.Scan.SqlLine

/-!
The scanner as a machine that takes one line at a time.

`Scanner.lineStep` is what one complete line does, whether `feed` completes it
from the bytes carried over or finds it in a chunk. `feedAll_observed` says
that feeding chunks is running this machine over the lines of their
concatenation, each marked with whether a chunk boundary cut it.
-/

namespace PgDelta.Scan

open PgDelta.Lib PgDelta.Copy

/-- What a consumer of the events sees: the events themselves, and in place of
a payload the rows that are read from it. -/
inductive Obs
  | event (e : Event)
  | row (r : Bytes)
  deriving DecidableEq, Repr

def Event.observe : Event → List Obs
  | .copyRows payload => (rows payload).map .row
  | e => [.event e]

def observe (events : List Event) : List Obs := events.flatMap Event.observe

@[simp] theorem observe_nil : observe [] = [] := rfl

@[simp] theorem observe_append (es fs : List Event) :
    observe (es ++ fs) = observe es ++ observe fs := by
  simp [observe]

theorem observe_eq_map {events : List Event} (h : ∀ payload, Event.copyRows payload ∉ events) :
    observe events = events.map .event := by
  induction events with
  | nil => rfl
  | cons e events ih =>
      have ih := ih (fun payload hmem => h payload (by simp [hmem]))
      cases e with
      | copyRows payload => exact absurd (List.mem_cons_self ..) (h payload)
      | _ => simpa [observe, Event.observe] using ih

/-- A result with its events observed. -/
def observed (result : Except Error (Scanner × List Event)) :
    Except Error (Scanner × List Obs) :=
  result.map fun r => (r.1, observe r.2)

@[simp] theorem observed_ok (s : Scanner) (events : List Event) :
    observed (.ok (s, events)) = .ok (s, observe events) := rfl

@[simp] theorem observed_error (e : Error) : observed (.error e) = .error e := rfl

namespace Scanner

/-- A row as it is read from the payload that carries it. One that a chunk
boundary cut is stripped of a carriage return twice: when it is completed, and
when it is read from the payload made of it. -/
def readRow (cut : Bool) (line : Bytes) : Bytes :=
  if cut then stripCr (stripCr line) else stripCr line

/-- What a complete line does, given without its newline. -/
def lineStep (s : Scanner) (cut : Bool) (line : Bytes) : Except Error (Scanner × List Obs) :=
  match s.state with
  | .sql => observed (s.sqlLine (stripCr line))
  | .copy =>
    if isEndOfData (stripCr line) then .ok (s.closeCopy.1, observe s.closeCopy.2)
    else .ok (s, [.row (readRow cut line)])

def runLines : Scanner → List (Bool × Bytes) → Except Error (Scanner × List Obs)
  | s, [] => .ok (s, [])
  | s, (cut, line) :: lines =>
    match s.lineStep cut line with
    | .error e => .error e
    | .ok (s, obs) =>
      match s.runLines lines with
      | .error e => .error e
      | .ok (s, more) => .ok (s, obs ++ more)

/-- A result with bytes carried over, behind what was observed before. -/
def resume (pending : Bytes) (before : List Obs) (result : Except Error (Scanner × List Obs)) :
    Except Error (Scanner × List Obs) :=
  result.map fun r => ({ r.1 with pending := pending }, before ++ r.2)

@[simp] theorem resume_ok (pending : Bytes) (before : List Obs) (r : Scanner × List Obs) :
    resume pending before (.ok r) = .ok ({ r.1 with pending := pending }, before ++ r.2) :=
  rfl

@[simp] theorem resume_error (pending : Bytes) (before : List Obs) (e : Error) :
    resume pending before (.error e) = .error e := rfl

theorem runLines_append (s : Scanner) (ls ms : List (Bool × Bytes)) :
    s.runLines (ls ++ ms) =
      match s.runLines ls with
      | .error e => .error e
      | .ok (s', obs) =>
        match s'.runLines ms with
        | .error e => .error e
        | .ok (s'', more) => .ok (s'', obs ++ more) := by
  induction ls generalizing s with
  | nil => cases h : s.runLines ms <;> simp [runLines, h]
  | cons l ls ih =>
      obtain ⟨cut, line⟩ := l
      rw [List.cons_append, runLines, runLines]
      cases hstep : s.lineStep cut line with
      | error e => rfl
      | ok r =>
          obtain ⟨s', obs⟩ := r
          simp only [ih s']
          cases s'.runLines ls with
          | error e => rfl
          | ok r' =>
              obtain ⟨s'', more⟩ := r'
              simp only
              cases s''.runLines ms <;> simp

theorem lineStep_frame {s s' : Scanner} {cut : Bool} {line : Bytes} {obs : List Obs}
    (h : s.lineStep cut line = .ok (s', obs)) :
    s'.pending = s.pending ∧ s'.excludedSchemas = s.excludedSchemas := by
  unfold lineStep at h
  cases hstate : s.state with
  | sql =>
      cases hline : s.sqlLine (stripCr line) with
      | error e => simp [hstate, hline] at h
      | ok r =>
          simp only [hstate, hline, observed, Except.map, Except.ok.injEq, Prod.mk.injEq] at h
          rw [← h.1]
          exact (sqlLine_step hline).frame
  | copy =>
      simp only [hstate] at h
      by_cases hend : isEndOfData (stripCr line) = true
      · simp only [hend, if_true, Except.ok.injEq, Prod.mk.injEq] at h
        rw [← h.1]
        exact s.closeCopy_frame
      · simp only [if_neg hend, Except.ok.injEq, Prod.mk.injEq] at h
        rw [← h.1]
        exact ⟨rfl, rfl⟩

theorem runLines_frame {s s' : Scanner} {ls : List (Bool × Bytes)} {obs : List Obs}
    (h : s.runLines ls = .ok (s', obs)) :
    s'.pending = s.pending ∧ s'.excludedSchemas = s.excludedSchemas := by
  induction ls generalizing s obs with
  | nil =>
      simp only [runLines, Except.ok.injEq, Prod.mk.injEq] at h
      rw [← h.1]
      exact ⟨rfl, rfl⟩
  | cons l ls ih =>
      obtain ⟨cut, line⟩ := l
      rw [runLines] at h
      cases hstep : s.lineStep cut line with
      | error e => simp [hstep] at h
      | ok r =>
          obtain ⟨s₁, obs₁⟩ := r
          cases hrun : s₁.runLines ls with
          | error e => simp [hstep, hrun] at h
          | ok r =>
              simp only [hstep, hrun, Except.ok.injEq, Prod.mk.injEq] at h
              obtain ⟨hp, he⟩ := lineStep_frame hstep
              have hrun : s₁.runLines ls = .ok (s', r.2) := by rw [hrun, ← h.1]
              obtain ⟨hp', he'⟩ := ih hrun
              exact ⟨hp'.trans hp, he'.trans he⟩

/-! ### Feeding a chunk -/

/-- The terminator search finds the first complete line that is a terminator;
without one it consumes every complete line. -/
theorem findTerminatorLoop_spec (fuel pos : ℕ) (input : Bytes) (h : input.length < fuel) :
    (∃ before line after,
        input = unlines newline before ++ (line ++ newline :: after) ∧
          (∀ l ∈ before, newline ∉ l ∧ isEndOfData (stripCr l) = false) ∧
          newline ∉ line ∧ isEndOfData (stripCr line) = true ∧
          findTerminatorLoop fuel pos input =
            (pos + (unlines newline before ++ (line ++ [newline])).length,
              some (pos + (unlines newline before).length))) ∨
      ((∀ l ∈ (lines newline input).1, isEndOfData (stripCr l) = false) ∧
        findTerminatorLoop fuel pos input =
          (pos + (unlines newline (lines newline input).1).length, none)) := by
  induction fuel generalizing pos input with
  | zero => omega
  | succ fuel ih =>
      by_cases hnl : newline ∈ input
      · obtain ⟨l, s, rfl, hl⟩ := List.eq_append_cons_of_mem hnl
        have hs : s.length < fuel := by
          simp only [List.length_append, List.length_cons] at h
          omega
        have htake : (l ++ newline :: s).take l.length = l := by simp
        have hdrop : (l ++ newline :: s).drop (l.length + 1) = s := by simp
        rw [findTerminatorLoop, memchr_append_cons hl]
        simp only [htake, hdrop]
        cases hend : isEndOfData (stripCr l) with
        | true =>
            left
            exact ⟨[], l, s, by simp, by simp, hl, hend, by simp [Nat.add_assoc]⟩
        | false =>
            rcases ih (pos + l.length + 1) s hs with
              ⟨before, line, after, rfl, hbefore, hline, hterm, hfind⟩ | ⟨hnone, hfind⟩
            · left
              refine ⟨l :: before, line, after, by simp, ?_, hline, hterm, ?_⟩
              · intro m hm
                rcases List.mem_cons.mp hm with rfl | hm
                · exact ⟨hl, hend⟩
                · exact hbefore m hm
              · simp only [Bool.false_eq_true, if_false, hfind, unlines_cons, List.length_append,
                  List.length_cons, Prod.mk.injEq, Option.some.injEq]
                omega
            · right
              rw [lines_line hl]
              refine ⟨?_, ?_⟩
              · intro m hm
                rcases List.mem_cons.mp hm with rfl | hm
                · exact hend
                · exact hnone m hm
              · simp only [Bool.false_eq_true, if_false, hfind, unlines_cons, List.length_append,
                  List.length_cons, Prod.mk.injEq, and_true]
                omega
      · right
        rw [findTerminatorLoop, memchr_eq_none_iff.mpr hnl, lines_of_not_mem hnl]
        simp

theorem observe_rowsEvent {ls : List Bytes} (h : ∀ l ∈ ls, newline ∉ l) :
    observe (rowsEvent (unlines newline ls)) = ls.map fun l => .row (stripCr l) := by
  unfold rowsEvent
  cases ls with
  | nil => simp
  | cons l ls =>
      have hne : (unlines newline (l :: ls)).isEmpty = false := by
        cases l <;> simp
      simp only [hne, Bool.false_eq_true, if_false, observe, Event.observe, List.flatMap_cons,
        List.flatMap_nil, List.append_nil, rows_unlines h, List.map_map]
      rfl

/-- Lines of a `COPY` block before its terminator pass through as rows. -/
theorem runLines_rows {s : Scanner} (hs : s.state = .copy) (ls : List (Bool × Bytes))
    (h : ∀ l ∈ ls, isEndOfData (stripCr l.2) = false) :
    s.runLines ls = .ok (s, ls.map fun l => .row (readRow l.1 l.2)) := by
  induction ls with
  | nil => rfl
  | cons l ls ih =>
      have ih := ih (fun m hm => h m (by simp [hm]))
      have hl := h l (by simp)
      simp [runLines, lineStep, hs, hl, ih]

theorem runLines_rows_uncut {s : Scanner} (hs : s.state = .copy) {ls : List Bytes}
    (h : ∀ l ∈ ls, isEndOfData (stripCr l) = false) :
    s.runLines (ls.map fun l => (false, l)) = .ok (s, ls.map fun l => .row (stripCr l)) := by
  rw [runLines_rows hs _ (by simpa using h)]
  simp [readRow]

/-- The loop over a chunk runs the line machine over its complete lines. -/
theorem feedLoop_observed (fuel : ℕ) (s : Scanner) (hp : s.pending = []) (input : Bytes)
    (hfuel : input.length < fuel) (events : List Event) :
    observed (feedLoop fuel s input events) =
      resume (lines newline input).2 (observe events)
        (s.runLines ((lines newline input).1.map fun l => (false, l))) := by
  induction fuel generalizing s input events with
  | zero => omega
  | succ fuel ih =>
      rw [feedLoop]
      cases hstate : s.state with
      | sql =>
          by_cases hnl : newline ∈ input
          · obtain ⟨l, rest, rfl, hl⟩ := List.eq_append_cons_of_mem hnl
            have hrest : rest.length < fuel := by
              simp only [List.length_append, List.length_cons] at hfuel
              omega
            have htake : (l ++ newline :: rest).take l.length = l := by simp
            have hdrop : (l ++ newline :: rest).drop (l.length + 1) = rest := by simp
            simp only [memchr_append_cons hl, htake, hdrop, lines_line hl, List.map_cons,
              runLines, lineStep, hstate]
            cases hline : s.sqlLine (stripCr l) with
            | error e => rfl
            | ok r =>
                obtain ⟨s', emitted⟩ := r
                have hp' : s'.pending = [] := (sqlLine_step hline).frame.1.trans hp
                simp only [observed_ok, ih s' hp' rest hrest, observe_append]
                cases s'.runLines ((lines newline rest).1.map fun l => (false, l)) with
                | error e => rfl
                | ok r => simp
          · rw [memchr_eq_none_iff.mpr hnl, lines_of_not_mem hnl]
            simp [runLines, hp, hstate]
      | copy =>
        -- the search stops at the first terminator, or takes all complete lines for rows
          rcases findTerminatorLoop_spec (input.length + 1) 0 input (by omega) with
            ⟨before, line, after, rfl, hbefore, hline, hterm, hfind⟩ | ⟨hnone, hfind⟩
          · simp only [Nat.zero_add] at hfind
            have htake : (unlines newline before ++ (line ++ newline :: after)).take
                (unlines newline before).length = unlines newline before := by simp
            have hdrop : (unlines newline before ++ (line ++ newline :: after)).drop
                (unlines newline before ++ (line ++ [newline])).length = after := by
              rw [show unlines newline before ++ (line ++ newline :: after) =
                (unlines newline before ++ (line ++ [newline])) ++ after by simp]
              exact List.drop_left
            have hafter : after.length < fuel := by
              simp only [List.length_append, List.length_cons] at hfuel
              omega
            have hp' : s.closeCopy.1.pending = [] := s.closeCopy_frame.1.trans hp
            have hrows := runLines_rows_uncut hstate (fun l hl => (hbefore l hl).2)
            simp only [findTerminator, hfind, htake, hdrop, ih _ hp' after hafter,
              lines_unlines_append (fun l hl => (hbefore l hl).1), lines_line hline,
              List.map_append, List.map_cons, runLines_append, hrows, runLines, lineStep, hstate,
              hterm, if_true, observe_append, observe_rowsEvent (fun l hl => (hbefore l hl).1)]
            cases s.closeCopy.1.runLines ((lines newline after).1.map fun l => (false, l)) with
            | error e => rfl
            | ok r => simp
          · simp only [Nat.zero_add] at hfind
            have hjoin := unlines_lines newline input
            have htake : input.take (unlines newline (lines newline input).1).length =
                unlines newline (lines newline input).1 := by
              have h := @List.take_left _ (unlines newline (lines newline input).1)
                (lines newline input).2
              rwa [hjoin] at h
            have hdrop : input.drop (unlines newline (lines newline input).1).length =
                (lines newline input).2 := by
              have h := @List.drop_left _ (unlines newline (lines newline input).1)
                (lines newline input).2
              rwa [hjoin] at h
            simp only [findTerminator, hfind, htake, hdrop, runLines_rows_uncut hstate hnone,
              observed_ok, observe_append, hp, List.nil_append, resume_ok,
              observe_rowsEvent (fun l hl => not_mem_of_mem_lines hl), hstate]

theorem newline_not_mem_stripCr {line : Bytes} (h : newline ∉ line) : newline ∉ stripCr line := by
  unfold stripCr
  split_ifs
  · exact fun hmem => h (List.mem_of_mem_dropLast hmem)
  · exact h

/-- A line completed from the bytes carried over is a line that was cut. -/
theorem pendingLine_observed (s : Scanner) {line : Bytes} (hline : newline ∉ line) :
    observed (s.pendingLine (stripCr line)) = s.lineStep true line := by
  unfold pendingLine lineStep
  cases hstate : s.state with
  | sql => rfl
  | copy =>
      by_cases hend : isEndOfData (stripCr line) = true
      · simp [hend, observed, Except.map]
      · have hfree := newline_not_mem_stripCr hline
        have hrows := @rows_unlines [stripCr line] (by simpa using hfree)
        rw [unlines_cons, unlines_nil] at hrows
        simp [hend, observe, Event.observe, hrows, readRow]

/-- Feeding a chunk runs the line machine over the lines that the chunk
completes. The first of them counts as cut when bytes were carried over. -/
theorem feed_observed (s : Scanner) (hs : newline ∉ s.pending) (chunk : Bytes) :
    observed (s.feed chunk) =
      resume (lines newline (s.pending ++ chunk)).2 []
        ({ s with pending := [] }.runLines
          (markFirst (!s.pending.isEmpty) (lines newline (s.pending ++ chunk)).1)) := by
  rw [feed]
  cases hp : s.pending with
  | nil =>
      have hs' : { s with pending := [] } = s := by rw [← hp]
      simp [hs', markFirst_false, feedLoop_observed _ s hp chunk (Nat.lt_succ_self _)]
  | cons b bs =>
      rw [hp] at hs
      by_cases hnl : newline ∈ chunk
      · obtain ⟨l, rest, rfl, hl⟩ := List.eq_append_cons_of_mem hnl
        have hline : newline ∉ b :: bs ++ l := by
          rw [List.mem_append, not_or]
          exact ⟨hs, hl⟩
        have htake : (l ++ newline :: rest).take l.length = l := by simp
        have hdrop : (l ++ newline :: rest).drop (l.length + 1) = rest := by simp
        have hlines : lines newline (b :: bs ++ (l ++ newline :: rest)) =
            ((b :: bs ++ l) :: (lines newline rest).1, (lines newline rest).2) := by
          rw [← List.append_assoc, lines_line hline]
        have hrest : rest.length < (l ++ newline :: rest).length + 1 := by
          simp only [List.length_append, List.length_cons]
          omega
        have ht : ({ s with pending := [] } : Scanner).pending = [] := rfl
        generalize ({ s with pending := [] } : Scanner) = t at ht ⊢
        have hstep := t.pendingLine_observed hline
        simp only [List.isEmpty_cons, Bool.false_eq_true, if_false, Bool.not_false,
          memchr_append_cons hl, htake, hdrop, hlines, markFirst, runLines, ← hstep]
        cases hpending : t.pendingLine (stripCr (b :: bs ++ l)) with
        | error e => rfl
        | ok r =>
            obtain ⟨t', emitted⟩ := r
            have ht' : t'.pending = [] := by
              rw [hpending, observed_ok] at hstep
              exact (lineStep_frame hstep.symm).1.trans ht
            simp only [observed_ok, feedLoop_observed _ t' ht' rest hrest]
            cases t'.runLines ((lines newline rest).1.map fun l => (false, l)) with
            | error e => rfl
            | ok r => simp
      · have hfree : newline ∉ b :: bs ++ chunk := by
          rw [List.mem_append, not_or]
          exact ⟨hs, hnl⟩
        rw [memchr_eq_none_iff.mpr hnl, lines_of_not_mem hfree]
        simp [markFirst, runLines]

/-- Feeding chunks runs the line machine over the lines of their
concatenation, each marked with whether a chunk boundary cut it. -/
theorem feedAll_observed (s : Scanner) (hs : newline ∉ s.pending) (chunks : List Bytes) :
    observed (s.feedAll chunks) =
      resume (lines newline (s.pending ++ chunks.flatten)).2 []
        ({ s with pending := [] }.runLines (cutLines newline s.pending chunks)) := by
  induction chunks generalizing s with
  | nil => simp [feedAll, cutLines, runLines, lines_of_not_mem hs]
  | cons chunk chunks ih =>
      have hfeed := s.feed_observed hs chunk
      rw [feedAll, cutLines, runLines_append]
      cases hrun : { s with pending := [] }.runLines
          (markFirst (!s.pending.isEmpty) (lines newline (s.pending ++ chunk)).1) with
      | error e =>
          rw [hrun] at hfeed
          cases hres : s.feed chunk with
          | error e' => simpa [hres] using hfeed
          | ok r => simp [hres, observed, Except.map] at hfeed
      | ok r =>
          obtain ⟨s₁, obs⟩ := r
          rw [hrun] at hfeed
          cases hres : s.feed chunk with
          | error e' => simp [hres] at hfeed
          | ok r =>
              obtain ⟨s₂, events⟩ := r
              simp only [hres, observed_ok, resume_ok, List.nil_append, Except.ok.injEq,
                Prod.mk.injEq] at hfeed
              obtain ⟨rfl, rfl⟩ := hfeed
              have hp : s₁.pending = [] := (runLines_frame hrun).1
              have hs₁ : { s₁ with pending := [] } = s₁ := by rw [← hp]
              have ih := ih { s₁ with pending := (lines newline (s.pending ++ chunk)).2 }
                (not_mem_lines_rest newline _)
              simp only [hs₁] at ih
              simp only [List.flatten_cons, ← List.append_assoc,
                lines_append newline (s.pending ++ chunk)]
              cases hall : feedAll
                  { s₁ with pending := (lines newline (s.pending ++ chunk)).2 } chunks with
              | error e =>
                  rw [hall] at ih
                  cases hrest : s₁.runLines
                      (cutLines newline (lines newline (s.pending ++ chunk)).2 chunks) with
                  | error e' => simpa [hrest] using ih
                  | ok r => simp [hrest] at ih
              | ok r =>
                  obtain ⟨s₃, more⟩ := r
                  rw [hall] at ih
                  cases hrest : s₁.runLines
                      (cutLines newline (lines newline (s.pending ++ chunk)).2 chunks) with
                  | error e' => simp [hrest] at ih
                  | ok r =>
                      obtain ⟨s₄, obs'⟩ := r
                      simp only [hrest, observed_ok, resume_ok, List.nil_append,
                        Except.ok.injEq, Prod.mk.injEq] at ih
                      obtain ⟨rfl, rfl⟩ := ih
                      simp

end Scanner

end PgDelta.Scan
