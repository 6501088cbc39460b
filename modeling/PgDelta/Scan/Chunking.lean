import PgDelta.Scan.LineMachine

/-!
How far the scanner depends on the way its input is cut into chunks.

The state never does, and neither do the events nor the rows, with one
exception: a row that ends in two carriage returns loses the second of them
exactly when a chunk boundary falls inside the row.
-/

namespace PgDelta.Scan

open PgDelta.Lib PgDelta.Copy

def endsTwoCr (line : Bytes) : Bool := [carriageReturn, carriageReturn].isSuffixOf line

theorem stripCr_concat (l : Bytes) : stripCr (l ++ [carriageReturn]) = l := by
  simp [stripCr]

theorem stripCr_stripCr {line : Bytes} (h : endsTwoCr line = false) :
    stripCr (stripCr line) = stripCr line := by
  by_cases hlast : line.getLast? = some carriageReturn
  · obtain ⟨l, rfl⟩ := List.getLast?_eq_some_iff.mp hlast
    rw [stripCr_concat, stripCr, if_neg]
    intro hl
    obtain ⟨m, rfl⟩ := List.getLast?_eq_some_iff.mp hl
    have hsuffix : endsTwoCr (m ++ [carriageReturn] ++ [carriageReturn]) = true := by
      rw [endsTwoCr, List.isSuffixOf_iff_suffix]
      exact ⟨m, by simp⟩
    rw [hsuffix] at h
    cases h
  · simp [stripCr, hlast]

theorem exists_of_endsTwoCr {line : Bytes} (h : endsTwoCr line = true) :
    ∃ l, line = l ++ [carriageReturn, carriageReturn] := by
  rw [endsTwoCr, List.isSuffixOf_iff_suffix] at h
  obtain ⟨l, rfl⟩ := h
  exact ⟨l, rfl⟩

namespace Scanner

/-- Among the lines that reach the scanner inside a `COPY` block, those that
end in two carriage returns: for each, whether it was cut. -/
def crCuts : Scanner → List (Bool × Bytes) → List Bool
  | _, [] => []
  | s, (cut, line) :: ls =>
    let rest :=
      match s.lineStep false line with
      | .error _ => []
      | .ok (s, _) => s.crCuts ls
    if s.state = .copy ∧ endsTwoCr line then cut :: rest else rest

theorem lineStep_cut (s : Scanner) (cut : Bool) {line : Bytes}
    (h : ¬(s.state = .copy ∧ endsTwoCr line = true)) :
    s.lineStep cut line = s.lineStep false line := by
  unfold lineStep
  cases hstate : s.state with
  | sql => rfl
  | copy =>
      have hcr : endsTwoCr line = false := by simpa [hstate] using h
      simp [readRow, stripCr_stripCr hcr]

theorem lineStep_endsTwoCr {s : Scanner} (hstate : s.state = .copy) (cut : Bool) (l : Bytes) :
    s.lineStep cut (l ++ [carriageReturn, carriageReturn]) =
      .ok (s, [.row (if cut then l else l ++ [carriageReturn])]) := by
  have hstrip : stripCr (l ++ [carriageReturn, carriageReturn]) = l ++ [carriageReturn] := by
    simpa using stripCr_concat (l ++ [carriageReturn])
  have hend : isEndOfData (l ++ [carriageReturn]) = false := by
    rw [isEndOfData, beq_eq_false_iff_ne]
    intro h
    have hlast := congrArg List.getLast? h
    simp [endOfData, carriageReturn] at hlast
  rw [lineStep, hstate, hstrip]
  simp only [hend, Bool.false_eq_true, if_false, readRow, hstrip, stripCr_concat]

/-- Two runs over the same lines, cut in different places, end in one state.
They show the same exactly when they cut the same rows among those that end in
two carriage returns. -/
theorem runLines_agree {s s₁ s₂ : Scanner} {ls ms : List (Bool × Bytes)} {o₁ o₂ : List Obs}
    (hlines : ls.map Prod.snd = ms.map Prod.snd)
    (h₁ : s.runLines ls = .ok (s₁, o₁)) (h₂ : s.runLines ms = .ok (s₂, o₂)) :
    s₁ = s₂ ∧ (o₁ = o₂ ↔ s.crCuts ls = s.crCuts ms) := by
  induction ls generalizing s s₁ s₂ ms o₁ o₂ with
  | nil =>
      obtain rfl : ms = [] := by simpa using hlines
      rw [h₁] at h₂
      obtain ⟨rfl, rfl⟩ := Prod.mk.inj (Except.ok.inj h₂)
      simp
  | cons l ls ih =>
      obtain ⟨c, line⟩ := l
      cases ms with
      | nil => simp at hlines
      | cons m ms =>
          obtain ⟨d, line'⟩ := m
          obtain ⟨rfl, htail⟩ : line = line' ∧ ls.map Prod.snd = ms.map Prod.snd := by
            simpa using hlines
          rw [runLines] at h₁ h₂
          by_cases hcr : s.state = .copy ∧ endsTwoCr line = true
          · obtain ⟨l, rfl⟩ := exists_of_endsTwoCr hcr.2
            simp only [lineStep_endsTwoCr hcr.1] at h₁ h₂
            cases hls : s.runLines ls with
            | error e => simp [hls] at h₁
            | ok r₁ =>
                cases hms : s.runLines ms with
                | error e => simp [hms] at h₂
                | ok r₂ =>
                    simp only [hls, hms, Except.ok.injEq, Prod.mk.injEq] at h₁ h₂
                    obtain ⟨hs, hiff⟩ := ih htail hls hms
                    refine ⟨h₁.1.symm.trans (hs.trans h₂.1), ?_⟩
                    have hrow : (if c then l else l ++ [carriageReturn]) =
                        (if d then l else l ++ [carriageReturn]) ↔ c = d := by
                      cases c <;> cases d <;> simp
                    rw [← h₁.2, ← h₂.2]
                    simp [crCuts, hcr, lineStep_endsTwoCr hcr.1, hrow, hiff]
          · rw [s.lineStep_cut c hcr] at h₁
            rw [s.lineStep_cut d hcr] at h₂
            cases hstep : s.lineStep false line with
            | error e => simp [hstep] at h₁
            | ok r =>
                obtain ⟨s', obs⟩ := r
                simp only [hstep] at h₁ h₂
                cases hls : s'.runLines ls with
                | error e => simp [hls] at h₁
                | ok r₁ =>
                    cases hms : s'.runLines ms with
                    | error e => simp [hms] at h₂
                    | ok r₂ =>
                        simp only [hls, hms, Except.ok.injEq, Prod.mk.injEq] at h₁ h₂
                        obtain ⟨hs, hiff⟩ := ih htail hls hms
                        refine ⟨h₁.1.symm.trans (hs.trans h₂.1), ?_⟩
                        rw [← h₁.2, ← h₂.2]
                        simp [crCuts, hcr, hstep, hiff]

theorem feedAll_new {schemas : List String} {chunks : List Bytes} {s : Scanner}
    {events : List Event} (h : (new.setExcludedSchemas schemas).feedAll chunks = .ok (s, events)) :
    ∃ t, (new.setExcludedSchemas schemas).runLines (cutLines newline [] chunks) =
        .ok (t, observe events) ∧
      s = { t with pending := (lines newline chunks.flatten).2 } := by
  have hobs := (new.setExcludedSchemas schemas).feedAll_observed (by simp [new,
    setExcludedSchemas]) chunks
  have hnew : ({ new.setExcludedSchemas schemas with pending := [] } : Scanner) =
      new.setExcludedSchemas schemas := rfl
  have hpending : (new.setExcludedSchemas schemas).pending = [] := rfl
  rw [h, hnew, hpending] at hobs
  cases hrun : (new.setExcludedSchemas schemas).runLines (cutLines newline [] chunks) with
  | error e => simp [hrun] at hobs
  | ok r =>
      simp only [hrun, observed_ok, resume_ok, List.nil_append, Except.ok.injEq,
        Prod.mk.injEq] at hobs
      exact ⟨r.1, by rw [hobs.2], hobs.1⟩

/-- Two ways of cutting one stream leave the scanner in the same state, and
show the same events with the same rows between them, exactly when the rows
that end in two carriage returns are cut by both or by neither. -/
theorem feedAll_chunking_iff (schemas : List String) (c₁ c₂ : List Bytes) (s₁ s₂ : Scanner)
    (e₁ e₂ : List Event) (hstream : c₁.flatten = c₂.flatten)
    (h₁ : (new.setExcludedSchemas schemas).feedAll c₁ = .ok (s₁, e₁))
    (h₂ : (new.setExcludedSchemas schemas).feedAll c₂ = .ok (s₂, e₂)) :
    (s₁ = s₂ ∧ observe e₁ = observe e₂) ↔
      (new.setExcludedSchemas schemas).crCuts (cutLines newline [] c₁) =
        (new.setExcludedSchemas schemas).crCuts (cutLines newline [] c₂) := by
  obtain ⟨t₁, hrun₁, rfl⟩ := feedAll_new h₁
  obtain ⟨t₂, hrun₂, rfl⟩ := feedAll_new h₂
  have hlines : (cutLines newline [] c₁).map Prod.snd = (cutLines newline [] c₂).map Prod.snd := by
    rw [map_snd_cutLines _ _ _ (by simp), map_snd_cutLines _ _ _ (by simp), hstream]
  obtain ⟨rfl, hiff⟩ := runLines_agree hlines hrun₁ hrun₂
  rw [hstream, ← hiff]
  simp

/-- One row, ended by two carriage returns and a newline. -/
def doubledCr : List Bytes := [ascii "COPY t (a) FROM stdin;\na\r\r\n\\.\n"]

/-- The same stream, cut behind the first byte of the row. -/
def doubledCrCut : List Bytes := [ascii "COPY t (a) FROM stdin;\na", ascii "\r\r\n\\.\n"]

theorem feedAll_chunking_counterexample :
    ¬ ∀ (schemas : List String) (c₁ c₂ : List Bytes) (s₁ s₂ : Scanner) (e₁ e₂ : List Event),
      c₁.flatten = c₂.flatten →
      (new.setExcludedSchemas schemas).feedAll c₁ = .ok (s₁, e₁) →
      (new.setExcludedSchemas schemas).feedAll c₂ = .ok (s₂, e₂) →
      s₁ = s₂ ∧ observe e₁ = observe e₂ := by
  intro h
  have hrows := h [] doubledCr doubledCrCut new new
    [.copyStart ⟨none, "t"⟩ ["a"], .copyRows (ascii "a\r\r\n"), .copyEnd ⟨none, "t"⟩]
    [.copyStart ⟨none, "t"⟩ ["a"], .copyRows (ascii "a\r\n"), .copyEnd ⟨none, "t"⟩]
    (by decide +kernel) (by decide +kernel) (by decide +kernel)
  exact absurd hrows.2 (by decide +kernel)

/-- A row that ends in one carriage return may be cut anywhere. -/
theorem feedAll_chunking_crlf :
    (new = new ∧
      observe [.copyStart ⟨none, "t"⟩ ["a"], .copyRows (ascii "a\r\n"), .copyEnd ⟨none, "t"⟩] =
        observe [.copyStart ⟨none, "t"⟩ ["a"], .copyRows (ascii "a\n"), .copyEnd ⟨none, "t"⟩]) ↔
      (new.setExcludedSchemas []).crCuts
          (cutLines newline [] [ascii "COPY t (a) FROM stdin;\na\r\n\\.\n"]) =
        (new.setExcludedSchemas []).crCuts
          (cutLines newline [] [ascii "COPY t (a) FROM stdin;\na\r", ascii "\n\\.\n"]) :=
  feedAll_chunking_iff [] _ _ _ _ _ _ (by decide +kernel) (by decide +kernel) (by decide +kernel)

end Scanner

end PgDelta.Scan
