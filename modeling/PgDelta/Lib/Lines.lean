import PgDelta.Lib.Bytes

/-!
Lines of a stream that arrives in chunks.

`lines sep s` are the complete lines of `s` and the partial line behind them.
A consumer that carries the partial line into the next chunk sees the lines of
the concatenation, whatever the chunks are; what still depends on the chunks
is which lines had a chunk boundary inside them, and `cutLines` records that.
-/

namespace PgDelta.Lib

variable {α : Type*}

/-- Lines written one after another, each ended by the separator. -/
def unlines (sep : α) (ls : List (List α)) : List α := ls.flatMap fun l => l ++ [sep]

@[simp] theorem unlines_nil (sep : α) : unlines sep [] = [] := rfl

@[simp] theorem unlines_cons (sep : α) (l : List α) (ls : List (List α)) :
    unlines sep (l :: ls) = l ++ sep :: unlines sep ls := by
  simp [unlines]

@[simp] theorem unlines_append (sep : α) (ls ms : List (List α)) :
    unlines sep (ls ++ ms) = unlines sep ls ++ unlines sep ms := by
  simp [unlines]

variable [DecidableEq α]

/-- The complete lines of a list, each without its separator, and the partial
line behind the last separator. -/
def lines (sep : α) : List α → List (List α) × List α
  | [] => ([], [])
  | c :: s =>
    if c = sep then ([] :: (lines sep s).1, (lines sep s).2)
    else
      match lines sep s with
      | ([], rest) => ([], c :: rest)
      | (l :: ls, rest) => ((c :: l) :: ls, rest)

@[simp] theorem lines_nil (sep : α) : lines sep [] = ([], []) := rfl

theorem lines_of_not_mem {sep : α} {s : List α} (h : sep ∉ s) : lines sep s = ([], s) := by
  induction s with
  | nil => rfl
  | cons c s ih =>
      have hc : c ≠ sep := fun hc => h (by simp [hc])
      simp [lines, hc, ih (fun hs => h (by simp [hs]))]

theorem lines_line {sep : α} {l : List α} (h : sep ∉ l) (s : List α) :
    lines sep (l ++ sep :: s) = (l :: (lines sep s).1, (lines sep s).2) := by
  induction l with
  | nil => simp [lines]
  | cons c l ih =>
      have hc : c ≠ sep := fun hc => h (by simp [hc])
      have ih := ih (fun hl => h (by simp [hl]))
      simp [lines, hc, ih]

theorem lines_unlines_append {sep : α} {ls : List (List α)} (h : ∀ l ∈ ls, sep ∉ l)
    (s : List α) :
    lines sep (unlines sep ls ++ s) = (ls ++ (lines sep s).1, (lines sep s).2) := by
  induction ls with
  | nil => simp
  | cons l ls ih =>
      have hl : sep ∉ l := h l (by simp)
      have ih := ih (fun m hm => h m (by simp [hm]))
      rw [unlines_cons, List.append_assoc, List.cons_append, lines_line hl, ih]
      rfl

/-- Every list is its complete lines followed by its partial line, and none
of them contains the separator. -/
theorem lines_spec (sep : α) (s : List α) :
    unlines sep (lines sep s).1 ++ (lines sep s).2 = s ∧
      (∀ l ∈ (lines sep s).1, sep ∉ l) ∧ sep ∉ (lines sep s).2 := by
  induction s with
  | nil => simp
  | cons c s ih =>
      obtain ⟨hjoin, hlines, hrest⟩ := ih
      by_cases hc : c = sep
      · subst hc
        simpa [lines, hjoin] using ⟨hlines, hrest⟩
      · cases hs : lines sep s with
        | mk ls rest =>
            rw [hs] at hjoin hlines hrest
            cases ls with
            | nil =>
                simpa [lines, hc, hs, Ne.symm hc] using ⟨by simpa using hjoin, hrest⟩
            | cons l ls =>
                have hl := hlines l (by simp)
                have hls : ∀ m ∈ ls, sep ∉ m := fun m hm => hlines m (by simp [hm])
                refine ⟨?_, ?_, ?_⟩
                · simpa [lines, hc, hs] using hjoin
                · simpa [lines, hc, hs, Ne.symm hc] using ⟨hl, hls⟩
                · simpa [lines, hc, hs] using hrest

theorem unlines_lines (sep : α) (s : List α) :
    unlines sep (lines sep s).1 ++ (lines sep s).2 = s := (lines_spec sep s).1

theorem not_mem_of_mem_lines {sep : α} {s l : List α} (h : l ∈ (lines sep s).1) : sep ∉ l :=
  (lines_spec sep s).2.1 l h

theorem not_mem_lines_rest (sep : α) (s : List α) : sep ∉ (lines sep s).2 :=
  (lines_spec sep s).2.2

/-- The lines of a concatenation: those of the first part, then those of the
second part read behind the partial line that the first part left. -/
theorem lines_append (sep : α) (s t : List α) :
    lines sep (s ++ t) =
      ((lines sep s).1 ++ (lines sep ((lines sep s).2 ++ t)).1,
        (lines sep ((lines sep s).2 ++ t)).2) := by
  conv_lhs => rw [← unlines_lines sep s, List.append_assoc]
  exact lines_unlines_append (fun l hl => not_mem_of_mem_lines hl) _

/-- A list that ends with the separator leaves no partial line. -/
theorem lines_rest_of_getLast? {sep : α} {s : List α} (h : s.getLast? = some sep) :
    (lines sep s).2 = [] := by
  obtain ⟨l, rfl⟩ := List.getLast?_eq_some_iff.mp h
  simp [lines_append sep l, lines_line (not_mem_lines_rest sep l) []]

/-- The complete lines of what is cut off behind some lines and in front of the
end of the last one. -/
theorem lines_of_prefix {sep : α} {ls ms : List (List α)} {t p : List α}
    (hls : ∀ l ∈ ls, sep ∉ l) (hms : ∀ l ∈ ms, sep ∉ l) (ht : sep ∉ t)
    (hbehind : unlines sep ls <+: p) (hfront : p <+: unlines sep (ls ++ ms) ++ t) :
    ∃ taken, taken <+: ms ∧ (lines sep p).1 = ls ++ taken := by
  obtain ⟨q, rfl⟩ := hbehind
  rw [unlines_append, List.append_assoc, List.prefix_append_right_inj] at hfront
  obtain ⟨r, hr⟩ := hfront
  refine ⟨(lines sep q).1, ?_, by rw [lines_unlines_append hls]⟩
  have hlines := congrArg (fun s => (lines sep s).1) hr
  simp only [lines_append sep q, lines_unlines_append hms, lines_of_not_mem ht,
    List.append_nil] at hlines
  exact ⟨_, hlines⟩

/-! ### Lines with the last one that no separator ends -/

/-- All lines of a list, the partial line behind the last separator among them
where there is one. -/
def allLines (sep : α) (s : List α) : List (List α) :=
  (lines sep s).1 ++ if (lines sep s).2 = [] then [] else [(lines sep s).2]

theorem allLines_append {sep : α} {s t : List α} (h : (lines sep s).2 = [] ∨ t = []) :
    allLines sep (s ++ t) = allLines sep s ++ allLines sep t := by
  rcases h with hs | rfl
  · simp [allLines, lines_append sep s, hs]
  · simp [allLines]

/-- A line that ends has its separator to spare. -/
theorem length_lt_of_mem_lines {sep : α} {s l : List α} (h : l ∈ (lines sep s).1) :
    l.length < s.length := by
  obtain ⟨before, behind, hsplit⟩ := List.append_of_mem h
  have hjoin := congrArg List.length (unlines_lines sep s)
  rw [hsplit] at hjoin
  simp only [unlines_append, unlines_cons, List.length_append, List.length_cons] at hjoin
  omega

theorem length_le_of_mem_allLines {sep : α} {s l : List α} (h : l ∈ allLines sep s) :
    l.length ≤ s.length := by
  rw [allLines, List.mem_append] at h
  rcases h with h | h
  · exact (length_lt_of_mem_lines h).le
  · have hjoin := congrArg List.length (unlines_lines sep s)
    obtain rfl : l = (lines sep s).2 := by
      split at h
      · simp at h
      · simpa using h
    rw [List.length_append] at hjoin
    omega

/-- A stretch without a separator at the head of a list lies in one line. -/
theorem exists_mem_allLines_of_prefix {sep : α} {p s : List α} (hp : p <+: s) (hfree : sep ∉ p)
    (hne : p ≠ []) : ∃ l ∈ allLines sep s, p.length ≤ l.length := by
  obtain ⟨t, rfl⟩ := hp
  cases hlines : (lines sep (p ++ t)).1 with
  | nil =>
      have hjoin := unlines_lines sep (p ++ t)
      rw [hlines, unlines_nil, List.nil_append] at hjoin
      exact ⟨p ++ t, by simp [allLines, hlines, hjoin, hne], by simp⟩
  | cons l ls =>
      refine ⟨l, by simp [allLines, hlines], ?_⟩
      have hjoin := unlines_lines sep (p ++ t)
      rw [hlines, unlines_cons, List.append_assoc] at hjoin
      by_contra hshort
      -- Otherwise the separator behind the line falls into the stretch.
      have hget := congrArg (fun q => q[l.length]?) hjoin
      simp only [List.getElem?_append_left (show l.length < p.length by omega),
        List.getElem?_append_right le_rfl, Nat.sub_self, List.cons_append,
        List.getElem?_cons_zero] at hget
      exact hfree (List.mem_of_getElem? hget.symm)

/-! ### Lines that arrive in chunks -/

def markFirst (cut : Bool) : List (List α) → List (Bool × List α)
  | [] => []
  | l :: ls => (cut, l) :: ls.map fun m => (false, m)

/-- The lines that a sequence of chunks completes behind the partial line
`pending`, each with whether a chunk boundary falls inside it: strictly behind
its first element and before its separator. -/
def cutLines (sep : α) (pending : List α) : List (List α) → List (Bool × List α)
  | [] => []
  | c :: cs =>
    markFirst (!pending.isEmpty) (lines sep (pending ++ c)).1 ++
      cutLines sep (lines sep (pending ++ c)).2 cs

omit [DecidableEq α] in
@[simp] theorem map_snd_markFirst (cut : Bool) (ls : List (List α)) :
    (markFirst cut ls).map Prod.snd = ls := by
  cases ls <;> simp [markFirst, Function.comp_def]

omit [DecidableEq α] in
theorem markFirst_false (ls : List (List α)) :
    markFirst false ls = ls.map fun m => (false, m) := by
  cases ls <;> simp [markFirst]

/-- Whatever the chunks, the lines are those of the concatenation. -/
theorem map_snd_cutLines (sep : α) (pending : List α) (chunks : List (List α))
    (hp : sep ∉ pending) :
    (cutLines sep pending chunks).map Prod.snd = (lines sep (pending ++ chunks.flatten)).1 := by
  induction chunks generalizing pending with
  | nil => simp [cutLines, lines_of_not_mem hp]
  | cons c cs ih =>
      have ih := ih (lines sep (pending ++ c)).2 (not_mem_lines_rest sep _)
      rw [cutLines, List.map_append, map_snd_markFirst, ih, List.flatten_cons,
        ← List.append_assoc, lines_append sep (pending ++ c)]

theorem cutLines_aligned (sep : α) (chunks : List (List α))
    (h : ∀ c ∈ chunks.dropLast, c = [] ∨ c.getLast? = some sep) :
    cutLines sep [] chunks = (lines sep chunks.flatten).1.map fun l => (false, l) := by
  induction chunks with
  | nil => rfl
  | cons c cs ih =>
      rw [cutLines, List.nil_append, List.isEmpty_nil, Bool.not_true, markFirst_false,
        List.flatten_cons]
      cases cs with
      | nil => simp [cutLines]
      | cons d ds =>
          have hc : (lines sep c).2 = [] := by
            rcases h c (by simp) with rfl | hlast
            · rfl
            · exact lines_rest_of_getLast? hlast
          rw [hc, ih (fun e he => h e (by simp [List.dropLast, he])), lines_append sep c, hc]
          simp

end PgDelta.Lib
