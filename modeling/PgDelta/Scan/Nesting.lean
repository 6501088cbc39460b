import PgDelta.Scan.Items

/-!
One notion of nesting for the two passes over a `CREATE TABLE`.

`matchingParen` and `splitTopLevel` each keep track of quotes and parens. Both
follow the same reading of a text, of which a state is how deep in parens it
stands and whether within quotes. A doubled quote leaves the quotes and enters
them again.
-/

namespace PgDelta.Scan

open PgDelta.Lib

/-! ### Reading a text -/

structure Nesting where
  depth : ℤ := 0
  quoted : Bool := false
  deriving DecidableEq, Repr

namespace Nesting

def step (n : Nesting) (c : UInt8) : Nesting :=
  if c = quote then { n with quoted := !n.quoted }
  else if n.quoted then n
  else if c = openParen then { n with depth := n.depth + 1 }
  else if c = closeParen then { n with depth := n.depth - 1 }
  else n

def read (n : Nesting) (s : Bytes) : Nesting := s.foldl step n

@[simp] theorem read_nil (n : Nesting) : n.read [] = n := rfl

@[simp] theorem read_cons (n : Nesting) (c : UInt8) (s : Bytes) :
    n.read (c :: s) = (n.step c).read s := rfl

theorem read_append (n : Nesting) (s t : Bytes) : n.read (s ++ t) = (n.read s).read t :=
  List.foldl_append

/-- The reading of a text never stands outside the parens that it began in. -/
def Above (n : Nesting) (s : Bytes) : Prop := ∀ p, p <+: s → 0 ≤ (n.read p).depth

theorem above_nil (n : Nesting) (h : 0 ≤ n.depth) : n.Above [] := by
  intro p hp
  rw [List.prefix_nil.mp hp]
  exact h

theorem above_cons {n : Nesting} {c : UInt8} {s : Bytes} :
    n.Above (c :: s) ↔ 0 ≤ n.depth ∧ (n.step c).Above s := by
  constructor
  · intro h
    exact ⟨h [] (List.nil_prefix), fun p hp => h (c :: p) (List.cons_prefix_cons.mpr ⟨rfl, hp⟩)⟩
  · rintro ⟨hdepth, h⟩ p hp
    cases p with
    | nil => exact hdepth
    | cons d p =>
        obtain ⟨rfl, hrest⟩ := List.cons_prefix_cons.mp hp
        exact h p hrest

theorem Above.depth {n : Nesting} {s : Bytes} (h : n.Above s) : 0 ≤ n.depth := h [] List.nil_prefix

theorem step_depth {n : Nesting} {c : UInt8} (h : 0 ≤ n.depth)
    (hne : ¬(c = closeParen ∧ n = {})) : 0 ≤ (n.step c).depth := by
  obtain ⟨depth, quoted⟩ := n
  unfold step
  split_ifs with hquote hquoted hopen hclose
  · exact h
  · exact h
  · exact Int.le_add_one h
  · obtain rfl : quoted = false := by simpa using hquoted
    have hdepth : depth ≠ 0 := by
      rintro rfl
      exact hne ⟨hclose, rfl⟩
    dsimp only at h ⊢
    omega
  · exact h

theorem read_depth_bounds (n : Nesting) (s : Bytes) :
    n.depth - s.length ≤ (n.read s).depth ∧ (n.read s).depth ≤ n.depth + s.length := by
  induction s generalizing n with
  | nil => simp
  | cons c s ih =>
      obtain ⟨hlow, hhigh⟩ := ih (n.step c)
      have hstep : (n.step c).depth = n.depth ∨ (n.step c).depth = n.depth + 1 ∨
          (n.step c).depth = n.depth - 1 := by
        unfold step
        split_ifs <;> simp
      rw [read_cons, List.length_cons, Nat.cast_succ]
      omega

end Nesting

/-- A text that ends where it began, outside quotes, and never goes below. -/
structure Balanced (s : Bytes) : Prop where
  closed : Nesting.read {} s = {}
  above : Nesting.Above {} s

/-- A text has no separator at the outermost depth outside quotes. -/
def Whole (sep : UInt8) (s : Bytes) : Prop :=
  ∀ before rest, s = before ++ sep :: rest → Nesting.read {} before ≠ {}

/-- A closing paren stands where what is behind the opening one is balanced. -/
structure Closes (s : Bytes) (start stop : ℕ) : Prop where
  behind : start < stop
  paren : s[stop]? = some closeParen
  inner : Balanced (slice s (start + 1) stop)

/-! ### The matching paren -/

theorem matchingParenLoop_cons {n : Nesting} (i : ℕ) (c : UInt8) (s : Bytes) :
    matchingParenLoop (n.depth + 1) n.quoted i (c :: s) =
      if c = closeParen ∧ n = {} then some i
      else matchingParenLoop ((n.step c).depth + 1) (n.step c).quoted (i + 1) s := by
  obtain ⟨depth, quoted⟩ := n
  by_cases hquote : c = quote
  · subst hquote
    rw [if_neg (fun h => absurd h.1 (by decide))]
    cases quoted with
    | true => exact matchingParenLoop_quote _ _ _
    | false => exact if_pos rfl
  · cases quoted with
    | true =>
        have hne : ({ depth := depth, quoted := true } : Nesting) ≠ {} := by simp
        rw [if_neg (fun h => hne h.2), matchingParenLoop_quoted hquote]
        simp [Nesting.step, hquote]
    | false =>
        simp only [matchingParenLoop, Nesting.step, hquote, if_false, Bool.false_eq_true]
        by_cases hopen : c = openParen
        · subst hopen
          rw [if_pos rfl, if_pos rfl, if_neg (fun h => absurd h.1 (by decide))]
        · by_cases hclose : c = closeParen
          · subst hclose
            by_cases hdepth : depth = 0
            · subst hdepth
              simp [hopen]
            · have hne : ¬depth + 1 - 1 = 0 := by omega
              simp [hopen, hdepth]
          · simp [hopen, hclose]

/-- The loop stops at the closing paren behind a text that ends where the
reading began, and only there. -/
theorem matchingParenLoop_iff {n : Nesting} (h : 0 ≤ n.depth) (i k : ℕ) (s : Bytes) :
    matchingParenLoop (n.depth + 1) n.quoted i s = some k ↔
      ∃ inner rest, s = inner ++ closeParen :: rest ∧ k = i + inner.length ∧
        n.read inner = {} ∧ n.Above inner := by
  induction s generalizing n i with
  | nil =>
      rw [matchingParenLoop]
      constructor
      · intro hnone
        cases hnone
      · rintro ⟨inner, rest, hsplit, -⟩
        cases inner <;> cases hsplit
  | cons c s ih =>
      rw [matchingParenLoop_cons]
      by_cases hstop : c = closeParen ∧ n = {}
      · rw [if_pos hstop, Option.some_inj]
        obtain ⟨rfl, rfl⟩ := hstop
        constructor
        · rintro rfl
          exact ⟨[], s, rfl, rfl, rfl, Nesting.above_nil _ h⟩
        · rintro ⟨inner, rest, hsplit, rfl, -, habove⟩
          cases inner with
          | nil => rfl
          | cons d inner =>
              -- The reading would go below with this paren.
              obtain ⟨rfl, -⟩ := List.cons.inj hsplit
              exact absurd (Nesting.above_cons.mp habove).2.depth (by decide)
      · rw [if_neg hstop, ih (Nesting.step_depth h hstop)]
        constructor
        · rintro ⟨inner, rest, rfl, rfl, hread, habove⟩
          refine ⟨c :: inner, rest, rfl, ?_, hread, Nesting.above_cons.mpr ⟨h, habove⟩⟩
          rw [List.length_cons]
          omega
        · rintro ⟨inner, rest, hsplit, rfl, hread, habove⟩
          cases inner with
          | nil =>
              obtain ⟨rfl, -⟩ := List.cons.inj hsplit
              exact absurd ⟨rfl, hread⟩ hstop
          | cons d inner =>
              obtain ⟨rfl, rfl⟩ := List.cons.inj hsplit
              refine ⟨inner, rest, rfl, ?_, hread, (Nesting.above_cons.mp habove).2⟩
              rw [List.length_cons]
              omega

/-- What stands between the parens, as a slice of the whole text. -/
theorem closes_iff {s : Bytes} {start stop : ℕ} :
    Closes s start stop ↔ ∃ inner rest, s.drop (start + 1) = inner ++ closeParen :: rest ∧
      stop = start + 1 + inner.length ∧ Balanced inner := by
  constructor
  · rintro ⟨hbehind, hparen, hinner⟩
    obtain ⟨hlt, hget⟩ := List.getElem?_eq_some_iff.mp hparen
    refine ⟨slice s (start + 1) stop, s.drop (stop + 1), ?_, ?_, hinner⟩
    · have hdrop : s.drop (start + 1) = (s.take stop ++ s.drop stop).drop (start + 1) := by
        rw [List.take_append_drop]
      rw [hdrop, List.drop_append_of_le_length (by rw [List.length_take]; omega),
        List.drop_eq_getElem_cons hlt, hget, slice]
    · rw [slice, List.length_drop, List.length_take]
      omega
  · rintro ⟨inner, rest, hsplit, rfl, hinner⟩
    have hlen : start + 1 ≤ s.length := by
      by_contra hshort
      rw [List.drop_eq_nil_of_le (by omega)] at hsplit
      cases inner <;> cases hsplit
    have hs : s = s.take (start + 1) ++ (inner ++ closeParen :: rest) := by
      rw [← hsplit, List.take_append_drop]
    have htake : (s.take (start + 1)).length = start + 1 := by
      rw [List.length_take]
      omega
    refine ⟨by omega, ?_, ?_⟩
    · rw [hs, ← List.append_assoc, List.getElem?_append_right (by simp [htake])]
      simp [htake]
    · have hslice : slice s (start + 1) (start + 1 + inner.length) = inner := by
        rw [slice, ← List.take_drop, hsplit, List.take_left']
        rfl
      rw [hslice]
      exact hinner

theorem matchingParen_iff {s : Bytes} {start : ℕ} (h : s[start]? = some openParen) (stop : ℕ) :
    matchingParen s start = some stop ↔ Closes s start stop := by
  obtain ⟨hlt, hget⟩ := List.getElem?_eq_some_iff.mp h
  have hopen : matchingParen s start
      = matchingParenLoop (({} : Nesting).depth + 1) ({} : Nesting).quoted (start + 1)
        (s.drop (start + 1)) := by
    rw [matchingParen, List.drop_eq_getElem_cons hlt, hget]
    rfl
  rw [hopen, matchingParenLoop_iff le_rfl, closes_iff]
  constructor
  · rintro ⟨inner, rest, hsplit, hstop, hread, habove⟩
    exact ⟨inner, rest, hsplit, hstop, hread, habove⟩
  · rintro ⟨inner, rest, hsplit, hstop, hread, habove⟩
    exact ⟨inner, rest, hsplit, hstop, hread, habove⟩

/-! ### The pieces -/

theorem splitLoop_cons {sep : UInt8} (hquote : sep ≠ quote) (hopen : sep ≠ openParen)
    (hclose : sep ≠ closeParen) (n : Nesting) (piece : Bytes) (c : UInt8) (s : Bytes) :
    splitLoop sep n.depth n.quoted piece (c :: s) =
      if c = sep ∧ n = {} then piece :: splitLoop sep 0 false [] s
      else splitLoop sep (n.step c).depth (n.step c).quoted (piece ++ [c]) s := by
  obtain ⟨depth, quoted⟩ := n
  by_cases hc : c = quote
  · subst hc
    rw [if_neg (fun h => hquote h.1.symm)]
    cases quoted with
    | true => exact splitLoop_quote _ _ _ _
    | false => exact if_pos rfl
  · cases quoted with
    | true =>
        have hne : ({ depth := depth, quoted := true } : Nesting) ≠ {} := by simp
        rw [if_neg (fun h => hne h.2), splitLoop_quoted hc]
        simp [Nesting.step, hc]
    | false =>
        simp only [splitLoop, Nesting.step, hc, if_false, Bool.false_eq_true]
        by_cases hc' : c = openParen
        · subst hc'
          rw [if_pos rfl, if_pos rfl, if_neg (fun h => hopen h.1.symm)]
        · by_cases hc'' : c = closeParen
          · subst hc''
            rw [if_neg hc', if_pos rfl, if_neg hc', if_pos rfl, if_neg (fun h => hclose h.1.symm)]
          · simp only [hc', hc'', if_false, Nesting.mk.injEq, and_true]
            by_cases hsep : c = sep ∧ depth = 0
            · rw [if_pos hsep, if_pos hsep, hsep.2]
            · rw [if_neg hsep, if_neg hsep]

theorem splitLoop_ne_nil {sep : UInt8} (hquote : sep ≠ quote) (hopen : sep ≠ openParen)
    (hclose : sep ≠ closeParen) (n : Nesting) (piece s : Bytes) :
    splitLoop sep n.depth n.quoted piece s ≠ [] := by
  induction s generalizing n piece with
  | nil =>
      rw [splitLoop]
      exact List.cons_ne_nil _ _
  | cons c s ih =>
      rw [splitLoop_cons hquote hopen hclose]
      split_ifs
      · exact List.cons_ne_nil _ _
      · exact ih _ _

theorem whole_nil (sep : UInt8) : Whole sep [] := by
  intro before rest hsplit
  cases before <;> cases hsplit

theorem Whole.snoc {sep c : UInt8} {piece : Bytes} (h : Whole sep piece)
    (hc : ¬(c = sep ∧ Nesting.read {} piece = {})) : Whole sep (piece ++ [c]) := by
  intro before rest hsplit hread
  cases hrest : rest.reverse with
  | nil =>
      rw [List.reverse_eq_nil_iff.mp hrest] at hsplit
      obtain ⟨rfl, hlast⟩ := List.append_inj' hsplit rfl
      exact hc ⟨List.singleton_inj.mp hlast, hread⟩
  | cons d front =>
      have hrest' : rest = front.reverse ++ [d] := by
        rw [← List.reverse_cons, ← hrest, List.reverse_reverse]
      rw [hrest', ← List.cons_append, ← List.append_assoc] at hsplit
      obtain ⟨rfl, -⟩ := List.append_inj' hsplit rfl
      exact h before front.reverse rfl hread

theorem above_snoc {piece : Bytes} {c : UInt8} (h : Nesting.Above {} piece)
    (hc : 0 ≤ ((Nesting.read {} piece).step c).depth) : Nesting.Above {} (piece ++ [c]) := by
  intro p hp
  obtain rfl | hp := List.prefix_concat_iff.mp hp
  · rw [Nesting.read_append]
    exact hc
  · exact h p hp

/-- The pieces of a text that ends where it began are such texts, and they make
up the text with separators between them. -/
theorem splitLoop_pieces {sep : UInt8} (hquote : sep ≠ quote) (hopen : sep ≠ openParen)
    (hclose : sep ≠ closeParen) {n : Nesting} {piece s : Bytes} (hpiece : Nesting.read {} piece = n)
    (habove : Nesting.Above {} piece) (hwhole : Whole sep piece) (hend : n.read s = {})
    (hrest : n.Above s) :
    [sep].intercalate (splitLoop sep n.depth n.quoted piece s) = piece ++ s ∧
      ∀ p ∈ splitLoop sep n.depth n.quoted piece s, Balanced p ∧ Whole sep p := by
  induction s generalizing n piece with
  | nil =>
      rw [splitLoop, List.append_nil, List.intercalate_singleton]
      refine ⟨rfl, fun p hp => ?_⟩
      rw [List.mem_singleton.mp hp]
      exact ⟨⟨hpiece.trans hend, habove⟩, hwhole⟩
  | cons c s ih =>
      rw [splitLoop_cons hquote hopen hclose]
      rw [Nesting.above_cons] at hrest
      by_cases hcut : c = sep ∧ n = {}
      · rw [if_pos hcut]
        obtain ⟨rfl, rfl⟩ := hcut
        have hstep : Nesting.step {} c = {} := by
          simp [Nesting.step, hquote, hopen, hclose]
        rw [Nesting.read_cons, hstep] at hend
        rw [hstep] at hrest
        obtain ⟨hjoin, hpieces⟩ := @ih {} [] rfl (Nesting.above_nil _ le_rfl) (whole_nil c)
          hend hrest.2
        refine ⟨?_, fun p hp => ?_⟩
        · have hne := splitLoop_ne_nil hquote hopen hclose {} [] s
          rw [List.intercalate_cons_of_ne_nil hne, hjoin, List.append_assoc]
          rfl
        · obtain rfl | hp := List.mem_cons.mp hp
          · exact ⟨⟨hpiece, habove⟩, hwhole⟩
          · exact hpieces p hp
      · rw [if_neg hcut]
        have hread : Nesting.read {} (piece ++ [c]) = n.step c := by
          rw [Nesting.read_append, hpiece]
          rfl
        obtain ⟨hjoin, hpieces⟩ := ih hread
          (above_snoc habove (by rw [hpiece]; exact hrest.2.depth))
          (hwhole.snoc (by rw [hpiece]; exact hcut)) hend hrest.2
        refine ⟨?_, hpieces⟩
        rw [hjoin, List.append_assoc, List.singleton_append]

/-- The counters of both passes are `i32`, and hold the depth of every text of
fewer than `2 ^ 31` bytes. -/
theorem Nesting.read_depth_i32 {s : Bytes} (h : s.length < 2 ^ 31) :
    -2 ^ 31 ≤ (Nesting.read {} s).depth ∧ (Nesting.read {} s).depth < 2 ^ 31 := by
  have hstart : ({} : Nesting).depth = 0 := rfl
  obtain ⟨hlow, hhigh⟩ := Nesting.read_depth_bounds {} s
  rw [hstart] at hlow hhigh
  exact ⟨by omega, by omega⟩

/-- The two passes follow one notion of nesting. The paren that is found is the
first one behind a balanced text, and when none is found there is none. The
pieces of that text are balanced, have no comma at the outermost depth, and make
it up with commas between them. -/
theorem lexers_agree {s : Bytes} {start : ℕ} (h : s[start]? = some openParen) :
    (∀ stop, matchingParen s start = some stop →
      Closes s start stop ∧ (∀ k, Closes s start k → stop ≤ k) ∧
        [comma].intercalate (splitTopLevel (slice s (start + 1) stop) comma)
          = slice s (start + 1) stop ∧
        ∀ piece ∈ splitTopLevel (slice s (start + 1) stop) comma,
          Balanced piece ∧ Whole comma piece) ∧
      (matchingParen s start = none → ∀ k, ¬Closes s start k) := by
  constructor
  · intro stop hstop
    have hcloses := (matchingParen_iff h stop).mp hstop
    obtain ⟨hjoin, hpieces⟩ := @splitLoop_pieces comma (by decide) (by decide) (by decide) {} []
      (slice s (start + 1) stop) rfl (Nesting.above_nil _ le_rfl) (whole_nil comma)
      hcloses.inner.closed hcloses.inner.above
    refine ⟨hcloses, fun k hk => ?_, hjoin, hpieces⟩
    rw [(matchingParen_iff h k).mpr hk] at hstop
    exact (Option.some.inj hstop).ge
  · intro hnone k hk
    rw [(matchingParen_iff h k).mpr hk] at hnone
    cases hnone

/-- A quoted paren and comma, a doubled quote, and a pair of parens inside. -/
theorem lexers_agree_quoted :
    matchingParen (ascii "t (\"a),\"\"b\" n(1,2), c) x") 2 = some 21 ∧
      Closes (ascii "t (\"a),\"\"b\" n(1,2), c) x") 2 21 := by
  have hstop : matchingParen (ascii "t (\"a),\"\"b\" n(1,2), c) x") 2 = some 21 := by
    decide +kernel
  have hopen : (ascii "t (\"a),\"\"b\" n(1,2), c) x")[2]? = some openParen := by
    decide +kernel
  exact ⟨hstop, ((lexers_agree hopen).1 21 hstop).1⟩

end PgDelta.Scan
