import PgDelta.Lib.Text

/-!
Decimal numerals of a least width, and what the operations on text make of
them: the digits are no separators, no white space and no signs, and reading
them gives the number back.
-/

namespace PgDelta.Lib

/-! ### Digits -/

theorem isDigitChar_eq_isDigit (c : Char) : isDigitChar c = c.isDigit := rfl

theorem isDigitChar_iff {c : Char} : isDigitChar c = true ↔ 48 ≤ c.toNat ∧ c.toNat ≤ 57 := by
  rw [isDigitChar, Bool.and_eq_true, decide_eq_true_iff, decide_eq_true_iff]
  rfl

theorem digitsValue_eq (s : Text) : digitsValue s = Nat.ofDigitChars 10 s 0 := rfl

theorem digitsValue_append (s t : Text) :
    digitsValue (s ++ t) = 10 ^ t.length * digitsValue s + digitsValue t := by
  rw [digitsValue_eq, Nat.ofDigitChars_append, Nat.ofDigitChars_eq_ofDigitChars_zero]
  rfl

theorem digitsValue_cons (c : Char) (s : Text) :
    digitsValue (c :: s) = 10 ^ s.length * (c.toNat - 48) + digitsValue s := by
  rw [← List.singleton_append, digitsValue_append]
  simp [digitsValue]

theorem digitsValue_replicate_zero (n : ℕ) : digitsValue (List.replicate n '0') = 0 := by
  rw [digitsValue_eq, Nat.ofDigitChars_replicate_zero, Nat.mul_zero]

theorem digitsValue_lt {s : Text} (h : s.all isDigitChar) : digitsValue s < 10 ^ s.length := by
  induction s with
  | nil => decide
  | cons c s ih =>
    obtain ⟨hc, hs⟩ : isDigitChar c = true ∧ s.all isDigitChar = true := by
      simpa only [List.all_cons, Bool.and_eq_true] using h
    have hvalue : c.toNat - 48 ≤ 9 := by
      have hle := (isDigitChar_iff.1 hc).2
      omega
    have hrest := ih hs
    rw [digitsValue_cons, List.length_cons, pow_succ]
    calc 10 ^ s.length * (c.toNat - 48) + digitsValue s
        < 10 ^ s.length * 9 + 10 ^ s.length :=
          Nat.add_lt_add_of_le_of_lt (Nat.mul_le_mul_left _ hvalue) hrest
      _ = 10 ^ s.length * 10 := by ring

theorem digitsValue_eq_zero {s : Text} (h : s.all isDigitChar) :
    digitsValue s = 0 ↔ ∀ c ∈ s, c = '0' := by
  induction s with
  | nil => simp [digitsValue]
  | cons c s ih =>
    obtain ⟨hc, hs⟩ : isDigitChar c = true ∧ s.all isDigitChar = true := by
      simpa only [List.all_cons, Bool.and_eq_true] using h
    have hzero : c.toNat - 48 = 0 ↔ c = '0' := by
      have hbounds := isDigitChar_iff.1 hc
      constructor
      · intro h
        exact Char.toNat_inj.1 (show c.toNat = 48 by omega)
      · rintro rfl
        rfl
    rw [digitsValue_cons, Nat.add_eq_zero_iff, ih hs, List.forall_mem_cons, Nat.mul_eq_zero, hzero]
    simp

theorem parseDigits_eq_some {s : Text} (hne : s ≠ []) (h : s.all isDigitChar) :
    parseDigits s = some (digitsValue s) := by
  simp [parseDigits, hne, h]

theorem parseDigits_eq_some_iff {s : Text} {n : ℕ} :
    parseDigits s = some n ↔ s ≠ [] ∧ s.all isDigitChar = true ∧ digitsValue s = n := by
  unfold parseDigits
  split_ifs with h
  · simp only [false_iff, not_and]
    intro hne hdigits
    simp [hne, hdigits] at h
  · simp only [Bool.or_eq_true, List.isEmpty_iff, Bool.not_eq_true', not_or,
      Bool.not_eq_false] at h
    simp [h]

/-- What is read as a number is digits, behind a sign or not. -/
theorem parseInt_cases {lo hi : ℤ} {s : Text} {n : ℤ} (h : parseInt lo hi s = some n) :
    lo ≤ n ∧ n ≤ hi ∧ ∃ t : Text, t ≠ [] ∧ t.all isDigitChar = true
      ∧ (s = '-' :: t ∧ n = -(digitsValue t : ℤ)
        ∨ (s = '+' :: t ∨ s = t) ∧ n = digitsValue t) := by
  unfold parseInt at h
  rw [Option.filter_eq_some_iff, decide_eq_true_eq] at h
  obtain ⟨hvalue, hlo, hhi⟩ := h
  refine ⟨hlo, hhi, ?_⟩
  split at hvalue
  all_goals
    simp only [Option.bind_eq_bind, Option.pure_def, Option.map_bind, Option.bind_eq_some_iff,
      Function.comp_apply, Option.map_some, Option.some.injEq] at hvalue
    obtain ⟨k, hk, rfl⟩ := hvalue
    obtain ⟨hne, hdigits, rfl⟩ := parseDigits_eq_some_iff.1 hk
  · exact ⟨_, hne, hdigits, .inl ⟨rfl, rfl⟩⟩
  · exact ⟨_, hne, hdigits, .inr ⟨.inl rfl, rfl⟩⟩
  · exact ⟨_, hne, hdigits, .inr ⟨.inr rfl, rfl⟩⟩

theorem parseInt_of_digits {lo hi : ℤ} {s : Text} (hne : s ≠ []) (h : s.all isDigitChar)
    (hlo : lo ≤ (digitsValue s : ℤ)) (hhi : (digitsValue s : ℤ) ≤ hi) :
    parseInt lo hi s = some (digitsValue s : ℤ) := by
  have hread := parseDigits_eq_some hne h
  unfold parseInt
  split
  · simp [isDigitChar] at h
  · simp [isDigitChar] at h
  · simp [hread, hlo, hhi]

theorem parseNat_of_digits {hi : ℕ} {s : Text} (hne : s ≠ []) (h : s.all isDigitChar) :
    parseNat hi s = if digitsValue s ≤ hi then some (digitsValue s) else none := by
  have hread := parseDigits_eq_some hne h
  unfold parseNat
  split
  · simp [isDigitChar] at h
  · simp only [hread, Option.filter_some, decide_eq_true_eq]

/-- Digits are read as their value, or as its negative behind a minus sign. -/
theorem parseInt_signed {lo hi : ℤ} {s : Text} (hne : s ≠ []) (h : s.all isDigitChar)
    (negative : Bool) :
    parseInt lo hi (if negative then '-' :: s else s) =
      (some ((if negative then -1 else 1) * (digitsValue s : ℤ))).filter
        fun n => decide (lo ≤ n ∧ n ≤ hi) := by
  have hread := parseDigits_eq_some hne h
  cases negative with
  | false =>
    simp only [Bool.false_eq_true, if_false, one_mul]
    unfold parseInt
    split
    · simp [isDigitChar] at h
    · simp [isDigitChar] at h
    · rw [hread]
      rfl
  | true =>
    simp only [if_true, neg_one_mul, parseInt, hread]
    rfl

/-- No digit is a character of another kind. -/
theorem not_mem_of_digits {s : Text} (h : s.all isDigitChar) {c : Char}
    (hc : isDigitChar c = false) : c ∉ s := by
  intro hmem
  rw [List.all_eq_true.1 h c hmem] at hc
  cases hc

theorem lenUtf8_of_ascii {c : Char} (h : c.toNat < 128) : lenUtf8 c = 1 := by
  have hval : c.val ≤ 0x7F := by
    rw [UInt32.le_iff_toNat_le]
    exact Nat.le_of_lt_succ h
  rw [lenUtf8, String.length_utf8EncodeChar]
  exact if_pos hval

theorem textLen_of_digits {s : Text} (h : s.all isDigitChar) : textLen s = s.length := by
  have hlen : s.map lenUtf8 = s.map fun _ => 1 :=
    List.map_congr_left fun c hc => by
      have hdigit := isDigitChar_iff.1 (List.all_eq_true.1 h c hc)
      exact lenUtf8_of_ascii (by omega)
  rw [textLen, hlen, List.map_const', List.sum_replicate, smul_eq_mul, Nat.mul_one]

/-! ### Numerals -/

/-- The decimal digits of a number, with zeros before them up to a width. -/
def padded (width n : ℕ) : Text := (Nat.toDigits 10 n).leftpad width '0'

theorem padded_eq (width n : ℕ) :
    padded width n =
      List.replicate (width - (Nat.toDigits 10 n).length) '0' ++ Nat.toDigits 10 n := rfl

theorem padded_all (width n : ℕ) : (padded width n).all isDigitChar := by
  rw [padded_eq, List.all_append, Bool.and_eq_true, List.all_eq_true, List.all_eq_true]
  refine ⟨fun c hc => ?_, fun c hc => ?_⟩
  · rw [List.eq_of_mem_replicate hc]
    rfl
  · rw [isDigitChar_eq_isDigit]
    exact Nat.isDigit_of_mem_toDigits (by omega) (by omega) hc

theorem padded_ne_nil (width n : ℕ) : padded width n ≠ [] := by
  rw [padded_eq]
  exact List.append_ne_nil_of_right_ne_nil _ Nat.toDigits_ne_nil

@[simp] theorem digitsValue_padded (width n : ℕ) : digitsValue (padded width n) = n := by
  rw [padded_eq, digitsValue_append, digitsValue_replicate_zero, Nat.mul_zero, Nat.zero_add,
    digitsValue_eq, Nat.ofDigitChars_ten_toDigits]

theorem length_padded {width n : ℕ} (hwidth : 0 < width) (h : n < 10 ^ width) :
    (padded width n).length = width := by
  have := (Nat.length_toDigits_le_iff (by omega) hwidth).2 h
  rw [padded_eq, List.length_append, List.length_replicate]
  omega

theorem parseInt_padded {lo hi : ℤ} {width n : ℕ} (hlo : lo ≤ (n : ℤ)) (hhi : (n : ℤ) ≤ hi) :
    parseInt lo hi (padded width n) = some (n : ℤ) := by
  have hvalue := digitsValue_padded width n
  rw [← hvalue] at hlo hhi ⊢
  have hread := parseInt_of_digits (padded_ne_nil width n) (padded_all width n) hlo hhi
  rwa [hvalue] at hread ⊢

/-! ### Pieces -/

theorem splitOnce_append {sep : Char} {a : Text} (h : sep ∉ a) (b : Text) :
    splitOnce sep (a ++ sep :: b) = some (a, b) := by
  induction a with
  | nil => simp [splitOnce]
  | cons c a ih =>
    obtain ⟨hc, ha⟩ : sep ≠ c ∧ sep ∉ a := by simpa using h
    simp [splitOnce, ih ha, Ne.symm hc]

theorem splitOnce_eq_none {sep : Char} {a : Text} (h : sep ∉ a) : splitOnce sep a = none := by
  induction a with
  | nil => rfl
  | cons c a ih =>
    obtain ⟨hc, ha⟩ : sep ≠ c ∧ sep ∉ a := by simpa using h
    simp [splitOnce, ih ha, Ne.symm hc]

/-- The separator that a text is split at is its first. -/
theorem splitOnce_eq_some {sep : Char} {s a b : Text} (h : splitOnce sep s = some (a, b)) :
    s = a ++ sep :: b ∧ sep ∉ a := by
  induction s generalizing a with
  | nil => cases h
  | cons c s ih =>
    rw [splitOnce] at h
    split_ifs at h with hc
    · cases h
      exact ⟨by rw [hc]; rfl, by simp⟩
    · obtain ⟨⟨a', b'⟩, hrest, heq⟩ := Option.map_eq_some_iff.1 h
      cases heq
      obtain ⟨rfl, hmem⟩ := ih hrest
      exact ⟨rfl, by simp [hmem, Ne.symm hc]⟩

theorem splitn_append {sep : Char} {a : Text} (h : sep ∉ a) (n : ℕ) (b : Text) :
    splitn sep (n + 2) (a ++ sep :: b) = a :: splitn sep (n + 1) b := by
  rw [splitn, splitOnce_append h]

theorem rsplitOnce_eq_none {p : Char → Bool} {a : Text} (h : ∀ c ∈ a, p c = false) :
    rsplitOnce p a = none := by
  induction a with
  | nil => rfl
  | cons c a ih =>
    rw [rsplitOnce, ih fun d hd => h d (List.mem_cons_of_mem _ hd)]
    simp [h c List.mem_cons_self]

/-- The last character with the property is the one behind which there is
none. -/
theorem rsplitOnce_append {p : Char → Bool} {sep : Char} {b : Text} (hsep : p sep = true)
    (h : ∀ c ∈ b, p c = false) (a : Text) :
    rsplitOnce p (a ++ sep :: b) = some (a, sep, b) := by
  induction a with
  | nil => simp [rsplitOnce, rsplitOnce_eq_none h, hsep]
  | cons c a ih => simp [rsplitOnce, ih]

theorem rsplitOnce_ne_none {p : Char → Bool} {s : Text} {c : Char} (hmem : c ∈ s)
    (hc : p c = true) : rsplitOnce p s ≠ none := by
  induction s with
  | nil => cases hmem
  | cons d s ih =>
    rw [rsplitOnce]
    obtain rfl | hmem := List.mem_cons.1 hmem
    · cases rsplitOnce p s <;> simp [hc]
    · cases hrest : rsplitOnce p s with
      | none => exact absurd hrest (ih hmem)
      | some r => simp

/-- Behind the last character with the property there is none. -/
theorem rsplitOnce_eq_some {p : Char → Bool} {s a b : Text} {c : Char}
    (h : rsplitOnce p s = some (a, c, b)) : ∀ d ∈ b, p d = false := by
  induction s generalizing a with
  | nil => cases h
  | cons d s ih =>
    rw [rsplitOnce] at h
    cases hrest : rsplitOnce p s with
    | some r =>
      obtain ⟨a', c', b'⟩ := r
      simp only [hrest] at h
      cases h
      exact ih hrest
    | none =>
      simp only [hrest] at h
      split_ifs at h
      cases h
      intro e he
      by_contra hp
      rw [Bool.not_eq_false] at hp
      exact absurd hrest (rsplitOnce_ne_none he hp)

theorem splitAll_of_not_mem {sep : Char} {a : Text} (h : sep ∉ a) : splitAll sep a = [a] := by
  induction a with
  | nil => rfl
  | cons c a ih =>
    obtain ⟨hc, ha⟩ : sep ≠ c ∧ sep ∉ a := by simpa using h
    simp [splitAll, ih ha, Ne.symm hc]

theorem splitAll_append {sep : Char} {a : Text} (h : sep ∉ a) (b : Text) :
    splitAll sep (a ++ sep :: b) = a :: splitAll sep b := by
  induction a with
  | nil => simp [splitAll]
  | cons c a ih =>
    obtain ⟨hc, ha⟩ : sep ≠ c ∧ sep ∉ a := by simpa using h
    simp [splitAll, ih ha, Ne.symm hc]

theorem mem_of_mem_splitAll {sep c : Char} {s piece : Text} (hpiece : piece ∈ splitAll sep s)
    (hc : c ∈ piece) : c ∈ s := by
  induction s generalizing piece with
  | nil =>
    rw [splitAll, List.mem_singleton] at hpiece
    rw [hpiece] at hc
    cases hc
  | cons d s ih =>
    rw [splitAll] at hpiece
    split_ifs at hpiece with hd
    · obtain rfl | hpiece := List.mem_cons.1 hpiece
      · cases hc
      · exact List.mem_cons_of_mem _ (ih hpiece hc)
    · cases hpieces : splitAll sep s with
      | nil =>
        simp only [hpieces, List.mem_singleton] at hpiece
        rw [hpiece, List.mem_singleton] at hc
        simp [hc]
      | cons first pieces =>
        simp only [hpieces, List.mem_cons] at hpiece
        obtain rfl | hpiece := hpiece
        · obtain rfl | hc := List.mem_cons.1 hc
          · exact List.mem_cons_self
          · exact List.mem_cons_of_mem _ (ih (hpieces ▸ List.mem_cons_self) hc)
        · exact List.mem_cons_of_mem _ (ih (hpieces ▸ List.mem_cons_of_mem _ hpiece) hc)

/-! ### White space -/

theorem trimEnd_of_last {s : Text} (hlast : ∀ c ∈ s.getLast?, isWhitespace c = false) :
    trimEnd s = s := by
  rw [trimEnd, List.rdropWhile_eq_self_iff]
  intro hne
  simpa using hlast _ (List.getLast?_eq_some_getLast hne)

/-- Text whose ends are no white space. -/
theorem trim_of_ends {s : Text} (hhead : ∀ c ∈ s.head?, isWhitespace c = false)
    (hlast : ∀ c ∈ s.getLast?, isWhitespace c = false) : trim s = s := by
  have hstart : trimStart s = s := by
    cases s with
    | nil => rfl
    | cons c s => exact List.dropWhile_cons_of_neg (by simp [hhead c rfl])
  rw [trim, hstart, trimEnd_of_last hlast]

theorem trim_of_forall {s : Text} (h : ∀ c ∈ s, isWhitespace c = false) : trim s = s :=
  trim_of_ends (fun c hc => h c (List.mem_of_mem_head? hc))
    (fun c hc => h c (List.mem_of_getLast? hc))

/-- White space around a text is taken off it. -/
theorem trim_blanks {a b : Text} (ha : ∀ c ∈ a, isWhitespace c = true)
    (hb : ∀ c ∈ b, isWhitespace c = true) (s : Text) : trim (a ++ (s ++ b)) = trim s := by
  have hend : ∀ t : Text, trimEnd (t ++ b) = trimEnd t := by
    intro t
    rw [trimEnd, List.rdropWhile, List.reverse_append,
      List.dropWhile_append_of_pos fun c hc => hb c (List.mem_reverse.1 hc)]
    rfl
  rw [trim, trim, trimStart, List.dropWhile_append_of_pos ha, List.dropWhile_append]
  split_ifs with hs
  · rw [List.dropWhile_eq_nil_iff.2 hb, trimStart, List.isEmpty_iff.1 hs]
  · exact hend _

theorem isWhitespace_of_isDigitChar {c : Char} (h : isDigitChar c = true) :
    isWhitespace c = false := by
  have hbounds := isDigitChar_iff.1 h
  simp only [isWhitespace, Bool.or_eq_false_iff, Bool.and_eq_false_iff, decide_eq_false_iff_not,
    beq_eq_false_iff_ne]
  omega

end PgDelta.Lib
