import PgDelta.Lib.Numerals
import PgDelta.Types.Values

/-!
What `parse_decimal` computes: a numeral is accepted exactly when a decimal of
the column's precision and scale holds its value.
-/

namespace PgDelta.Values

open PgDelta.Lib

/-! ### The arithmetic -/

theorem checkedI128_of_lt {n : ℤ} (h : 0 ≤ n) :
    checkedI128 n = if n < 2 ^ 127 then some n else none := by
  unfold checkedI128
  split_ifs <;> first | rfl | omega

/-- Digits are appended as long as the number that they make fits. -/
theorem pushDigits_eq {s : Text} (hs : s.all isDigitChar) (n : ℕ) (hn : n < 2 ^ 127) :
    pushDigits n s =
      if n * 10 ^ s.length + digitsValue s < 2 ^ 127 then
        some ((n * 10 ^ s.length + digitsValue s : ℕ) : ℤ)
      else none := by
  induction s generalizing n with
  | nil =>
    have hvalue : n * 10 ^ ([] : Text).length + digitsValue [] = n := by
      simp [digitsValue]
    rw [hvalue, if_pos hn]
    rfl
  | cons c s ih =>
    obtain ⟨-, hs'⟩ : isDigitChar c = true ∧ s.all isDigitChar = true := by
      simpa only [List.all_cons, Bool.and_eq_true] using hs
    have hvalue : n * 10 ^ (c :: s).length + digitsValue (c :: s)
        = (n * 10 + (c.toNat - 48)) * 10 ^ s.length + digitsValue s := by
      rw [digitsValue_cons, List.length_cons]
      ring
    have hgrow : n * 10 + (c.toNat - 48)
        ≤ (n * 10 + (c.toNat - 48)) * 10 ^ s.length + digitsValue s :=
      (Nat.le_mul_of_pos_right _ (by positivity)).trans (Nat.le_add_right _ _)
    rw [pushDigits, checkedI128_of_lt (by positivity)]
    by_cases hten : (n : ℤ) * 10 < 2 ^ 127
    · rw [if_pos hten, Option.bind_some, checkedI128_of_lt (by positivity)]
      by_cases hadd : (n : ℤ) * 10 + ((c.toNat - 48 : ℕ) : ℤ) < 2 ^ 127
      · rw [if_pos hadd]
        have hnext : (n : ℤ) * 10 + ((c.toNat - 48 : ℕ) : ℤ)
            = ((n * 10 + (c.toNat - 48) : ℕ) : ℤ) := by push_cast; rfl
        rw [hnext]
        dsimp only
        rw [ih hs' _ (by omega), hvalue]
      · rw [if_neg hadd, hvalue, if_neg (by omega)]
    · rw [if_neg hten, hvalue, if_neg (by omega)]
      rfl

theorem padZeros_eq (k n : ℕ) (hn : n < 2 ^ 127) :
    padZeros k n = if n * 10 ^ k < 2 ^ 127 then some ((n * 10 ^ k : ℕ) : ℤ) else none := by
  induction k generalizing n with
  | zero => rw [Nat.pow_zero, Nat.mul_one, if_pos hn, padZeros]
  | succ k ih =>
    have hvalue : n * 10 ^ (k + 1) = n * 10 * 10 ^ k := by ring
    have hgrow : n * 10 ≤ n * 10 * 10 ^ k := Nat.le_mul_of_pos_right _ (by positivity)
    rw [padZeros, checkedI128_of_lt (by positivity), hvalue]
    by_cases hten : (n : ℤ) * 10 < 2 ^ 127
    · have hnext : (n : ℤ) * 10 = ((n * 10 : ℕ) : ℤ) := by push_cast; rfl
      rw [if_pos hten, hnext]
      exact ih _ (by omega)
    · rw [if_neg hten, if_neg (by omega)]

/-! ### Numerals -/

/-- A number that is written with digits, at most one point and at most one
sign. -/
structure Numeral where
  sign : Text
  whole : Text
  fraction : Option Text
  sign_mem : sign ∈ [[], ['-'], ['+']]
  whole_digits : whole.all isDigitChar
  fraction_digits : (fraction.getD []).all isDigitChar
  some_digit : whole ++ fraction.getD [] ≠ []

namespace Numeral

/-- The digits behind the point. -/
def decimals (x : Numeral) : Text := x.fraction.getD []

def unsignedText (x : Numeral) : Text :=
  x.whole ++ match x.fraction with
    | none => []
    | some f => '.' :: f

def text (x : Numeral) : Text := x.sign ++ x.unsignedText

/-- The digits of a number without sign and point, which make its value times
a power of ten. -/
def digits (x : Numeral) : ℕ := digitsValue (x.whole ++ x.decimals)

/-- The integer of which the value is the part `10 ^ scale`, up to its sign, if
there is one below `10 ^ precision`. -/
def Unscaled (x : Numeral) (precision scale n : ℕ) : Prop :=
  n < 10 ^ precision ∧ n * 10 ^ x.decimals.length = x.digits * 10 ^ scale

/-- What `parse_decimal` keeps of the digits, padded to the scale. -/
def kept (x : Numeral) (scale : ℕ) : ℕ :=
  digitsValue (x.whole ++ x.decimals.take scale) * 10 ^ (scale - (x.decimals.take scale).length)

theorem decimals_digits (x : Numeral) : x.decimals.all isDigitChar := x.fraction_digits

theorem kept_iff (x : Numeral) (scale n : ℕ) :
    n * 10 ^ x.decimals.length = x.digits * 10 ^ scale
      ↔ n = x.kept scale ∧ ∀ c ∈ x.decimals.drop scale, c = '0' := by
  have hdrop : (x.decimals.drop scale).all isDigitChar := by
    rw [List.all_eq_true]
    exact fun c hc => List.all_eq_true.1 x.decimals_digits c (List.mem_of_mem_drop hc)
  have hdigits : x.digits = 10 ^ (x.decimals.drop scale).length
      * digitsValue (x.whole ++ x.decimals.take scale) + digitsValue (x.decimals.drop scale) := by
    rw [← digitsValue_append, List.append_assoc, List.take_append_drop]
    rfl
  have hlow := digitsValue_lt hdrop
  rw [← digitsValue_eq_zero hdrop, kept, hdigits]
  generalize digitsValue (x.whole ++ x.decimals.take scale) = high
  by_cases hscale : x.decimals.length ≤ scale
  · rw [List.take_of_length_le hscale, List.drop_of_length_le hscale]
    have hpow : 10 ^ scale = 10 ^ (scale - x.decimals.length) * 10 ^ x.decimals.length := by
      rw [← pow_add, Nat.sub_add_cancel hscale]
    have hzero : digitsValue [] = 0 := rfl
    rw [hpow, hzero, List.length_nil, Nat.pow_zero, Nat.one_mul, Nat.add_zero, ← Nat.mul_assoc,
      Nat.mul_left_inj (by positivity)]
    simp
  · have htake : (x.decimals.take scale).length = scale := by
      rw [List.length_take]
      omega
    have hpow : 10 ^ x.decimals.length = 10 ^ (x.decimals.drop scale).length * 10 ^ scale := by
      rw [← pow_add, List.length_drop, Nat.sub_add_cancel (by omega)]
    rw [hpow, htake, Nat.sub_self, Nat.pow_zero, Nat.mul_one, ← Nat.mul_assoc,
      Nat.mul_left_inj (by positivity)]
    generalize digitsValue (x.decimals.drop scale) = low at hlow ⊢
    generalize 10 ^ (x.decimals.drop scale).length = unit at hlow ⊢
    constructor
    · intro h
      have hhigh : n = high := by
        have hn : n * unit / unit = n := Nat.mul_div_cancel _ (by omega)
        rw [h, Nat.mul_add_div (by omega), Nat.div_eq_of_lt hlow, Nat.add_zero] at hn
        exact hn.symm
      subst hhigh
      exact ⟨rfl, by rw [Nat.mul_comm] at h; omega⟩
    · rintro ⟨rfl, rfl⟩
      rw [Nat.mul_comm, Nat.add_zero]

/-! ### The parser -/

theorem mem_unsignedText {x : Numeral} {c : Char} (h : c ∈ x.unsignedText) :
    isDigitChar c = true ∨ c = '.' := by
  have hwhole := List.all_eq_true.1 x.whole_digits
  have hdecimals := List.all_eq_true.1 x.fraction_digits
  unfold unsignedText at h
  cases hfraction : x.fraction with
  | none =>
    rw [hfraction, List.append_nil] at h
    exact .inl (hwhole c h)
  | some f =>
    rw [hfraction] at h hdecimals
    obtain h | h := List.mem_append.1 h
    · exact .inl (hwhole c h)
    · obtain rfl | h := List.mem_cons.1 h
      · exact .inr rfl
      · exact .inl (hdecimals c h)

theorem unsignedText_ne_nil (x : Numeral) : x.unsignedText ≠ [] := by
  have hsome := x.some_digit
  unfold unsignedText
  cases hfraction : x.fraction with
  | none =>
    rw [hfraction] at hsome
    exact hsome
  | some f => exact List.append_ne_nil_of_right_ne_nil _ (List.cons_ne_nil _ _)

/-- The digits do not begin with a sign. -/
theorem unsignedText_ne {x : Numeral} {s : Text} : x.unsignedText ≠ '-' :: s
    ∧ x.unsignedText ≠ '+' :: s := by
  constructor <;>
  · intro h
    have hmem := mem_unsignedText (x := x) (h ▸ List.mem_cons_self)
    obtain hc | hc := hmem <;> cases hc

theorem text_sign {x : Numeral} {s : Text} :
    (x.text = '-' :: s → x.sign = ['-'] ∧ s = x.unsignedText)
      ∧ (x.text = '+' :: s → x.sign ≠ ['-'] ∧ s = x.unsignedText)
      ∧ ((∀ s, x.text ≠ '-' :: s) → (∀ s, x.text ≠ '+' :: s) →
        x.sign ≠ ['-'] ∧ x.text = x.unsignedText) := by
  have hmem := x.sign_mem
  have hne := unsignedText_ne (x := x) (s := s)
  simp only [List.mem_cons, List.not_mem_nil, or_false] at hmem
  rw [text]
  obtain hsign | hsign | hsign := hmem <;> rw [hsign]
  · refine ⟨fun h => absurd h hne.1, fun h => absurd h hne.2, fun _ _ => ⟨by decide, rfl⟩⟩
  · refine ⟨fun h => ⟨rfl, (List.cons.inj h).2.symm⟩, fun h => ?_, fun h => absurd rfl (h _)⟩
    have := (List.cons.inj h).1
    contradiction
  · refine ⟨fun h => ?_, fun h => ⟨by decide, (List.cons.inj h).2.symm⟩,
      fun _ h => absurd rfl (h _)⟩
    have := (List.cons.inj h).1
    contradiction

theorem unsignedText_point (x : Numeral) :
    (splitOnce '.' x.unsignedText).getD (x.unsignedText, []) = (x.whole, x.decimals) := by
  have hpoint : '.' ∉ x.whole := not_mem_of_digits x.whole_digits rfl
  unfold unsignedText decimals
  cases x.fraction with
  | none =>
    rw [List.append_nil, splitOnce_eq_none hpoint]
    rfl
  | some f =>
    rw [splitOnce_append hpoint]
    rfl

theorem mem_text {x : Numeral} {c : Char} (h : c ∈ x.text) :
    (c = '-' ∨ c = '+') ∨ isDigitChar c = true ∨ c = '.' := by
  have hmem := x.sign_mem
  simp only [List.mem_cons, List.not_mem_nil, or_false] at hmem
  obtain h | h := List.mem_append.1 h
  · obtain hsign | hsign | hsign := hmem <;> rw [hsign] at h
    · cases h
    · exact .inl (.inl (List.mem_singleton.1 h))
    · exact .inl (.inr (List.mem_singleton.1 h))
  · exact .inr (mem_unsignedText h)

theorem trimmed_text (x : Numeral) (column expected : String) :
    trimmed (utf8 (String.ofList x.text)) column expected = .ok x.text := by
  have hspace : ∀ c ∈ x.text, isWhitespace c = false := by
    intro c hc
    obtain (rfl | rfl) | hc | rfl := mem_text hc
    · rfl
    · rfl
    · exact isWhitespace_of_isDigitChar hc
    · rfl
  rw [trimmed, fromUtf8_utf8]
  simp only [String.toList_ofList, trim_of_forall hspace]

/-- The digits make a number of 128 bits whenever the precision admits it. -/
theorem kept_eq (x : Numeral) (scale : ℕ) :
    (pushDigits 0 (x.whole ++ x.decimals.take scale)).bind
        (padZeros (scale - (x.decimals.take scale).length))
      = if x.kept scale < 2 ^ 127 then some (x.kept scale : ℤ) else none := by
  have hdigits : (x.whole ++ x.decimals.take scale).all isDigitChar := by
    rw [List.all_append, x.whole_digits, Bool.true_and, List.all_eq_true]
    exact fun c hc => List.all_eq_true.1 x.decimals_digits c (List.mem_of_mem_take hc)
  have hpush := pushDigits_eq hdigits 0 (by positivity)
  rw [Nat.zero_mul, Nat.zero_add] at hpush
  have hgrow : digitsValue (x.whole ++ x.decimals.take scale) ≤ x.kept scale :=
    Nat.le_mul_of_pos_right _ (by positivity)
  rw [Nat.cast_zero] at hpush
  rw [hpush]
  by_cases hlt : digitsValue (x.whole ++ x.decimals.take scale) < 2 ^ 127
  · rw [if_pos hlt]
    exact padZeros_eq _ _ hlt
  · rw [if_neg hlt, if_neg (by omega)]
    rfl

/-- The last steps: the digits behind the scale are zeros, and the others are
within the precision. -/
theorem kept_checked (x : Numeral) {precision scale : ℕ} (hprecision : precision ≤ 38)
    (column : String) (sign : ℤ → ℤ) :
    (if (x.decimals.drop scale).any (· ≠ '0') then .error (bad column "numeric")
      else match if x.kept scale < 2 ^ 127 then some (x.kept scale : ℤ) else none with
        | none => .error (bad column "numeric")
        | some n =>
          if 10 ^ precision ≤ n then .error (bad column "numeric") else .ok (some (sign n)))
      = if (x.decimals.drop scale).all (· = '0') ∧ x.kept scale < 10 ^ precision then
          (.ok (some (sign (x.kept scale))) : Except Error (Option ℤ))
        else .error (bad column "numeric") := by
  have hlimit : 10 ^ precision ≤ 10 ^ 38 := Nat.pow_le_pow_right (by omega) hprecision
  have hcast : (10 : ℤ) ^ precision ≤ x.kept scale ↔ 10 ^ precision ≤ x.kept scale := by
    exact_mod_cast Iff.rfl
  have hdrop : (x.decimals.drop scale).all (· = '0')
      = !(x.decimals.drop scale).any (· ≠ '0') := by
    rw [List.all_eq_not_any_not]
    simp only [decide_not]
  rw [hdrop]
  cases (x.decimals.drop scale).any (· ≠ '0') with
  | true => simp
  | false =>
    rw [if_neg Bool.false_ne_true]
    by_cases hkept : x.kept scale < 10 ^ precision
    · rw [if_pos (show x.kept scale < 2 ^ 127 by omega), if_pos ⟨rfl, hkept⟩]
      exact if_neg (by rw [hcast]; omega)
    · have hnot : ¬((!false) = true ∧ x.kept scale < 10 ^ precision) := fun h => hkept h.2
      rw [if_neg hnot]
      by_cases hfits : x.kept scale < 2 ^ 127
      · rw [if_pos hfits]
        exact if_pos (by rw [hcast]; omega)
      · rw [if_neg hfits]

/-- A numeral is accepted when the digits behind the scale are zeros and the
others are within the precision. -/
theorem parseDecimal_text (x : Numeral) {precision scale : ℕ} (hprecision : precision ≤ 38)
    (column : String) :
    parseDecimal (utf8 (String.ofList x.text)) precision scale column =
      if (x.decimals.drop scale).all (· = '0') ∧ x.kept scale < 10 ^ precision then
        .ok (some (if x.sign = ['-'] then -(x.kept scale : ℤ) else x.kept scale))
      else .error (bad column "numeric") := by
  have hnan : ¬x.text = "NaN".toList := by
    intro h
    have hmem : 'N' ∈ x.text := h ▸ List.mem_cons_self
    obtain (hsign | hsign) | hdigit | hpoint := mem_text hmem <;> contradiction
  have hexponent : (x.unsignedText.isEmpty
      || x.unsignedText.any fun c => c == 'e' || c == 'E') = false := by
    rw [Bool.or_eq_false_iff, List.isEmpty_eq_false_iff, List.any_eq_false]
    refine ⟨x.unsignedText_ne_nil, fun c hc h => ?_⟩
    have hletter : c = 'e' ∨ c = 'E' := by
      rwa [Bool.or_eq_true, beq_iff_eq, beq_iff_eq] at h
    obtain rfl | rfl := hletter <;> obtain hc | hc := mem_unsignedText hc <;> cases hc
  have hsome : (x.whole.isEmpty && x.decimals.isEmpty) = false := by
    have h := x.some_digit
    rw [Bool.and_eq_false_iff, List.isEmpty_eq_false_iff, List.isEmpty_eq_false_iff]
    by_contra hnone
    rw [not_or, not_not, not_not] at hnone
    exact h (by rw [hnone.1]; exact hnone.2)
  have hdigits : (!x.whole.all isDigitChar || !x.decimals.all isDigitChar) = false := by
    rw [x.whole_digits, x.decimals_digits]
    rfl
  have hscale : ¬(scale : ℤ) < 0 := by omega
  rw [parseDecimal, trimmed_text]
  simp only [if_neg hnan]
  split
  next s h =>
    obtain ⟨hsign, rfl⟩ := text_sign.1 h
    simp only [hexponent, x.unsignedText_point, hsome, hdigits, if_neg hscale, Int.toNat_natCast,
      kept_eq, if_pos hsign]
    exact x.kept_checked hprecision column Neg.neg
  next s h =>
    obtain ⟨hsign, rfl⟩ := text_sign.2.1 h
    simp only [hexponent, x.unsignedText_point, hsome, hdigits, if_neg hscale, Int.toNat_natCast,
      kept_eq, if_neg hsign]
    exact x.kept_checked hprecision column id
  next h h' =>
    obtain ⟨hsign, htext⟩ := (text_sign (s := [])).2.2 h h'
    simp only [htext, hexponent, x.unsignedText_point, hsome, hdigits, if_neg hscale,
      Int.toNat_natCast, kept_eq, if_neg hsign]
    exact x.kept_checked hprecision column id

theorem parseDecimal_unscaled {x : Numeral} {precision scale n : ℕ} (hprecision : precision ≤ 38)
    (h : x.Unscaled precision scale n) (column : String) :
    parseDecimal (utf8 (String.ofList x.text)) precision scale column =
      .ok (some (if x.sign = ['-'] then -(n : ℤ) else n)) := by
  obtain ⟨hlt, hvalue⟩ := h
  obtain ⟨rfl, hzeros⟩ := (x.kept_iff scale n).1 hvalue
  have hall : (x.decimals.drop scale).all (· = '0') = true := by simpa using hzeros
  rw [x.parseDecimal_text hprecision, if_pos ⟨hall, hlt⟩]

end Numeral

end PgDelta.Values
