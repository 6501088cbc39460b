import PgDelta.Types.Decimals
import Mathlib.Data.Rat.Cast.Order
import Mathlib.Tactic.FieldSimp

/-!
Which texts `parse_decimal` accepts, and what it computes from them.

A text is accepted when it is a numeral whose value is a whole number of the
column's smallest units, and fewer of them than the precision has room for; the
result is that number. `parseDecimalChecked` is the parser with the operations
that the source leaves to the machine made partial.
-/

namespace PgDelta.Values

open PgDelta.Lib

namespace Numeral

/-- The rational number that a numeral denotes. -/
def value (x : Numeral) : ℚ :=
  (if x.sign = ['-'] then -1 else 1) * (x.digits / 10 ^ x.decimals.length)

/-- The digits are a numeral, with the point where they are split. -/
theorem exists_of_digits {sign digits : Text} (hsign : sign ∈ [[], ['-'], ['+']])
    (hsome : (((splitOnce '.' digits).getD (digits, [])).1.isEmpty
      && ((splitOnce '.' digits).getD (digits, [])).2.isEmpty) = false)
    (hdigits : (!((splitOnce '.' digits).getD (digits, [])).1.all isDigitChar
      || !((splitOnce '.' digits).getD (digits, [])).2.all isDigitChar) = false) :
    ∃ x : Numeral, x.text = sign ++ digits := by
  rw [Bool.or_eq_false_iff, Bool.not_eq_false', Bool.not_eq_false'] at hdigits
  rw [Bool.and_eq_false_iff, List.isEmpty_eq_false_iff, List.isEmpty_eq_false_iff] at hsome
  cases hpoint : splitOnce '.' digits with
  | none =>
    rw [hpoint] at hsome hdigits
    have hne : digits ++ [] ≠ [] := by
      rw [List.append_nil]
      exact hsome.resolve_right fun h => h rfl
    refine ⟨⟨sign, digits, none, hsign, hdigits.1, rfl, hne⟩, ?_⟩
    simp [text, unsignedText]
  | some ab =>
    obtain ⟨a, b⟩ := ab
    rw [hpoint] at hsome hdigits
    obtain ⟨rfl, -⟩ := splitOnce_eq_some hpoint
    have hne : a ++ b ≠ [] := by
      rw [Ne, List.append_eq_nil_iff, not_and_or]
      exact hsome
    refine ⟨⟨sign, a, some b, hsign, hdigits.1, hdigits.2, hne⟩, ?_⟩
    simp [text, unsignedText]

end Numeral

theorem numeral_of_ok {v : Bytes} {precision : ℕ} {scale : ℤ} {column : String} {s : Text}
    {r : Option ℤ} (hs : trimmed v column "numeric" = .ok s) (hnan : s ≠ "NaN".toList)
    (h : parseDecimal v precision scale column = .ok r) : ∃ x : Numeral, x.text = s := by
  unfold parseDecimal at h
  simp only [hs, if_neg hnan] at h
  split at h
  next t =>
    split_ifs at h with hexponent hempty hdigits <;>
      exact @Numeral.exists_of_digits ['-'] t (by simp) (by simpa using hempty)
        (by simpa using hdigits)
  next t =>
    split_ifs at h with hexponent hempty hdigits <;>
      exact @Numeral.exists_of_digits ['+'] t (by simp) (by simpa using hempty)
        (by simpa using hdigits)
  next =>
    split_ifs at h with hexponent hempty hdigits <;>
      exact @Numeral.exists_of_digits [] s (by simp) (by simpa using hempty)
        (by simpa using hdigits)

/-- What a numeral is stored as, wherever it stands in white space. -/
theorem parseDecimal_numeral {v : Bytes} {column : String} {x : Numeral}
    (hs : trimmed v column "numeric" = .ok x.text) {precision scale : ℕ}
    (hprecision : precision ≤ 38) :
    parseDecimal v precision scale column =
      if (x.decimals.drop scale).all (· = '0') ∧ x.kept scale < 10 ^ precision then
        .ok (some (if x.sign = ['-'] then -(x.kept scale : ℤ) else x.kept scale))
      else .error (bad column "numeric") := by
  have hsame : parseDecimal v precision scale column
      = parseDecimal (utf8 (String.ofList x.text)) precision scale column := by
    unfold parseDecimal
    rw [hs, x.trimmed_text]
  rw [hsame, x.parseDecimal_text hprecision]

namespace Numeral

/-- The smallest units that make the value of a numeral without its sign. -/
theorem unsigned_iff (x : Numeral) (scale : ℕ) (n : ℤ) :
    (x.digits : ℚ) / 10 ^ x.decimals.length * 10 ^ scale = n
      ↔ n = x.kept scale ∧ (x.decimals.drop scale).all (· = '0') = true := by
  have hunit : (10 : ℚ) ^ x.decimals.length ≠ 0 := by positivity
  have hint : (x.digits : ℚ) / 10 ^ x.decimals.length * 10 ^ scale = n
      ↔ n * 10 ^ x.decimals.length = (x.digits : ℤ) * 10 ^ scale := by
    rw [div_mul_eq_mul_div, div_eq_iff hunit, eq_comm]
    exact_mod_cast Iff.rfl
  have hzeros : (x.decimals.drop scale).all (· = '0') = true
      ↔ ∀ c ∈ x.decimals.drop scale, c = '0' := by
    simp
  rw [hint, hzeros]
  obtain hneg | hpos := lt_or_ge n 0
  · have hleft : n * 10 ^ x.decimals.length < 0 := mul_neg_of_neg_of_pos hneg (by positivity)
    have hright : (0 : ℤ) ≤ (x.digits : ℤ) * 10 ^ scale := by positivity
    constructor
    · intro h
      omega
    · rintro ⟨h, -⟩
      omega
  · obtain ⟨m, rfl⟩ := Int.eq_ofNat_of_zero_le hpos
    exact_mod_cast x.kept_iff scale m

/-- The smallest units that make the value of a numeral. -/
theorem value_iff (x : Numeral) (scale : ℕ) (n : ℤ) :
    x.value * 10 ^ scale = n
      ↔ n = (if x.sign = ['-'] then -(x.kept scale : ℤ) else x.kept scale)
        ∧ (x.decimals.drop scale).all (· = '0') = true := by
  unfold value
  by_cases hsign : x.sign = ['-']
  · have hneg : -1 * ((x.digits : ℚ) / 10 ^ x.decimals.length) * 10 ^ scale = n
        ↔ (x.digits : ℚ) / 10 ^ x.decimals.length * 10 ^ scale = (-n : ℤ) := by
      rw [neg_one_mul, neg_mul, neg_eq_iff_eq_neg, Int.cast_neg]
    rw [if_pos hsign, if_pos hsign, hneg, x.unsigned_iff, neg_eq_iff_eq_neg]
  · rw [if_neg hsign, if_neg hsign, one_mul, x.unsigned_iff]

end Numeral

/-! ### What is accepted -/

/-- The text that is left of a value without the white space around it. -/
def TrimsTo (v : Bytes) (s : Text) : Prop := ∃ t, fromUtf8 v = some t ∧ trim t = s

theorem trimmed_ok_iff (v : Bytes) (column expected : String) (s : Text) :
    trimmed v column expected = .ok s ↔ TrimsTo v s := by
  unfold trimmed TrimsTo
  cases fromUtf8 v <;> simp

theorem parseDecimal_error {v : Bytes} {precision : ℕ} {scale : ℤ} {column : String} {e : Error}
    (h : parseDecimal v precision scale column = .error e) : e = bad column "numeric" := by
  unfold parseDecimal at h
  cases hs : trimmed v column "numeric" with
  | error e' =>
    simp only [hs] at h
    obtain rfl := Except.error.inj h
    unfold trimmed at hs
    split at hs
    · cases hs
    · exact (Except.error.inj hs).symm
  | ok s =>
    simp only [hs] at h
    repeat' split at h
    all_goals first
      | exact (Except.error.inj h).symm
      | cases h

theorem parseDecimal_none_iff (v : Bytes) {precision scale : ℕ} (hprecision : precision ≤ 38)
    (column : String) :
    parseDecimal v precision scale column = .ok none ↔ TrimsTo v "NaN".toList := by
  rw [← trimmed_ok_iff v column "numeric"]
  constructor
  · intro h
    cases hs : trimmed v column "numeric" with
    | error e => simp [parseDecimal, hs] at h
    | ok s =>
      by_contra hnan
      obtain ⟨x, rfl⟩ := numeral_of_ok hs (fun hnan' => hnan (by rw [hnan'])) h
      rw [parseDecimal_numeral hs hprecision] at h
      split_ifs at h <;> cases Except.ok.inj h
  · intro hs
    simp [parseDecimal, hs]

theorem Numeral.abs_signed (x : Numeral) (k : ℕ) :
    |if x.sign = ['-'] then -(k : ℤ) else k| = k := by
  split_ifs
  · rw [abs_neg, Nat.abs_cast]
  · rw [Nat.abs_cast]

theorem parseDecimal_some_iff (v : Bytes) {precision scale : ℕ} (hprecision : precision ≤ 38)
    (column : String) (n : ℤ) :
    parseDecimal v precision scale column = .ok (some n)
      ↔ ∃ x : Numeral, TrimsTo v x.text ∧ x.value * 10 ^ scale = n ∧ |n| < 10 ^ precision := by
  constructor
  · intro h
    cases hs : trimmed v column "numeric" with
    | error e => simp [parseDecimal, hs] at h
    | ok s =>
      have hnan : s ≠ "NaN".toList := by
        rintro rfl
        simp [parseDecimal, hs] at h
      obtain ⟨x, rfl⟩ := numeral_of_ok hs hnan h
      rw [parseDecimal_numeral hs hprecision] at h
      by_cases hfits : (x.decimals.drop scale).all (· = '0') = true ∧ x.kept scale < 10 ^ precision
      · rw [if_pos hfits] at h
        have hn := Option.some.inj (Except.ok.inj h)
        refine ⟨x, (trimmed_ok_iff v column "numeric" _).1 hs,
          (x.value_iff scale n).2 ⟨hn.symm, hfits.1⟩, ?_⟩
        rw [← hn, x.abs_signed]
        exact_mod_cast hfits.2
      · rw [if_neg hfits] at h
        cases h
  · rintro ⟨x, hs, hvalue, hlt⟩
    obtain ⟨rfl, hzeros⟩ := (x.value_iff scale n).1 hvalue
    rw [x.abs_signed] at hlt
    rw [parseDecimal_numeral ((trimmed_ok_iff v column "numeric" _).2 hs) hprecision]
    exact if_pos ⟨hzeros, by exact_mod_cast hlt⟩

/-! ### No operation overflows -/

def parseDecimalBy {β : Type} (v : Bytes) (scale : ℤ) (column : String) (raise : Error → β)
    (nan : β) (store : Bool → ℤ → β) : β :=
  match trimmed v column "numeric" with
  | .error e => raise e
  | .ok s =>
    if s = "NaN".toList then nan
    else
      let (negative, digits) :=
        match s with
        | '-' :: s => (true, s)
        | '+' :: s => (false, s)
        | s => (false, s)
      if digits.isEmpty || digits.any (fun c => c == 'e' || c == 'E') then
        raise (bad column "numeric")
      else
        let (whole, fraction) := (splitOnce '.' digits).getD (digits, [])
        if whole.isEmpty && fraction.isEmpty then raise (bad column "numeric")
        else if !whole.all isDigitChar || !fraction.all isDigitChar then
          raise (bad column "numeric")
        else if scale < 0 then raise (bad column "numeric")
        else
          let keep := fraction.take scale.toNat
          if (fraction.drop scale.toNat).any (· ≠ '0') then raise (bad column "numeric")
          else
            match (pushDigits 0 (whole ++ keep)).bind (padZeros (scale.toNat - keep.length)) with
            | none => raise (bad column "numeric")
            | some unscaled => store negative unscaled

theorem parseDecimal_eq_by (v : Bytes) (precision : ℕ) (scale : ℤ) (column : String) :
    parseDecimal v precision scale column = parseDecimalBy v scale column .error (.ok none)
      fun negative unscaled =>
        if 10 ^ precision ≤ unscaled then .error (bad column "numeric")
        else .ok (some (if negative then -unscaled else unscaled)) := rfl

def storeDecimalChecked (negative : Bool) (precision : ℕ) (column : String) (unscaled : ℤ) :
    Option (Except Error (Option ℤ)) :=
  (checkedI128 (10 ^ precision)).bind fun limit =>
    if limit ≤ unscaled then some (.error (bad column "numeric"))
    else if negative then (checkedI128 (-unscaled)).map fun n => .ok (some n)
    else some (.ok (some unscaled))

/-- `parse_decimal`, undefined where an operation on 128 bits that the source
does not check leaves them. -/
def parseDecimalChecked (v : Bytes) (precision : ℕ) (scale : ℤ) (column : String) :
    Option (Except Error (Option ℤ)) :=
  parseDecimalBy v scale column (fun e => some (.error e)) (some (.ok none))
    fun negative unscaled => storeDecimalChecked negative precision column unscaled

theorem checkedI128_some {n m : ℤ} (h : checkedI128 n = some m) : m = n ∧ n < 2 ^ 127 := by
  unfold checkedI128 at h
  split_ifs at h with hn
  exact ⟨(Option.some.inj h).symm, hn.2⟩

theorem pushDigits_bounds {s : Text} {n m : ℤ} (hn : 0 ≤ n ∧ n < 2 ^ 127)
    (h : pushDigits n s = some m) : 0 ≤ m ∧ m < 2 ^ 127 := by
  induction s generalizing n with
  | nil =>
    obtain rfl := Option.some.inj h
    exact hn
  | cons c s ih =>
    rw [pushDigits] at h
    cases hstep : (checkedI128 (n * 10)).bind fun n => checkedI128 (n + (c.toNat - 48 : ℕ)) with
    | none => simp [hstep] at h
    | some k =>
      simp only [hstep] at h
      obtain ⟨a, ha, hk⟩ := Option.bind_eq_some_iff.1 hstep
      obtain ⟨rfl, -⟩ := checkedI128_some ha
      obtain ⟨rfl, hlt⟩ := checkedI128_some hk
      exact ih ⟨by omega, hlt⟩ h

theorem padZeros_bounds {k : ℕ} {n m : ℤ} (hn : 0 ≤ n ∧ n < 2 ^ 127)
    (h : padZeros k n = some m) : 0 ≤ m ∧ m < 2 ^ 127 := by
  induction k generalizing n with
  | zero =>
    obtain rfl := Option.some.inj h
    exact hn
  | succ k ih =>
    rw [padZeros] at h
    cases hstep : checkedI128 (n * 10) with
    | none => simp [hstep] at h
    | some a =>
      simp only [hstep] at h
      obtain ⟨rfl, hlt⟩ := checkedI128_some hstep
      exact ih ⟨by omega, hlt⟩ h

theorem storeDecimalChecked_eq {precision : ℕ} (hprecision : precision ≤ 38) {unscaled : ℤ}
    (h : 0 ≤ unscaled ∧ unscaled < 2 ^ 127) (negative : Bool) (column : String) :
    storeDecimalChecked negative precision column unscaled =
      some (if 10 ^ precision ≤ unscaled then .error (bad column "numeric")
        else .ok (some (if negative then -unscaled else unscaled))) := by
  have hlimit : (10 : ℤ) ^ precision < 2 ^ 127 :=
    (pow_le_pow_right₀ (by norm_num) hprecision).trans_lt (by norm_num)
  have hpow : checkedI128 (10 ^ precision) = some (10 ^ precision) := by
    rw [checkedI128_of_lt (by positivity), if_pos hlimit]
  have hneg : checkedI128 (-unscaled) = some (-unscaled) :=
    if_pos ⟨neg_le_neg h.2.le, (neg_nonpos.2 h.1).trans_lt (by positivity)⟩
  rw [storeDecimalChecked, hpow, hneg, Option.bind_some]
  by_cases hle : 10 ^ precision ≤ unscaled
  · rw [if_pos hle, if_pos hle]
  · rw [if_neg hle, if_neg hle]
    cases negative with
    | true => rfl
    | false => rfl

/-- The unscaled value that reaches the last steps is a number of 128 bits. -/
theorem parseDecimalBy_map {α β : Type} (f : α → β) {v : Bytes} {scale : ℤ} {column : String}
    {raise : Error → α} {nan : α} {store : Bool → ℤ → α} {store' : Bool → ℤ → β}
    (h : ∀ negative unscaled, 0 ≤ unscaled ∧ unscaled < 2 ^ 127 →
      f (store negative unscaled) = store' negative unscaled) :
    f (parseDecimalBy v scale column raise nan store)
      = parseDecimalBy v scale column (fun e => f (raise e)) (f nan) store' := by
  unfold parseDecimalBy
  cases trimmed v column "numeric" with
  | error e => rfl
  | ok s =>
    dsimp only
    simp only [apply_ite f]
    split_ifs <;> try rfl
    split
    · rfl
    · next unscaled hsome =>
      obtain ⟨n, hpush, hpad⟩ := Option.bind_eq_some_iff.1 hsome
      exact h _ _ (padZeros_bounds (pushDigits_bounds ⟨le_rfl, by positivity⟩ hpush) hpad)

theorem parseDecimalChecked_eq (v : Bytes) {precision : ℕ} (hprecision : precision ≤ 38)
    (scale : ℤ) (column : String) :
    parseDecimalChecked v precision scale column
      = some (parseDecimal v precision scale column) := by
  rw [parseDecimal_eq_by, parseDecimalChecked]
  exact (parseDecimalBy_map some fun negative unscaled h =>
    (storeDecimalChecked_eq hprecision h negative column).symm).symm

/-- Exactly the numerals that the column can hold are accepted, each is stored
as its number of smallest units, and no operation on the way overflows. -/
theorem parse_decimal_exact (v : Bytes) {precision scale : ℕ} (hprecision : precision ≤ 38)
    (column : String) :
    (parseDecimal v precision scale column = .ok none ↔ TrimsTo v "NaN".toList)
      ∧ (∀ n : ℤ, parseDecimal v precision scale column = .ok (some n)
        ↔ ∃ x : Numeral, TrimsTo v x.text ∧ x.value * 10 ^ scale = n ∧ |n| < 10 ^ precision)
      ∧ (∀ e, parseDecimal v precision scale column = .error e → e = bad column "numeric")
      ∧ parseDecimalChecked v precision scale column
        = some (parseDecimal v precision scale column) :=
  ⟨parseDecimal_none_iff v hprecision column, parseDecimal_some_iff v hprecision column,
    fun _ => parseDecimal_error, parseDecimalChecked_eq v hprecision scale column⟩

theorem parse_decimal_exact_cents :
    ∃ x : Numeral, TrimsTo (ascii " -12.340") x.text ∧ x.value * 10 ^ 2 = (-1234 : ℤ)
      ∧ |(-1234 : ℤ)| < 10 ^ 5 :=
  ((@parse_decimal_exact (ascii " -12.340") 5 2 (by decide) "amount").2.1 (-1234)).1
    (by decide +kernel)

end PgDelta.Values
