import PgDelta.Anonymise.Texts
import PgDelta.Types.Exactness

/-!
Numbers with other digits in the place of theirs.

The parsers look at the digits of a number only for its value, so that as many
other digits are read as well, where the largest value of so many is in range.
-/

namespace PgDelta.Anonymise

open PgDelta.Lib PgDelta.Values PgDelta.Builders

/-! ### Texts but for their digits -/

def Redigit (c d : Char) : Prop := c = d ∨ (isDigitChar c = true ∧ isDigitChar d = true)

namespace Redigit

variable {c d : Char}

theorem isDigit (h : Redigit c d) : isDigitChar c = isDigitChar d := by
  rcases h with rfl | ⟨hc, hd⟩
  · rfl
  · rw [hc, hd]

theorem eq_of_not_digit (h : Redigit c d) (hc : isDigitChar c = false) : d = c := by
  rcases h with rfl | ⟨hc', -⟩
  · rfl
  · rw [hc] at hc'
    cases hc'

theorem eq_iff {x : Char} (h : Redigit c d) (hx : isDigitChar x = false) : c = x ↔ d = x := by
  rcases h with rfl | ⟨hc, hd⟩
  · rfl
  · constructor
    · rintro rfl
      rw [hc] at hx
      cases hx
    · rintro rfl
      rw [hd] at hx
      cases hx

theorem isSpace (h : Redigit c d) : isWhitespace c = isWhitespace d := by
  rcases h with rfl | ⟨hc, hd⟩
  · rfl
  · rw [isWhitespace_of_isDigitChar hc, isWhitespace_of_isDigitChar hd]

end Redigit

/-- Texts that are the same but for their digits. -/
abbrev Redigited : Text → Text → Prop := List.Forall₂ Redigit

namespace Redigited

variable {s u : Text}

theorem trim (h : Redigited s u) : Redigited (Lib.trim s) (Lib.trim u) := by
  have hstart : Redigited (trimStart s) (trimStart u) :=
    forall₂_dropWhile (R := Redigit) (fun _ _ => Redigit.isSpace) h
  have hend := forall₂_dropWhile (R := Redigit) (p := isWhitespace) (fun _ _ => Redigit.isSpace)
    (List.forall₂_reverse_iff.2 hstart)
  exact List.forall₂_reverse_iff.2 hend

theorem all_digits (h : Redigited s u) (hs : s.all isDigitChar = true) :
    u.all isDigitChar = true := by
  induction h with
  | nil => rfl
  | cons hcd h ih =>
      rw [List.all_cons, Bool.and_eq_true] at hs ⊢
      exact ⟨hcd.isDigit ▸ hs.1, ih hs.2⟩

theorem eq_of_no_digit (h : Redigited s u) (hs : ∀ c ∈ s, isDigitChar c = false) : u = s := by
  induction h with
  | nil => rfl
  | cons hcd h ih =>
      rw [hcd.eq_of_not_digit (hs _ List.mem_cons_self),
        ih fun c hc => hs c (List.mem_cons_of_mem _ hc)]

theorem ne_nil (h : Redigited s u) (hs : s ≠ []) : u ≠ [] := by
  cases h with
  | nil => exact absurd rfl hs
  | cons hcd h => exact List.cons_ne_nil _ _

theorem parseDigits (h : Redigited s u) {n : ℕ} (hs : Lib.parseDigits s = some n) :
    ∃ m, Lib.parseDigits u = some m := by
  obtain ⟨hne, hall, -⟩ := parseDigits_eq_some_iff.1 hs
  exact ⟨_, parseDigits_eq_some (h.ne_nil hne) (h.all_digits hall)⟩

end Redigited

/-! ### Integers -/

theorem countP_of_all {s : Text} (h : s.all isDigitChar = true) :
    s.countP isDigitChar = s.length :=
  List.countP_eq_length.2 (List.all_eq_true.1 h)

/-- Digits that are too few to leave the bounds, behind a sign or not. -/
theorem parseInt_short {lo hi : ℤ} {w : ℕ} (hlo : lo ≤ -10 ^ w) (hhi : (10 : ℤ) ^ w ≤ hi) {s : Text}
    (hne : s ≠ []) (hall : s.all isDigitChar = true) (hlen : s.length ≤ w) (negative : Bool) :
    ∃ n, parseInt lo hi (if negative then '-' :: s else s) = some n := by
  have hlt := (digitsValue_lt hall).trans_le (Nat.pow_le_pow_right (by omega) hlen)
  have hlt : (digitsValue s : ℤ) < 10 ^ w := by exact_mod_cast hlt
  rw [parseInt_signed hne hall, Option.filter_some]
  refine ⟨_, if_pos ?_⟩
  cases negative with
  | false => simpa using ⟨by omega, by omega⟩
  | true => simpa using ⟨by omega, by omega⟩

theorem parseInt_short_plus {lo hi : ℤ} {w : ℕ} (hlo : lo ≤ -10 ^ w) (hhi : (10 : ℤ) ^ w ≤ hi)
    {s : Text} (hne : s ≠ []) (hall : s.all isDigitChar = true) (hlen : s.length ≤ w) :
    ∃ n, parseInt lo hi ('+' :: s) = some n := by
  have hlt := (digitsValue_lt hall).trans_le (Nat.pow_le_pow_right (by omega) hlen)
  have hlt : (digitsValue s : ℤ) < 10 ^ w := by exact_mod_cast hlt
  have hlow : lo ≤ digitsValue s := by omega
  have hhigh : (digitsValue s : ℤ) ≤ hi := by omega
  exact ⟨digitsValue s, by simp [parseInt, parseDigits_eq_some hne hall, hlow, hhigh]⟩

theorem Redigited.parseInt {lo hi : ℤ} {w : ℕ} (hlo : lo ≤ -10 ^ w) (hhi : (10 : ℤ) ^ w ≤ hi)
    {s u : Text} (h : Redigited s u) (hcount : s.countP isDigitChar ≤ w) {n : ℤ}
    (hs : Lib.parseInt lo hi s = some n) : ∃ m, Lib.parseInt lo hi u = some m := by
  obtain ⟨-, -, t, hne, hall, hform⟩ := parseInt_cases hs
  have hsuffix : t <:+ s := by
    rcases hform with ⟨rfl, -⟩ | ⟨rfl | rfl, -⟩
    · exact List.suffix_cons _ _
    · exact List.suffix_cons _ _
    · exact List.suffix_rfl
  have hlen : t.length ≤ w := by
    rw [← countP_of_all hall]
    exact (hsuffix.sublist.countP_le).trans hcount
  have hsame : ∀ {t' : Text}, Redigited t t' →
      t' ≠ [] ∧ t'.all isDigitChar = true ∧ t'.length ≤ w :=
    fun ht => ⟨ht.ne_nil hne, ht.all_digits hall, by rwa [← ht.length_eq]⟩
  rcases hform with ⟨rfl, -⟩ | ⟨rfl | rfl, -⟩
  · obtain ⟨d, t', hd, ht, rfl⟩ := List.forall₂_cons_left_iff.1 h
    obtain rfl := hd.eq_of_not_digit (by decide)
    obtain ⟨hne', hall', hlen'⟩ := hsame ht
    exact parseInt_short hlo hhi hne' hall' hlen' true
  · obtain ⟨d, t', hd, ht, rfl⟩ := List.forall₂_cons_left_iff.1 h
    obtain rfl := hd.eq_of_not_digit (by decide)
    obtain ⟨hne', hall', hlen'⟩ := hsame ht
    exact parseInt_short_plus hlo hhi hne' hall' hlen'
  · obtain ⟨hne', hall', hlen'⟩ := hsame h
    exact parseInt_short hlo hhi hne' hall' hlen' false

/-! ### Floating-point numbers -/

theorem Redigited.parseExponent {s u : Text} (h : Redigited s u) {e : ℤ}
    (hs : Values.parseExponent s = some e) : ∃ e', Values.parseExponent u = some e' := by
  cases h with
  | nil => exact ⟨0, rfl⟩
  | @cons c d s u hcd h =>
      have hletter : (d = 'e' ∨ d = 'E') ↔ (c = 'e' ∨ c = 'E') := by
        rw [hcd.eq_iff (x := 'e') (by decide), hcd.eq_iff (x := 'E') (by decide)]
      simp only [Values.parseExponent] at hs ⊢
      split_ifs at hs with hc
      rw [if_pos (hletter.2 hc)]
      split at hs
      all_goals
        simp only [Option.bind_eq_bind, Option.pure_def, Option.map_bind, Option.bind_eq_some_iff,
          Function.comp_apply, Option.map_some, Option.some.injEq] at hs
        obtain ⟨n, hn, -⟩ := hs
      · obtain ⟨d', u, hd', hu, rfl⟩ := List.forall₂_cons_left_iff.1 h
        obtain rfl := hd'.eq_of_not_digit (by decide)
        obtain ⟨m, hm⟩ := Redigited.parseDigits hu hn
        exact ⟨_, by simp [hm]; rfl⟩
      · obtain ⟨d', u, hd', hu, rfl⟩ := List.forall₂_cons_left_iff.1 h
        obtain rfl := hd'.eq_of_not_digit (by decide)
        obtain ⟨m, hm⟩ := Redigited.parseDigits hu hn
        exact ⟨_, by simp [hm]; rfl⟩
      · obtain ⟨m, hm⟩ := Redigited.parseDigits h hn
        have hdigits := (parseDigits_eq_some_iff.1 hm).2.1
        split
        · exact absurd hdigits (by simp [isDigitChar])
        · exact absurd hdigits (by simp [isDigitChar])
        · exact ⟨_, by rw [hm]; rfl⟩

theorem not_digit_of_lower {c : Char} {w : String} (hw : ∀ d ∈ w.toList, isDigitChar d = false)
    (hc : toAsciiLower c ∈ w.toList) : isDigitChar c = false := by
  rw [Bool.eq_false_iff]
  intro hdigit
  have hbounds := isDigitChar_iff.1 hdigit
  have hsame : toAsciiLower c = c := by
    unfold toAsciiLower
    refine if_neg fun hupper => ?_
    have hle : 'A'.toNat ≤ c.toNat := hupper.1
    have hA : 'A'.toNat = 65 := rfl
    omega
  have hnot := hw _ hc
  rw [hsame, hdigit] at hnot
  cases hnot

/-- A name is free of digits. -/
theorem no_digit_of_name {s : Text} {w : String} (hw : ∀ d ∈ w.toList, isDigitChar d = false)
    (h : String.ofList (s.map toAsciiLower) = w) : ∀ c ∈ s, isDigitChar c = false := by
  intro c hc
  refine not_digit_of_lower hw ?_
  rw [← h, String.toList_ofList]
  exact List.mem_map_of_mem hc

/-- The digits behind a point at the front, and what follows them. -/
def pointParts (rest : Text) : Text × Text :=
  match rest with
  | '.' :: rest => (rest.takeWhile isDigitChar, rest.dropWhile isDigitChar)
  | rest => ([], rest)

theorem Redigited.pointParts {s u : Text} (h : Redigited s u) :
    Redigited (pointParts s).1 (pointParts u).1 ∧ Redigited (pointParts s).2 (pointParts u).2 := by
  cases h with
  | nil => exact ⟨.nil, .nil⟩
  | @cons c d s u hcd h =>
      by_cases hc : c = '.'
      · subst hc
        obtain rfl := hcd.eq_of_not_digit (by decide)
        exact ⟨forall₂_takeWhile (R := Redigit) (fun _ _ => Redigit.isDigit) h,
          forall₂_dropWhile (R := Redigit) (fun _ _ => Redigit.isDigit) h⟩
      · have hd : d ≠ '.' := fun hd => hc ((hcd.eq_iff (by decide)).2 hd)
        have hs : Anonymise.pointParts (c :: s) = ([], c :: s) := by
          simp [Anonymise.pointParts, hc]
        have hu : Anonymise.pointParts (d :: u) = ([], d :: u) := by
          simp [Anonymise.pointParts, hd]
        rw [hs, hu]
        exact ⟨.nil, .cons hcd h⟩

theorem parseUnsignedFloat_eq (negative : Bool) (s : Text) :
    parseUnsignedFloat negative s =
      let lower := String.ofList (s.map toAsciiLower)
      if lower = "inf" ∨ lower = "infinity" then some (.infinity negative)
      else if lower = "nan" then some .nan
      else
        let whole := s.takeWhile isDigitChar
        let parts := pointParts (s.dropWhile isDigitChar)
        if (whole ++ parts.1).isEmpty then none
        else
          (parseExponent parts.2).map fun e =>
            .decimal negative (digitsValue (whole ++ parts.1)) (e - parts.1.length) := rfl

theorem Redigited.parseUnsignedFloat {s u : Text} (h : Redigited s u) {negative : Bool}
    {x : FloatLiteral} (hs : Values.parseUnsignedFloat negative s = some x) :
    ∃ y, Values.parseUnsignedFloat negative u = some y := by
  by_cases hname : ∃ w ∈ ["inf", "infinity", "nan"], String.ofList (s.map toAsciiLower) = w
  · obtain ⟨w, hw, hlower⟩ := hname
    have hfree : ∀ d ∈ w.toList, isDigitChar d = false := by
      simp only [List.mem_cons, List.not_mem_nil, or_false] at hw
      rcases hw with rfl | rfl | rfl <;> simp [isDigitChar]
    rw [h.eq_of_no_digit (no_digit_of_name hfree hlower)]
    exact ⟨x, hs⟩
  · simp only [List.mem_cons, List.not_mem_nil, or_false, exists_eq_or_imp, exists_eq_left,
      not_or] at hname
    obtain ⟨hinf, hinfinity, hnan⟩ := hname
    have hwhole : Redigited (s.takeWhile isDigitChar) (u.takeWhile isDigitChar) :=
      forall₂_takeWhile (R := Redigit) (fun _ _ => Redigit.isDigit) h
    have hrest : Redigited (s.dropWhile isDigitChar) (u.dropWhile isDigitChar) :=
      forall₂_dropWhile (R := Redigit) (fun _ _ => Redigit.isDigit) h
    obtain ⟨hfraction, hexponent⟩ := hrest.pointParts
    have hempty : ∀ {a b : Text}, Redigited a b → a.isEmpty = b.isEmpty := fun hab => by
      cases hab <;> rfl
    rw [parseUnsignedFloat_eq] at hs ⊢
    simp only [hinf, hinfinity, hnan, or_self, if_false,
      hempty (List.rel_append hwhole hfraction)] at hs
    dsimp only
    split_ifs at hs ⊢ with hsome
    · exact ⟨_, rfl⟩
    · exact ⟨_, rfl⟩
    · obtain ⟨e, he, -⟩ := Option.map_eq_some_iff.1 hs
      obtain ⟨e', he'⟩ := hexponent.parseExponent he
      exact ⟨_, by rw [he']; rfl⟩

theorem Redigited.parseFloatLiteral {s u : Text} (h : Redigited s u) {x : FloatLiteral}
    (hs : Values.parseFloatLiteral s = some x) : ∃ y, Values.parseFloatLiteral u = some y := by
  cases h with
  | nil => exact ⟨x, hs⟩
  | @cons c d s u hcd h =>
      by_cases hminus : c = '-'
      · subst hminus
        obtain rfl := hcd.eq_of_not_digit (by decide)
        exact Redigited.parseUnsignedFloat h hs
      · by_cases hplus : c = '+'
        · subst hplus
          obtain rfl := hcd.eq_of_not_digit (by decide)
          exact Redigited.parseUnsignedFloat h hs
        · have hminus' : d ≠ '-' := fun hd => hminus ((hcd.eq_iff (by decide)).2 hd)
          have hplus' : d ≠ '+' := fun hd => hplus ((hcd.eq_iff (by decide)).2 hd)
          have hs : Values.parseUnsignedFloat false (c :: s) = some x := by
            simpa [Values.parseFloatLiteral, hminus, hplus] using hs
          obtain ⟨y, hy⟩ := Redigited.parseUnsignedFloat (.cons hcd h) hs
          exact ⟨y, by simpa [Values.parseFloatLiteral, hminus', hplus'] using hy⟩

/-! ### Decimals -/

/-- Other digits of a numeral make a numeral of the same widths. -/
theorem Redigited.numeral {x : Numeral} {u : Text} (h : Redigited x.text u) :
    ∃ y : Numeral, u = y.text ∧ y.whole.length = x.whole.length
      ∧ y.decimals.length = x.decimals.length := by
  obtain ⟨sign, rest, hsign, hrest, rfl⟩ := forall₂_append_left h
  have hfree : ∀ c ∈ x.sign, isDigitChar c = false := by
    have hmem := x.sign_mem
    simp only [List.mem_cons, List.not_mem_nil, or_false] at hmem
    rcases hmem with h | h | h <;> simp [h, isDigitChar]
  obtain rfl := Redigited.eq_of_no_digit hsign hfree
  obtain ⟨whole, tail, hwhole, htail, rfl⟩ := forall₂_append_left hrest
  have hwidth := hwhole.length_eq
  have hdigits := Redigited.all_digits hwhole x.whole_digits
  have hnil : x.whole = [] ↔ whole = [] := by
    rw [← List.length_eq_zero_iff, hwidth, List.length_eq_zero_iff]
  have hsome := x.some_digit
  cases hfraction : x.fraction with
  | none =>
      rw [hfraction] at htail hsome
      obtain rfl := List.forall₂_nil_left_iff.1 htail
      refine ⟨⟨x.sign, whole, none, x.sign_mem, hdigits, rfl, ?_⟩, rfl, hwidth.symm, ?_⟩
      · simpa [hnil] using hsome
      · simp [Numeral.decimals, hfraction]
  | some f =>
      have hfdigits := x.fraction_digits
      rw [hfraction] at htail hsome hfdigits
      obtain ⟨c, f', hc, hf, rfl⟩ := List.forall₂_cons_left_iff.1 htail
      obtain rfl := hc.eq_of_not_digit (by decide)
      have hfnil : f = [] ↔ f' = [] := by
        rw [← List.length_eq_zero_iff, hf.length_eq, List.length_eq_zero_iff]
      refine ⟨⟨x.sign, whole, some f', x.sign_mem, hdigits, Redigited.all_digits hf hfdigits, ?_⟩,
        rfl, hwidth.symm, ?_⟩
      · simpa [hnil, hfnil] using hsome
      · simpa [Numeral.decimals, hfraction] using hf.length_eq.symm

/-- A numeral that is narrow enough is within the precision, whatever its digits
are. -/
theorem Numeral.kept_narrow (x : Numeral) {precision scale : ℕ}
    (hwhole : x.whole.length + scale ≤ precision) (hdecimals : x.decimals.length ≤ scale) :
    (x.decimals.drop scale).all (· = '0') = true ∧ x.kept scale < 10 ^ precision := by
  constructor
  · rw [List.drop_of_length_le hdecimals]
    rfl
  · have hall : (x.whole ++ x.decimals).all isDigitChar = true := by
      rw [List.all_append, x.whole_digits, x.decimals_digits]
      rfl
    have hlt := digitsValue_lt hall
    rw [List.length_append] at hlt
    unfold Numeral.kept
    rw [List.take_of_length_le hdecimals]
    calc digitsValue (x.whole ++ x.decimals) * 10 ^ (scale - x.decimals.length)
        < 10 ^ (x.whole.length + x.decimals.length) * 10 ^ (scale - x.decimals.length) :=
          Nat.mul_lt_mul_of_pos_right hlt (by positivity)
      _ = 10 ^ (x.whole.length + scale) := by
          rw [← pow_add]
          congr 1
          omega
      _ ≤ 10 ^ precision := Nat.pow_le_pow_right (by omega) hwhole

/-! ### Values and their digits -/

def textOf (v : Bytes) : Text := (fromUtf8 v).getD []

/-- How many digits a value has, and how many of them stand in front of its
first point and behind it. -/
def digitCount (v : Bytes) : ℕ := (textOf v).countP isDigitChar

def wholeCount (v : Bytes) : ℕ := ((textOf v).takeWhile (· != '.')).countP isDigitChar

def fracCount (v : Bytes) : ℕ := ((textOf v).dropWhile (· != '.')).countP isDigitChar

/-- A text is what is left of it between white space. -/
theorem trim_split (t : Text) : ∃ a b, t = a ++ (trim t ++ b)
    ∧ (∀ c ∈ a, isWhitespace c = true) ∧ ∀ c ∈ b, isWhitespace c = true := by
  refine ⟨t.takeWhile isWhitespace, (trimStart t).rtakeWhile isWhitespace, ?_,
    fun c hc => List.mem_takeWhile_imp hc, fun c hc => List.mem_rtakeWhile_imp hc⟩
  have hend : trim t ++ (trimStart t).rtakeWhile isWhitespace = trimStart t :=
    List.rdropWhile_append_rtakeWhile
  rw [hend]
  exact (List.takeWhile_append_dropWhile).symm

theorem not_point_of_space {c : Char} (h : isWhitespace c = true) : (c != '.') = true := by
  rw [bne_iff_ne]
  rintro rfl
  exact absurd h (by decide)

/-- The digits of a value are those between the white space. -/
theorem TrimsTo.counts {v : Bytes} {s : Text} (h : TrimsTo v s) :
    s.countP isDigitChar ≤ digitCount v
      ∧ (s.takeWhile (· != '.')).countP isDigitChar ≤ wholeCount v
      ∧ (s.dropWhile (· != '.')).countP isDigitChar ≤ fracCount v := by
  obtain ⟨t, ht, rfl⟩ := h
  have htext : textOf v = t := by rw [textOf, ht, Option.getD_some]
  obtain ⟨a, b, hsplit, ha, -⟩ := trim_split t
  have hpoint : ∀ c ∈ a, (c != '.') = true := fun c hc => not_point_of_space (ha c hc)
  generalize trim t = s at hsplit ⊢
  rw [digitCount, wholeCount, fracCount, htext, hsplit]
  refine ⟨?_, ?_, ?_⟩
  · simp only [List.countP_append]
    omega
  · rw [List.takeWhile_append_of_pos hpoint, List.countP_append]
    have hprefix : (s.takeWhile (· != '.')).Sublist ((s ++ b).takeWhile (· != '.')) := by
      rw [List.takeWhile_append]
      split_ifs with hall
      · rw [(List.takeWhile_prefix (fun c : Char => c != '.')).eq_of_length hall]
        exact List.sublist_append_left _ _
      · exact List.Sublist.refl _
    exact hprefix.countP_le.trans (Nat.le_add_left _ _)
  · rw [List.dropWhile_append_of_pos hpoint]
    have hsub : (s.dropWhile (· != '.')).Sublist ((s ++ b).dropWhile (· != '.')) := by
      rw [List.dropWhile_append]
      split_ifs with hall
      · rw [List.isEmpty_iff.1 hall]
        exact List.nil_sublist _
      · exact List.sublist_append_left _ _
    exact hsub.countP_le

theorem Numeral.counts (x : Numeral) :
    (x.text.takeWhile (· != '.')).countP isDigitChar = x.whole.length
      ∧ (x.text.dropWhile (· != '.')).countP isDigitChar = x.decimals.length := by
  have hmem := x.sign_mem
  simp only [List.mem_cons, List.not_mem_nil, or_false] at hmem
  have hsign : (∀ c ∈ x.sign, (c != '.') = true) ∧ x.sign.countP isDigitChar = 0 := by
    rcases hmem with h | h | h <;> simp [h, isDigitChar]
  have hwhole : ∀ c ∈ x.whole, (c != '.') = true := fun c hc => by
    have hdigit := List.all_eq_true.1 x.whole_digits c hc
    rw [bne_iff_ne]
    rintro rfl
    exact absurd hdigit (by decide)
  have hdecimals := countP_of_all x.decimals_digits
  rw [Numeral.text, Numeral.unsignedText, List.takeWhile_append_of_pos hsign.1,
    List.takeWhile_append_of_pos hwhole, List.dropWhile_append_of_pos hsign.1,
    List.dropWhile_append_of_pos hwhole, List.countP_append, List.countP_append, hsign.2,
    countP_of_all x.whole_digits]
  cases hfraction : x.fraction with
  | none => simp [Numeral.decimals, hfraction]
  | some f =>
      rw [Numeral.decimals, hfraction, Option.getD_some] at hdecimals
      simp [Numeral.decimals, hfraction, hdecimals, isDigitChar]

/-! ### Columns of numbers -/

/-- The text that a column of numbers reads, white space taken off. -/
def ReadsNumber (kind : Kind) (s : Text) : Prop :=
  match kind with
  | .int16 => ∃ n, parseInt (-2 ^ 15) (2 ^ 15 - 1) s = some n
  | .int32 => ∃ n, parseInt (-2 ^ 31) (2 ^ 31 - 1) s = some n
  | .int64 => ∃ n, parseInt (-2 ^ 63) (2 ^ 63 - 1) s = some n
  | .float32 => ∃ x, parseFloatLiteral s = some x
  | .float64 => ∃ x, parseFloatLiteral s = some x
  | .decimal precision scale => s = "NaN".toList ∨
      ∃ x : Numeral, s = x.text ∧ 0 ≤ scale ∧ (x.decimals.drop scale.toNat).all (· = '0') = true
        ∧ x.kept scale.toNat < 10 ^ precision
  | _ => False

/-- A number of at most so many digits that any others could stand in their
place. -/
def Narrow (kind : Kind) (v : Bytes) : Prop :=
  match kind with
  | .int16 => digitCount v ≤ 4
  | .int32 => digitCount v ≤ 9
  | .int64 => digitCount v ≤ 18
  | .float32 => True
  | .float64 => True
  | .decimal precision scale =>
    wholeCount v + scale.toNat ≤ precision ∧ fracCount v ≤ scale.toNat
  | _ => False

/-- A decimal column that Arrow can hold. -/
def Held (kind : Kind) : Prop :=
  match kind with
  | .decimal precision _ => precision ≤ 38
  | _ => True

theorem parseBounded_iff (lo hi : ℤ) (expected : String) (v : Bytes) (column : String) :
    (∃ r, parseBounded lo hi expected v column = .ok r)
      ↔ ∃ s, TrimsTo v s ∧ ∃ n, parseInt lo hi s = some n := by
  simp only [← trimmed_ok_iff v column expected]
  unfold parseBounded
  cases hs : trimmed v column expected with
  | error e => simp
  | ok s => cases hn : parseInt lo hi s <;> simp [hn]

theorem parseFloating_iff {α : Type} (round : FloatLiteral → α) (expected : String) (v : Bytes)
    (column : String) :
    (∃ r, parseFloating round expected v column = .ok r)
      ↔ ∃ s, TrimsTo v s ∧ ∃ x, parseFloatLiteral s = some x := by
  simp only [← trimmed_ok_iff v column expected]
  unfold parseFloating
  cases hs : trimmed v column expected with
  | error e => simp
  | ok s => cases hx : parseFloatLiteral s <;> simp [hx]

theorem exists_map_ok {α β : Type*} {r : Except Error α} {f : α → β} :
    (∃ y, r.map f = .ok y) ↔ ∃ x, r = .ok x := by
  cases r with
  | error e => simp [Except.map]
  | ok x => simp [Except.map]

/-- No number has a negative scale. -/
theorem parseDecimal_negative {v : Bytes} {precision : ℕ} {scale : ℤ} {column : String} {s : Text}
    (hs : trimmed v column "numeric" = .ok s) (hnan : s ≠ "NaN".toList) (hscale : scale < 0)
    {r : Option ℤ} : parseDecimal v precision scale column ≠ .ok r := by
  intro h
  unfold parseDecimal at h
  simp only [hs, if_neg hnan, if_pos hscale] at h
  split_ifs at h

theorem parseDecimal_iff {precision : ℕ} (hprecision : precision ≤ 38) (scale : ℤ) (v : Bytes)
    (column : String) :
    (∃ r, parseDecimal v precision scale column = .ok r)
      ↔ ∃ s, TrimsTo v s ∧ ReadsNumber (.decimal precision scale) s := by
  simp only [← trimmed_ok_iff v column "numeric"]
  constructor
  · rintro ⟨r, hr⟩
    cases hs : trimmed v column "numeric" with
    | error e => simp [parseDecimal, hs] at hr
    | ok s =>
        refine ⟨s, rfl, ?_⟩
        by_cases hnan : s = "NaN".toList
        · exact .inl hnan
        · obtain ⟨x, rfl⟩ := numeral_of_ok hs hnan hr
          have hscale : 0 ≤ scale := not_lt.1 fun hneg => parseDecimal_negative hs hnan hneg hr
          obtain ⟨k, rfl⟩ := Int.eq_ofNat_of_zero_le hscale
          rw [parseDecimal_numeral hs hprecision] at hr
          by_cases hfits : (x.decimals.drop k).all (· = '0') = true ∧ x.kept k < 10 ^ precision
          · exact .inr ⟨x, rfl, hscale, hfits⟩
          · rw [if_neg hfits] at hr
            cases hr
  · rintro ⟨s, hs, rfl | ⟨x, rfl, hscale, hfits⟩⟩
    · exact ⟨none, by simp [parseDecimal, hs]⟩
    · obtain ⟨k, rfl⟩ := Int.eq_ofNat_of_zero_le hscale
      rw [parseDecimal_numeral hs hprecision]
      exact ⟨_, if_pos hfits⟩

def isNumber : Kind → Bool
  | .int16 | .int32 | .int64 | .float32 | .float64 | .decimal _ _ => true
  | _ => false

/-- What a column of numbers accepts. -/
theorem parse_number_iff {kind : Kind} (hkind : isNumber kind = true) (hheld : Held kind)
    (v : Bytes) (column : String) :
    (∃ r, kind.parse v column = .ok r) ↔ ∃ s, TrimsTo v s ∧ ReadsNumber kind s := by
  cases kind with
  | int16 => exact exists_map_ok.trans (parseBounded_iff _ _ _ v column)
  | int32 => exact exists_map_ok.trans (parseBounded_iff _ _ _ v column)
  | int64 => exact exists_map_ok.trans (parseBounded_iff _ _ _ v column)
  | float32 => exact exists_map_ok.trans (parseFloating_iff _ _ v column)
  | float64 => exact exists_map_ok.trans (parseFloating_iff _ _ v column)
  | decimal precision scale => exact exists_map_ok.trans (parseDecimal_iff hheld scale v column)
  | _ => cases hkind

/-! ### Other digits -/

/-- Other digits in the place of those of a narrow number. -/
theorem ReadsNumber.redigit {kind : Kind} {v : Bytes} {s u : Text} (hnarrow : Narrow kind v)
    (hs : TrimsTo v s) (h : Redigited s u) (hread : ReadsNumber kind s) : ReadsNumber kind u := by
  obtain ⟨hdigits, hwhole, hfrac⟩ := TrimsTo.counts hs
  cases kind with
  | int16 =>
      obtain ⟨n, hn⟩ := hread
      exact h.parseInt (w := 4) (by norm_num) (by norm_num) (hdigits.trans hnarrow) hn
  | int32 =>
      obtain ⟨n, hn⟩ := hread
      exact h.parseInt (w := 9) (by norm_num) (by norm_num) (hdigits.trans hnarrow) hn
  | int64 =>
      obtain ⟨n, hn⟩ := hread
      exact h.parseInt (w := 18) (by norm_num) (by norm_num) (hdigits.trans hnarrow) hn
  | float32 =>
      obtain ⟨x, hx⟩ := hread
      exact h.parseFloatLiteral hx
  | float64 =>
      obtain ⟨x, hx⟩ := hread
      exact h.parseFloatLiteral hx
  | decimal precision scale =>
      rcases hread with rfl | ⟨x, rfl, hscale, -, -⟩
      · exact .inl (h.eq_of_no_digit (by simp [isDigitChar]))
      · obtain ⟨y, rfl, hyw, hyf⟩ := h.numeral
        obtain ⟨hxw, hxf⟩ := Numeral.counts x
        have hfits : y.whole.length + scale.toNat ≤ precision := by
          have hle := hnarrow.1
          omega
        have hdecimals : y.decimals.length ≤ scale.toNat := by
          have hle := hnarrow.2
          omega
        exact .inr ⟨y, rfl, hscale, Numeral.kept_narrow y hfits hdecimals⟩
  | _ => exact hread

/-- A digit in front makes a plus sign superfluous. -/
theorem ReadsNumber.unsigned {kind : Kind} {c : Char} {s : Text} (hc : isDigitChar c = true)
    (h : ReadsNumber kind ('+' :: c :: s)) : ReadsNumber kind (c :: s) := by
  have hminus : c ≠ '-' := by
    rintro rfl
    cases hc
  have hplus : c ≠ '+' := by
    rintro rfl
    cases hc
  have hint : ∀ lo hi, parseInt lo hi ('+' :: c :: s) = parseInt lo hi (c :: s) := fun lo hi => by
    simp [parseInt, hminus, hplus]
  have hfloat : parseFloatLiteral ('+' :: c :: s) = parseFloatLiteral (c :: s) := by
    simp [parseFloatLiteral, hminus, hplus]
  cases kind with
  | int16 => exact h.imp fun n hn => (hint _ _).symm.trans hn
  | int32 => exact h.imp fun n hn => (hint _ _).symm.trans hn
  | int64 => exact h.imp fun n hn => (hint _ _).symm.trans hn
  | float32 => exact h.imp fun x hx => hfloat.symm.trans hx
  | float64 => exact h.imp fun x hx => hfloat.symm.trans hx
  | decimal precision scale =>
      rcases h with hnan | ⟨x, hx, hscale, hfits⟩
      · cases hnan
      · have hunsigned := (x.text_sign.2.1 hx.symm).2
        exact .inr ⟨{ x with sign := [], sign_mem := by simp }, hunsigned, hscale, hfits⟩
  | _ => exact h

/-! ### Values with other digits -/

/-- The same byte, or a digit for a digit. -/
def RedigitByte (x y : UInt8) : Prop := x = y ∨ (isAsciiDigit x = true ∧ isAsciiDigit y = true)

theorem lt_of_isAsciiDigit {x : UInt8} (h : isAsciiDigit x = true) : x < 128 := by
  have hbounds := isAsciiDigit_iff.1 h
  rw [UInt8.lt_iff_toNat_lt]
  exact lt_of_le_of_lt hbounds.2 (by decide)

theorem asciiOnly_redigitByte : AsciiOnly RedigitByte := by
  rintro x y (rfl | ⟨hx, hy⟩)
  · exact .inl rfl
  · exact .inr ⟨lt_of_isAsciiDigit hx, lt_of_isAsciiDigit hy⟩

theorem isDigitChar_of_byte {c : Char} (hc : c.toNat < 128)
    (h : isAsciiDigit c.toNat.toUInt8 = true) : isDigitChar c = true := by
  rw [isAsciiDigit_iff, show c.toNat.toUInt8.toNat = c.toNat from Nat.mod_eq_of_lt (by omega)] at h
  exact isDigitChar_iff.2 h

theorem Redigit.of_bytes {c d : Char} (h : OfBytes RedigitByte c d) : Redigit c d := by
  rcases h with rfl | ⟨hc, hd, hsame | ⟨hc', hd'⟩⟩
  · exact .inl rfl
  · refine .inl (Char.toNat_inj.1 ?_)
    have heq := congrArg UInt8.toNat hsame
    rwa [show c.toNat.toUInt8.toNat = c.toNat from Nat.mod_eq_of_lt (by omega),
      show d.toNat.toUInt8.toNat = d.toNat from Nat.mod_eq_of_lt (by omega)] at heq
  · exact .inr ⟨isDigitChar_of_byte hc hc', isDigitChar_of_byte hd hd'⟩

theorem trimsTo_redigit {v w : Bytes} {s : Text} (h : List.Forall₂ RedigitByte v w)
    (hs : TrimsTo v s) : ∃ u, TrimsTo w u ∧ Redigited s u := by
  obtain ⟨t, ht, rfl⟩ := hs
  rw [flatMap_of_fromUtf8 ht] at h
  obtain ⟨u, rfl, htu⟩ := text_of_forall₂ asciiOnly_redigitByte h
  have hsame : Redigited t u := htu.imp fun _ _ => Redigit.of_bytes
  exact ⟨trim u, ⟨u, fromUtf8_flatMap u, rfl⟩, hsame.trim⟩

/-- A narrow number with other digits is accepted again. -/
theorem parse_redigit {kind : Kind} (hkind : isNumber kind = true) (hheld : Held kind)
    {v w : Bytes} (h : List.Forall₂ RedigitByte v w) (hnarrow : Narrow kind v) {column : String}
    (hv : ∃ r, kind.parse v column = .ok r) : ∃ r, kind.parse w column = .ok r := by
  obtain ⟨s, hs, hread⟩ := (parse_number_iff hkind hheld v column).1 hv
  obtain ⟨u, hu, hsu⟩ := trimsTo_redigit h hs
  exact (parse_number_iff hkind hheld w column).2 ⟨u, hu, hread.redigit hnarrow hs hsu⟩

theorem trimEnd_cons {c : Char} (hc : isWhitespace c = false) (s : Text) :
    trimEnd (c :: s) = c :: trimEnd s := by
  unfold trimEnd List.rdropWhile
  rw [List.reverse_cons, List.dropWhile_append]
  split_ifs with hempty
  · rw [List.isEmpty_iff.1 hempty]
    simp [hc]
  · simp

theorem trim_cons {c : Char} (hc : isWhitespace c = false) (s : Text) :
    trim (c :: s) = c :: trimEnd s := by
  have hstart : trimStart (c :: s) = c :: s := by simp [trimStart, hc]
  rw [trim, hstart, trimEnd_cons hc]

theorem trimsTo_unsigned {d : UInt8} {v : Bytes} (hd : isAsciiDigit d = true) {s : Text}
    (hs : TrimsTo (43 :: d :: v) s) : ∃ c u, s = '+' :: c :: u ∧ isDigitChar c = true
      ∧ TrimsTo (d :: v) (c :: u) := by
  obtain ⟨t, ht, rfl⟩ := hs
  have hsign : (43 : UInt8) < 128 := by decide
  obtain ⟨t, rfl, hv⟩ := cons_of_flatMap hsign (flatMap_of_fromUtf8 ht)
  obtain ⟨t, rfl, rfl⟩ := cons_of_flatMap (lt_of_isAsciiDigit hd) hv
  have hplus : asciiChar 43 = '+' := by decide
  have hspace : isWhitespace '+' = false := by decide
  have hdigit : isDigitChar (asciiChar d) = true := by
    rw [isDigitChar_iff, toNat_asciiChar (lt_of_isAsciiDigit hd)]
    exact isAsciiDigit_iff.1 hd
  have hdigit' := isWhitespace_of_isDigitChar hdigit
  refine ⟨asciiChar d, trimEnd t, ?_, hdigit, asciiChar d :: t, ?_, trim_cons hdigit' t⟩
  · rw [hplus, trim_cons hspace, trimEnd_cons hdigit']
  · rw [hv]
    exact fromUtf8_flatMap _

/-- A plus sign in front of a digit may be left out. -/
theorem parse_unsigned {kind : Kind} (hkind : isNumber kind = true) (hheld : Held kind)
    {d : UInt8} {v : Bytes} (hd : isAsciiDigit d = true) {column : String}
    (hv : ∃ r, kind.parse (43 :: d :: v) column = .ok r) :
    ∃ r, kind.parse (d :: v) column = .ok r := by
  obtain ⟨s, hs, hread⟩ := (parse_number_iff hkind hheld _ column).1 hv
  obtain ⟨c, u, rfl, hc, hu⟩ := trimsTo_unsigned hd hs
  exact (parse_number_iff hkind hheld _ column).2 ⟨c :: u, hu, hread.unsigned hc⟩

end PgDelta.Anonymise
