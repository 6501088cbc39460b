import PgDelta.Lib.Numerals
import PgDelta.Types.Agreement

/-!
Declarations of `numeric` columns, and the Arrow type that each of them is
mapped to.
-/

namespace PgDelta.Types

open PgDelta.Lib PgDelta.Builders

/-! ### Declarations -/

/-- White space of any length. -/
structure Blank where
  text : Text
  white : ∀ c ∈ text, isWhitespace c = true

/-- An integer as it is written. -/
structure Literal where
  negative : Bool
  digits : Text
  nonempty : digits ≠ []
  all_digits : digits.all isDigitChar

namespace Literal

def text (n : Literal) : Text := if n.negative then '-' :: n.digits else n.digits

def value (n : Literal) : ℤ := (if n.negative then -1 else 1) * digitsValue n.digits

end Literal

/-- A parameter, with the white space around it. -/
structure Argument where
  left : Blank
  literal : Literal
  right : Blank

def Argument.text (a : Argument) : Text := a.left.text ++ (a.literal.text ++ a.right.text)

/-- A declaration with the precisions and scales that a server accepts, in any
case and spacing. -/
structure NumericDecl where
  before : Blank
  name : Text
  gap : Blank
  params : Option (Argument × Option Argument)
  after : Blank
  spelled : name.map toAsciiLower = "numeric".toList ∨ name.map toAsciiLower = "decimal".toList
  precision_pos : ∀ p s, params = some (p, s) → 1 ≤ p.literal.value
  scale_bounds : ∀ p s, params = some (p, some s) →
    -1000 ≤ s.literal.value ∧ s.literal.value ≤ 1000

namespace NumericDecl

/-- What stands between the parentheses. -/
def inner : Argument × Option Argument → Text
  | (p, none) => p.text
  | (p, some s) => p.text ++ ',' :: s.text

def body (d : NumericDecl) : Text :=
  match d.params with
  | none => d.name
  | some params => d.name ++ (d.gap.text ++ '(' :: (inner params ++ [')']))

def text (d : NumericDecl) : String :=
  String.ofList (d.before.text ++ (d.body ++ d.after.text))

/-- The precision and scale that are declared. An omitted scale is zero. -/
def declared (d : NumericDecl) : Option (ℤ × ℤ) :=
  d.params.map fun (p, s) => (p.literal.value, (s.map fun s => s.literal.value).getD 0)

/-- The type that a declaration maps to. -/
def target (d : NumericDecl) (wide : Bool) : DataType :=
  match d.declared with
  | none => if wide then .decimal128 38 18 else .utf8
  | some (p, s) =>
    if p ≤ 38 ∧ 0 ≤ s ∧ s ≤ p then .decimal128 p.toNat s
    else if wide ∧ 38 < p then .decimal128 38 18
    else .utf8

/-- The scale of a precision that a decimal can have fits a byte with a sign. -/
def ScaleFits (d : NumericDecl) : Prop :=
  ∀ p s, d.declared = some (p, s) → p ≤ 38 → -128 ≤ s ∧ s ≤ 127

end NumericDecl

/-! ### Reading the parameters -/

theorem parseNat_literal {n : Literal} (hpos : 1 ≤ n.value) :
    parseNat 255 n.text = if n.value ≤ 255 then some n.value.toNat else none := by
  have hsign : n.negative = false := by
    by_contra h
    rw [Bool.not_eq_false] at h
    simp only [Literal.value, h, if_true] at hpos
    omega
  have hvalue : n.value = digitsValue n.digits := by simp [Literal.value, hsign]
  have htext : n.text = n.digits := by simp [Literal.text, hsign]
  rw [htext, hvalue, parseNat_of_digits n.nonempty n.all_digits, Int.toNat_natCast]
  simp only [Nat.cast_le_ofNat]

theorem parseInt_literal (n : Literal) :
    parseInt (-128) 127 n.text = if -128 ≤ n.value ∧ n.value ≤ 127 then some n.value else none := by
  rw [Literal.text, parseInt_signed n.nonempty n.all_digits, Option.filter_some]
  simp only [decide_eq_true_eq]
  rfl

theorem Literal.mem_text {n : Literal} {c : Char} (h : c ∈ n.text) :
    isDigitChar c = true ∨ c = '-' := by
  have hdigits : c ∈ n.digits → isDigitChar c = true := List.all_eq_true.1 n.all_digits c
  unfold Literal.text at h
  split_ifs at h
  · obtain rfl | h := List.mem_cons.1 h
    · exact .inr rfl
    · exact .inl (hdigits h)
  · exact .inl (hdigits h)

theorem Argument.trim_text (a : Argument) : trim a.text = a.literal.text := by
  rw [Argument.text, trim_blanks a.left.white a.right.white]
  refine trim_of_forall fun c hc => ?_
  obtain h | rfl := Literal.mem_text hc
  · exact isWhitespace_of_isDigitChar h
  · rfl

/-- Parameters have no characters but digits, signs and white space. -/
theorem Argument.not_mem_text (a : Argument) {c : Char} (hwhite : isWhitespace c = false)
    (hdigit : isDigitChar c = false) (hsign : c ≠ '-') : c ∉ a.text := by
  intro h
  rw [Argument.text, List.mem_append, List.mem_append] at h
  obtain h | h | h := h
  · rw [a.left.white c h] at hwhite
    cases hwhite
  · obtain h | h := Literal.mem_text h
    · rw [h] at hdigit
      cases hdigit
    · exact hsign h
  · rw [a.right.white c h] at hwhite
    cases hwhite

namespace NumericDecl

/-- A precision of more than a byte is discarded with its scale; a scale of
more than a byte is taken for zero. -/
theorem numericParams_inner {d : NumericDecl} {params : Argument × Option Argument} {p s : ℤ}
    (hparams : d.params = some params) (hdeclared : d.declared = some (p, s)) :
    numericParams (inner params) =
      if p ≤ 255 then (some p.toNat, some (if -128 ≤ s ∧ s ≤ 127 then s else 0))
      else (none, none) := by
  obtain ⟨a, b⟩ := params
  rw [declared, hparams] at hdeclared
  cases hdeclared
  have hcomma : ',' ∉ a.text := a.not_mem_text rfl rfl (by decide)
  have hprecision : parseNat 255 (trim a.text)
      = if a.literal.value ≤ 255 then some a.literal.value.toNat else none := by
    rw [a.trim_text, parseNat_literal (d.precision_pos a b hparams)]
  cases b with
  | none =>
    simp only [numericParams, inner, splitAll_of_not_mem hcomma, List.head?_cons, Option.bind_some,
      hprecision]
    split_ifs <;> rfl
  | some b =>
    have hcomma' : ',' ∉ b.text := b.not_mem_text rfl rfl (by decide)
    simp only [numericParams, inner, splitAll_append hcomma, splitAll_of_not_mem hcomma',
      List.head?_cons, List.tail_cons, Option.bind_some, hprecision, b.trim_text, parseInt_literal,
      Option.map_some, Option.getD_some]
    split_ifs <;> rfl

end NumericDecl

/-! ### Reading the name -/

/-- Letters are what the lower case of a letter can come from. -/
theorem letter_of_toAsciiLower {c : Char} (h : 'a' ≤ toAsciiLower c ∧ toAsciiLower c ≤ 'z') :
    65 ≤ c.toNat ∧ c.toNat ≤ 90 ∨ 97 ≤ c.toNat ∧ c.toNat ≤ 122 := by
  unfold toAsciiLower at h
  split_ifs at h with hc
  · exact .inl hc
  · exact .inr h

theorem normaliseLoop_word {w : Text} (h : ∀ c ∈ w, isWhitespace c = false) (out : Text) :
    normaliseLoop false out w = out ++ w.map toAsciiLower := by
  induction w generalizing out with
  | nil => rw [normaliseLoop, List.map_nil, List.append_nil]
  | cons c w ih =>
    have hc := h c List.mem_cons_self
    rw [normaliseLoop, hc, if_neg Bool.false_ne_true]
    simp only [Bool.false_and, Bool.false_eq_true, if_false]
    rw [ih fun d hd => h d (List.mem_cons_of_mem _ hd), List.map_cons, List.append_assoc]
    rfl

theorem normalise_word {w blank : Text} (h : ∀ c ∈ w, isWhitespace c = false)
    (hblank : ∀ c ∈ blank, isWhitespace c = true) :
    normalise (w ++ blank) = String.ofList (w.map toAsciiLower) := by
  have htrim : trim (w ++ blank) = w := by
    rw [← List.nil_append (w ++ blank), trim_blanks (by simp) hblank, trim_of_forall h]
  rw [normalise, htrim, normaliseLoop_word h, List.nil_append]

theorem pgType_numeric {name : String} (h : name = "numeric" ∨ name = "decimal") (params : Text) :
    pgType name params
      = some (.numeric (numericParams params).1 (numericParams params).2) := by
  obtain rfl | rfl := h <;> simp [pgType]

namespace NumericDecl

theorem lower_name (d : NumericDecl) :
    String.ofList (d.name.map toAsciiLower) = "numeric"
      ∨ String.ofList (d.name.map toAsciiLower) = "decimal" := by
  obtain h | h := d.spelled
  · exact .inl (by rw [h, String.ofList_toList])
  · exact .inr (by rw [h, String.ofList_toList])

theorem mem_name {d : NumericDecl} {c : Char} (h : c ∈ d.name) :
    65 ≤ c.toNat ∧ c.toNat ≤ 90 ∨ 97 ≤ c.toNat ∧ c.toNat ≤ 122 := by
  have hletters : ∀ e ∈ d.name.map toAsciiLower, 'a' ≤ e ∧ e ≤ 'z' := by
    obtain h | h := d.spelled <;>
      simp [h]
  exact letter_of_toAsciiLower (hletters _ (List.mem_map_of_mem h))

theorem name_not_white {d : NumericDecl} {c : Char} (h : c ∈ d.name) : isWhitespace c = false := by
  have hc := mem_name h
  simp only [isWhitespace, Bool.or_eq_false_iff, Bool.and_eq_false_iff, decide_eq_false_iff_not,
    beq_eq_false_iff_ne]
  omega

theorem name_ne_nil (d : NumericDecl) : d.name ≠ [] := by
  intro h
  have := d.spelled
  simp [h] at this

theorem head_body (d : NumericDecl) : d.body.head? = d.name.head? := by
  unfold body
  split
  · rfl
  · rw [List.head?_append]
    cases h : d.name.head? with
    | none => exact absurd (List.head?_eq_none_iff.1 h) d.name_ne_nil
    | some c => rfl

theorem last_body {d : NumericDecl} {c : Char} (h : c ∈ d.body.getLast?) :
    c = ')' ∨ c ∈ d.name := by
  unfold body at h
  split at h
  · exact .inr (List.mem_of_getLast? h)
  · simp only [List.getLast?_append, List.getLast?_cons] at h
    simp at h
    exact .inl h.symm

/-- The white space around a declaration is all that is taken off it. -/
theorem trim_body (d : NumericDecl) : trim d.body = d.body ∧ trimEnd d.body = d.body := by
  have hhead : ∀ c ∈ d.body.head?, isWhitespace c = false := by
    intro c hc
    rw [head_body] at hc
    exact name_not_white (List.mem_of_mem_head? hc)
  have hlast : ∀ c ∈ d.body.getLast?, isWhitespace c = false := by
    intro c hc
    obtain rfl | h := last_body hc
    · rfl
    · exact name_not_white h
  exact ⟨trim_of_ends hhead hlast, trimEnd_of_last hlast⟩

theorem splitParams_body (d : NumericDecl) : ∃ blank : Text,
    (∀ c ∈ blank, isWhitespace c = true)
      ∧ splitParams d.body = (d.name ++ blank, (d.params.map inner).getD []) := by
  have hopen : '(' ∉ d.name := fun h => absurd (mem_name h) (by decide)
  unfold splitParams body
  cases h : d.params with
  | none => exact ⟨[], by simp, by simp [splitOnce_eq_none hopen]⟩
  | some params =>
    obtain ⟨p, s⟩ := params
    have hopen' : '(' ∉ d.name ++ d.gap.text := by
      rw [List.mem_append, not_or]
      exact ⟨hopen, fun h => by cases d.gap.white _ h⟩
    have hclose : ')' ∉ inner (p, s) := by
      have hp : ')' ∉ p.text := p.not_mem_text rfl rfl (by decide)
      cases s with
      | none => exact hp
      | some s =>
        have hs : ')' ∉ s.text := s.not_mem_text rfl rfl (by decide)
        simp [inner, hp, hs]
    refine ⟨d.gap.text ++ [' '], fun c hc => ?_, ?_⟩
    · obtain hc | hc := List.mem_append.1 hc
      · exact d.gap.white c hc
      · rw [List.mem_singleton.1 hc]
        rfl
    · simp only [← List.append_assoc]
      rw [splitOnce_append hopen']
      simp only [splitOnce_append hclose]
      simp

/-- A declaration resolves to a `numeric` with the parameters that are read. -/
theorem resolve_text (d : NumericDecl) :
    (resolve d.text).isArray = false ∧ (resolve d.text).pg =
      .numeric (numericParams ((d.params.map inner).getD [])).1
        (numericParams ((d.params.map inner).getD [])).2 := by
  obtain ⟨blank, hblank, hsplit⟩ := d.splitParams_body
  have htrim : trim d.text.toList = d.body := by
    rw [text, String.toList_ofList, trim_blanks d.before.white d.after.white, d.trim_body.1]
  have hsuffix : stripArraySuffix d.body = (d.body, 0) := by
    have hlast : d.body.getLast? ≠ some ']' := by
      intro h
      obtain h | h := last_body h
      · cases h
      · exact absurd (mem_name h) (by decide)
    rw [stripArraySuffix, d.trim_body.2, stripArraySuffixLoop, if_neg hlast]
  have hname : normalise (d.name ++ blank) = String.ofList (d.name.map toAsciiLower) :=
    normalise_word (fun c hc => name_not_white hc) hblank
  have hpg := pgType_numeric d.lower_name ((d.params.map inner).getD [])
  simp only [resolve, htrim, hsuffix, hsplit, hname, hpg]
  exact ⟨rfl, rfl⟩

/-- The type of a declaration, in a column that is no array. -/
theorem arrowType_text {d : NumericDecl} {precision : Option ℕ} {scale : Option ℤ}
    (h : numericParams ((d.params.map inner).getD []) = (precision, scale)) (wide native : Bool) :
    arrowType (resolve d.text) wide native =
      if wide && numericTooWide precision then .decimal128 38 18
      else if decimalFits precision scale then .decimal128 (precision.getD 38) (scale.getD 0)
      else .utf8 := by
  obtain ⟨harray, hpg⟩ := d.resolve_text
  rw [h] at hpg
  have htextual : (resolve d.text).isTextual = !decimalFits precision scale := by
    simp [ResolvedType.isTextual, harray, hpg]
  rw [arrowType, if_neg (by simp [harray]), scalarType]
  simp only [hpg, htextual]
  cases decimalFits precision scale <;> rfl

/-- A declaration is mapped as it says, unless its precision suits a decimal and
its scale is too large for a byte. -/
theorem numeric_mapped_iff (d : NumericDecl) (wide native : Bool) :
    arrowType (resolve d.text) wide native = d.target wide ↔ d.ScaleFits := by
  cases hparams : d.params with
  | none =>
    have hdeclared : d.declared = none := by rw [declared, hparams]; rfl
    have hread : numericParams ((d.params.map inner).getD []) = (none, none) := by
      rw [hparams]
      decide +kernel
    rw [arrowType_text hread, target, ScaleFits, hdeclared]
    cases wide <;> simp [numericTooWide, decimalFits]
  | some params =>
    obtain ⟨p, s, hdeclared, hp⟩ : ∃ (p : ℕ) (s : ℤ), d.declared = some (↑p, s) ∧ 1 ≤ p := by
      have hpos := d.precision_pos _ _ hparams
      refine ⟨params.1.literal.value.toNat,
        (params.2.map fun s => s.literal.value).getD 0, ?_, by omega⟩
      rw [declared, hparams, Int.toNat_of_nonneg (by omega)]
      rfl
    have hread := numericParams_inner hparams hdeclared
    rw [← Option.getD_some (a := inner params) (b := []), ← Option.map_some, ← hparams] at hread
    have hmax : maxDecimalPrecision = 38 := rfl
    have hfits : d.ScaleFits ↔ ((p : ℤ) ≤ 38 → -128 ≤ s ∧ s ≤ 127) := by
      simp [ScaleFits, hdeclared]
    rw [target, hdeclared, hfits]
    by_cases hbyte : (p : ℤ) ≤ 255
    · rw [if_pos hbyte, Int.toNat_natCast] at hread
      rw [arrowType_text hread]
      simp only [numericTooWide, decimalFits, Option.all_some, hmax, Option.getD_some]
      by_cases hp' : p ≤ 38
      · have hnarrow : ¬38 < p := by omega
        by_cases hs : -128 ≤ s ∧ s ≤ 127
        · simp [hs, hp, hp', hnarrow]
        · have hout : ¬(0 ≤ s ∧ s ≤ (p : ℤ)) := by omega
          simp [hs, hp, hp', hnarrow, hout]
      · have hwide : 38 < p := by omega
        simp [hp', hwide]
    · rw [if_neg hbyte] at hread
      have hwide : ¬p ≤ 38 ∧ 38 < p := by omega
      rw [arrowType_text hread]
      simp [numericTooWide, decimalFits, hwide]

/-- Five digits, the first of them two hundred places behind the point. -/
def tiny : NumericDecl where
  before := ⟨[], by simp⟩
  name := "numeric".toList
  gap := ⟨[], by simp⟩
  params := some (⟨⟨[], by simp⟩, ⟨false, ['5'], by simp, rfl⟩, ⟨[], by simp⟩⟩,
    some ⟨⟨[], by simp⟩, ⟨false, "200".toList, by decide, rfl⟩, ⟨[], by simp⟩⟩)
  after := ⟨[], by simp⟩
  spelled := .inl (by decide)
  precision_pos := by
    rintro p s ⟨⟩
    decide
  scale_bounds := by
    rintro p s ⟨⟩
    decide

theorem numeric_mapped_counterexample :
    tiny.text = "numeric(5,200)" ∧ arrowType (resolve tiny.text) false false = .decimal128 5 0
      ∧ tiny.target false = .utf8 := by
  decide +kernel

end NumericDecl

end PgDelta.Types
