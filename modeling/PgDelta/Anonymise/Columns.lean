import PgDelta.Anonymise.Hours
import PgDelta.Anonymise.Moments
import PgDelta.Types.Bytea

/-!
Which fields a column of one value still reads once they are replaced.

A value that is made up for its kind is read wherever that kind stands. A field
that is replaced byte by byte has to withstand it: its digits may be any others,
its letters are lost, and of its text only the characters outside ASCII are
sure to stay together.
-/

namespace PgDelta.Anonymise

open PgDelta.Lib PgDelta.Copy PgDelta.Values PgDelta.Builders

/-! ### Fields that stay -/

/-- Nothing in a field is replaced, were it replaced byte by byte. -/
def Untouched (raw : Bytes) : Prop := ∀ x ∈ loose raw, carriedByte x = some x

theorem Replaced.eq_of_untouched {a b : Bytes} (h : Replaced a b) (ha : Untouched a) : b = a := by
  induction h with
  | nil => rfl
  | stray => rfl
  | pair c h ih =>
      rw [Untouched, loose_pair] at ha
      rw [ih ha]
  | @byte x y a b hx hxy h ih =>
      rw [Untouched, loose_cons hx] at ha
      obtain rfl : y = x := (hxy.eq_iff (ha x List.mem_cons_self)).2 rfl
      rw [ih fun z hz => ha z (List.mem_cons_of_mem _ hz)]

/-! ### Text -/

def isSuperscript (x : UInt8) : Bool := isDigitByte x && !isAsciiDigit x

/-- The escapes of a text, which are ASCII in any digits. -/
def textSpelling : Spelling where
  leading c := c == 48 || c == 49 || c == 52 || c == 53
  pairs := false

theorem textSpelling_avoids : textSpelling.Avoids Wide where
  small n hn := by
    rw [Wide, UInt8.le_iff_toNat_le, show n.toUInt8.toNat = n from Nat.mod_eq_of_lt (by omega)]
    exact not_le.2 (hn.trans (by decide))
  octal c _ hc n hn := by
    have hlow : c.toNat - 48 ∈ [0, 1, 4, 5] := by
      simp only [textSpelling, Bool.or_eq_true, beq_iff_eq] at hc
      rcases hc with ((rfl | rfl) | rfl) | rfl <;> decide
    rw [Wide, UInt8.le_iff_toNat_le]
    generalize c.toNat - 48 = k at hlow ⊢
    have hmod : (((k * 64 + n) % 256).toUInt8).toNat = (k * 64 + n) % 256 :=
      Nat.mod_eq_of_lt (Nat.mod_lt _ (by decide))
    rw [hmod]
    have hwide : (128 : UInt8).toNat = 128 := rfl
    simp only [List.mem_cons, List.not_mem_nil, or_false] at hlow
    omega
  hex h := by cases h

theorem steadfast_wide {x : UInt8} (hx : isSuperscript x = false) : Steadfast Wide x := by
  have hsmall : ∀ {z : UInt8}, z.toNat ≤ 122 → ¬Wide z := fun hz hwide => by
    have hle := UInt8.le_iff_toNat_le.1 hwide
    have h128 : (128 : UInt8).toNat = 128 := rfl
    omega
  rintro y (⟨hdigit, hy⟩ | ⟨hlower, hy⟩ | ⟨hupper, hy⟩ | ⟨-, rfl⟩)
  · have hascii : isAsciiDigit x = true := by simpa [isSuperscript, hdigit] using hx
    have hbounds := isAsciiDigit_iff.1 hascii
    have hbounds' := isAsciiDigit_iff.1 hy
    exact .inr ⟨hsmall (by omega), hsmall (by omega)⟩
  · have hbounds := isLowerByte_iff.1 hlower
    have hbounds' := isLowerByte_iff.1 hy
    exact .inr ⟨hsmall (by omega), hsmall (by omega)⟩
  · have hbounds := isUpperByte_iff.1 hupper
    have hbounds' := isUpperByte_iff.1 hy
    exact .inr ⟨hsmall (by omega), hsmall (by omega)⟩
  · exact .inl rfl

theorem parse_utf8_iff (v : Bytes) (column : String) :
    (∃ r, Kind.utf8.parse v column = .ok r) ↔ ∃ t : Text, v = t.flatMap String.utf8EncodeChar := by
  simp only [Kind.parse]
  constructor
  · rintro ⟨r, hr⟩
    cases hv : fromUtf8 v with
    | none => simp [hv] at hr
    | some t => exact ⟨t, flatMap_of_fromUtf8 hv⟩
  · rintro ⟨t, rfl⟩
    rw [fromUtf8_flatMap]
    exact ⟨_, rfl⟩

/-! ### Byte strings -/

def IsBackslash (x : UInt8) : Prop := x = backslash

/-- Backslashes come in pairs. -/
inductive Doubled : Bytes → Prop
  | nil : Doubled []
  | pair {s : Bytes} : Doubled s → Doubled (backslash :: backslash :: s)
  | byte {c : UInt8} {s : Bytes} : c ≠ backslash → Doubled s → Doubled (c :: s)

namespace Doubled

theorem append {p s : Bytes} (hp : ∀ x ∈ p, x ≠ backslash) (h : Doubled s) : Doubled (p ++ s) := by
  induction p with
  | nil => exact h
  | cons x p ih =>
      exact .byte (hp x List.mem_cons_self) (ih fun z hz => hp z (List.mem_cons_of_mem _ hz))

theorem tail {c : UInt8} {s : Bytes} (hc : c ≠ backslash) (h : Doubled (c :: s)) : Doubled s := by
  cases h with
  | pair h => exact absurd rfl hc
  | byte hc h => exact h

theorem behind {p s : Bytes} (hp : ∀ x ∈ p, x ≠ backslash) (h : Doubled (p ++ s)) : Doubled s := by
  induction p with
  | nil => exact h
  | cons x p ih =>
      exact ih (fun z hz => hp z (List.mem_cons_of_mem _ hz)) (h.tail (hp x List.mem_cons_self))

theorem of_sameMarks {v w : Bytes} (hv : Doubled v) (h : SameMarks IsBackslash v w) :
    Doubled w := by
  induction hn : v.length using Nat.strong_induction_on generalizing v w with
  | h n ih =>
      cases hv with
      | nil =>
          generalize hv : ([] : Bytes) = v at h
          cases h with
          | nil => exact .nil
          | mark hx h => cases hv
          | run hs ht hsfree htfree h => exact absurd (List.append_eq_nil_iff.1 hv.symm).1 hs
      | @pair s hs =>
          rw [List.length_cons, List.length_cons] at hn
          have hmarks : ∀ x ∈ [backslash, backslash], IsBackslash x := by simp [IsBackslash]
          obtain ⟨w, rfl, hbehind⟩ := @SameMarks.of_marks _ [backslash, backslash] s w hmarks h
          exact .pair (ih _ (by omega) hs hbehind rfl)
      | @byte c s hc hs =>
          rw [List.length_cons] at hn
          obtain ⟨p, q, v, w, rfl, rfl, -, hp, hq, hbehind⟩ :=
            h.of_not_mark (show ¬IsBackslash c from hc)
          rw [List.length_append] at hn
          exact .append hq (ih _ (by omega) (hs.behind hp) hbehind rfl)

theorem escapedBytes {v : Bytes} (h : Doubled v) : ∃ b, Values.escapedBytes v = some b := by
  induction h with
  | nil => exact ⟨[], rfl⟩
  | pair h ih =>
      obtain ⟨b, hb⟩ := ih
      exact ⟨backslash :: b, by rw [escapedBytes_double, hb]; rfl⟩
  | @byte c s hc h ih =>
      obtain ⟨b, hb⟩ := ih
      exact ⟨c :: b, by rw [escapedBytes_literal hc, hb]; rfl⟩

/-- Such a byte string is not in the hexadecimal form, and it is read. -/
theorem parse {v : Bytes} (h : Doubled v) (column : String) :
    ∃ r, Kind.binary.parse v column = .ok r := by
  obtain ⟨b, hb⟩ := h.escapedBytes
  have hhex : (ascii "\\x").isPrefixOf v = false := by
    have hmark : ascii "\\x" = [backslash, 120] := by decide +kernel
    rw [hmark]
    cases h with
    | nil => rfl
    | pair h => rfl
    | byte hc h => simp [List.isPrefixOf, hc.symm]
  exact ⟨_, by simp [Kind.parse, parseBytea, hhex, hb]; rfl⟩

end Doubled

/-- The escapes of a byte string, which are no backslash in any digits. -/
def byteSpelling : Spelling where
  leading c := !(c == 49 || c == 53)
  pairs := true

theorem byteSpelling_avoids : byteSpelling.Avoids IsBackslash where
  small n hn := by
    rw [IsBackslash, ← UInt8.toNat_inj, show n.toUInt8.toNat = n from Nat.mod_eq_of_lt (by omega)]
    exact (hn.trans (by decide)).ne
  octal c hc hleading n hn := by
    have hbounds := isOctalDigit_iff.1 hc
    obtain ⟨hone, hfive⟩ : c.toNat ≠ 49 ∧ c.toNat ≠ 53 := by
      simp only [byteSpelling, Bool.not_eq_true', Bool.or_eq_false_iff, beq_eq_false_iff_ne, ne_eq,
        ← UInt8.toNat_inj] at hleading
      exact hleading
    have hmod : ((((c.toNat - 48) * 64 + n) % 256).toUInt8).toNat
        = ((c.toNat - 48) * 64 + n) % 256 :=
      Nat.mod_eq_of_lt (Nat.mod_lt _ (by decide))
    rw [IsBackslash, ← UInt8.toNat_inj, hmod]
    have hslash : backslash.toNat = 92 := rfl
    omega
  hex _ n hn m hm := by
    rw [IsBackslash, ← UInt8.toNat_inj,
      show (16 * n + m).toUInt8.toNat = 16 * n + m from Nat.mod_eq_of_lt (by omega)]
    have hslash : backslash.toNat = 92 := rfl
    omega

theorem steadfast_backslash (x : UInt8) : Steadfast IsBackslash x := by
  intro y h
  have heq : y = backslash ↔ x = backslash := h.eq_iff (by decide)
  by_cases hx : x = backslash
  · exact .inl ((heq.2 hx).trans hx.symm)
  · exact .inr ⟨hx, fun hy => hx (heq.1 hy)⟩

/-! ### Fields that are replaced byte by byte -/

/-- Of what is replaced in a field, there are digits alone. -/
def DigitsAlone (raw : Bytes) : Prop :=
  ∀ x ∈ loose raw, isAsciiDigit x = true ∨ carriedByte x = some x

/-- A field of the value `v` that a column reads whatever stands for its bytes. -/
def Withstands (type : Kind) (raw v : Bytes) : Prop :=
  match type with
  | .boolean => False
  | .date => False
  | .timestamp _ => False
  | .time => Literal raw ∧ DigitsAlone raw ∧ Brief v
  | .binary => (∀ e ∈ escapes raw, plainEscape byteSpelling e = true) ∧ Doubled v
  | .utf8 => (∀ e ∈ escapes raw, plainEscape textSpelling e = true)
      ∧ ∀ x ∈ loose raw, isSuperscript x = false
  | type => Literal raw ∧ DigitsAlone raw ∧ Narrow type v

/-- The digits of the value are exchanged where those of the field are. -/
theorem resolve_digitsAlone {a b v : Bytes} (h : Replaced a b) (hlit : Literal a)
    (hdigits : DigitsAlone a) (hv : resolve a = .ok v) :
    ∃ w, resolve b = .ok w ∧ List.Forall₂ RedigitByte v w := by
  obtain ⟨w, hw, hvw⟩ := resolve_replaced h hlit hdigits hv
  refine ⟨w, hw, hvw.imp fun x y hxy => ?_⟩
  rcases hxy with rfl | ⟨hstands, hascii | hkept⟩
  · exact .inl rfl
  · exact .inr ⟨hascii, hstands.digit (isDigitByte_of_ascii hascii)⟩
  · exact .inl ((hstands.eq_iff hkept).2 rfl).symm

theorem Withstands.parse {type : Kind} (hheld : Held type) {a b v : Bytes} {column : String}
    (ha : Withstands type a v) (h : Replaced a b) (hv : resolve a = .ok v)
    (hparse : ∃ r, type.parse v column = .ok r) :
    ∃ w, resolve b = .ok w ∧ ∃ r, type.parse w column = .ok r := by
  have hnumber : isNumber type = true → Literal a ∧ DigitsAlone a ∧ Narrow type v →
      ∃ w, resolve b = .ok w ∧ ∃ r, type.parse w column = .ok r := by
    rintro hnumber ⟨hlit, hdigits, hnarrow⟩
    obtain ⟨w, hw, hvw⟩ := resolve_digitsAlone h hlit hdigits hv
    exact ⟨w, hw, parse_redigit hnumber hheld hvw hnarrow hparse⟩
  cases type with
  | boolean => exact ha.elim
  | date => exact ha.elim
  | timestamp tz => exact ha.elim
  | time =>
      obtain ⟨hlit, hdigits, hbrief⟩ := ha
      obtain ⟨w, hw, hvw⟩ := resolve_digitsAlone h hlit hdigits hv
      have hread := parseTime_redigit hvw hbrief (exists_map_ok.1 hparse)
      exact ⟨w, hw, exists_map_ok.2 hread⟩
  | binary =>
      obtain ⟨hescapes, hdoubled⟩ := ha
      obtain ⟨w, hw, hvw⟩ := resolve_sameMarks byteSpelling_avoids h
        ⟨fun x _ => steadfast_backslash x, hescapes⟩ hv
      exact ⟨w, hw, (hdoubled.of_sameMarks hvw).parse column⟩
  | utf8 =>
      obtain ⟨hescapes, hsuper⟩ := ha
      obtain ⟨w, hw, hvw⟩ := resolve_sameMarks textSpelling_avoids h
        ⟨fun x hx => steadfast_wide (hsuper x hx), hescapes⟩ hv
      obtain ⟨t, rfl⟩ := (parse_utf8_iff v column).1 hparse
      exact ⟨w, hw, (parse_utf8_iff w column).2 (text_of_sameMarks hvw)⟩
  | int16 => exact hnumber rfl ha
  | int32 => exact hnumber rfl ha
  | int64 => exact hnumber rfl ha
  | float32 => exact hnumber rfl ha
  | float64 => exact hnumber rfl ha
  | decimal precision scale => exact hnumber rfl ha

/-! ### Fields of a kind -/

def isTextual (type : Kind) : Prop := type = .utf8 ∨ type = .binary

theorem resolve_printable {b : Bytes} (h : ∀ y ∈ b, Printable y) : resolve b = .ok b :=
  resolve_of_not_mem fun hmem => (h _ hmem).2.2 rfl

theorem parse_textual {type : Kind} (htype : isTextual type) {b : Bytes}
    (h : ∀ y ∈ b, Printable y) (column : String) : ∃ r, type.parse b column = .ok r := by
  rcases htype with rfl | rfl
  · refine (parse_utf8_iff b column).2 ⟨b.map asciiChar, (encode_ascii fun y hy => ?_).symm⟩
    rw [UInt8.lt_iff_toNat_lt]
    exact (h y hy).2.1.trans (by decide)
  · have hfree : ∀ y ∈ b, y ≠ backslash := fun y hy => (h y hy).2.2
    have hdoubled := Doubled.nil.append hfree
    rw [List.append_nil] at hdoubled
    exact hdoubled.parse column

theorem forall₂_redigit {a b : Bytes} (hlen : b.length = a.length)
    (ha : ∀ x ∈ a, isAsciiDigit x = true) (hb : ∀ y ∈ b, isAsciiDigit y = true) :
    List.Forall₂ RedigitByte a b := by
  rw [List.forall₂_iff_zip]
  refine ⟨hlen.symm, fun hmem => .inr ⟨?_, ?_⟩⟩
  · exact ha _ (List.of_mem_zip hmem).1
  · exact hb _ (List.of_mem_zip hmem).2

/-- A number keeps the widths of its parts, and its sign but for a plus. -/
theorem parse_number {type : Kind} (htype : isNumber type = true) (hheld : Held type)
    {x y : NumberForm} (hsign : y.sign = if x.sign = [45] then [45] else [])
    (hwhole : y.whole.length = x.whole.length) (hfrac : y.frac.length = x.frac.length)
    (hnarrow : Narrow type x.text) {column : String}
    (hparse : ∃ r, type.parse x.text column = .ok r) : ∃ r, type.parse y.text column = .ok r := by
  have htail : List.Forall₂ RedigitByte x.tail y.tail := by
    unfold NumberForm.tail
    by_cases h : x.frac = []
    · have h' : y.frac = [] := List.eq_nil_of_length_eq_zero (by simp [hfrac, h])
      rw [if_pos h, if_pos h']
      exact .nil
    · have h' : y.frac ≠ [] := fun h' => h (List.eq_nil_of_length_eq_zero (by simp [← hfrac, h']))
      rw [if_neg h, if_neg h']
      exact .cons (.inl rfl) (forall₂_redigit hfrac x.frac_digits y.frac_digits)
  have hbody : List.Forall₂ RedigitByte (x.whole ++ x.tail) (y.whole ++ y.tail) :=
    List.rel_append (forall₂_redigit hwhole x.whole_digits y.whole_digits) htail
  have hsame : ∀ {s : Bytes}, List.Forall₂ RedigitByte s s := fun {s} =>
    List.forall₂_same.2 fun x _ => .inl rfl
  have hread : ∃ r, type.parse (x.sign ++ (y.whole ++ y.tail)) column = .ok r :=
    parse_redigit htype hheld (List.rel_append (hsame (s := x.sign)) hbody) hnarrow hparse
  obtain ⟨d, whole, hd⟩ := List.exists_cons_of_ne_nil y.whole_ne
  have hdigit := y.whole_digits d (by simp [hd])
  rw [NumberForm.text, hsign]
  rcases x.sign_eq with h | h | h
  · rw [h] at hread ⊢
    exact hread
  · rw [h, hd] at hread
    rw [h, hd]
    exact parse_unsigned htype hheld hdigit hread
  · rw [h] at hread ⊢
    exact hread

def Suits (type : Kind) (raw : Bytes) : FieldKind → Prop
  | .boolean => isTextual type ∨ type = .boolean
  | .date => isTextual type ∨ type = .date ∨ type = .timestamp false
  | .timestamp => isTextual type ∨ ∃ tz, type = .timestamp tz
  | .number => isTextual type ∨ (isNumber type = true ∧ Narrow type raw)
  | .other => False

theorem parseBool_made {b : Bytes} (hb : b = [116] ∨ b = [102]) (column : String) :
    ∃ r, parseBool b column = .ok r := by
  have htrue : [116] ∈ [ascii "t", ascii "true", ascii "T"] := by decide +kernel
  have hfalse : [102] ∉ [ascii "t", ascii "true", ascii "T"] := by decide +kernel
  have hfalse' : [102] ∈ [ascii "f", ascii "false", ascii "F"] := by decide +kernel
  rcases hb with rfl | rfl
  · exact ⟨_, if_pos htrue⟩
  · exact ⟨some false, by rw [parseBool, if_neg hfalse, if_pos hfalse']⟩

/-- What is made up for a field is read in the columns that the field suits. -/
theorem Made.parse {noise : Noise} {kind : FieldKind} {type : Kind} (hheld : Held type)
    {a b v : Bytes} {column : String} (h : Made noise kind a b) (ha : Suits type a kind)
    (hv : resolve a = .ok v) (hparse : ∃ r, type.parse v column = .ok r) :
    ∃ r, type.parse b column = .ok r := by
  obtain ⟨-, hprintable⟩ := h.spec
  have htextual := fun htype => @parse_textual type htype b hprintable column
  cases h with
  | boolean ha' hb =>
      obtain htype | rfl : isTextual type ∨ type = .boolean := ha
      · exact htextual htype
      · rw [Kind.parse]
        exact exists_map_ok.2 (parseBool_made hb column)
  | date hlook =>
      obtain htype | rfl | rfl : isTextual type ∨ type = .date ∨ type = .timestamp false := ha
      · exact htextual htype
      · rw [Kind.parse]
        exact exists_map_ok.2 (parseDate_made noise column)
      · rw [Kind.parse]
        exact exists_map_ok.2 (parseTimestamp_date noise column)
  | timestamp hlook =>
      obtain htype | ⟨tz, rfl⟩ : isTextual type ∨ ∃ tz, type = .timestamp tz := ha
      · exact htextual htype
      · rw [Kind.parse]
        exact exists_map_ok.2 (parseTimestamp_made noise tz column)
  | number x y hsign hwhole hfrac =>
      obtain htype | ⟨htype, hnarrow⟩ :
        isTextual type ∨ (isNumber type = true ∧ Narrow type x.text) := ha
      · exact htextual htype
      · rw [resolve_printable x.printable] at hv
        obtain rfl := Except.ok.inj hv
        exact parse_number htype hheld hsign hwhole hfrac hnarrow hparse

/-- A field of the value `v` that a column reads whatever it is replaced by. -/
def Survives (type : Kind) (raw v : Bytes) : Prop :=
  Suits type raw (kind raw) ∨ (kind raw = .other ∧ (Untouched raw ∨ Withstands type raw v))

theorem Survives.parse {type : Kind} (hheld : Held type) {a v : Bytes} {column : String}
    (ha : Survives type a v) (hv : resolve a = .ok v) (hparse : ∃ r, type.parse v column = .ok r)
    (synth : Synth) (table : String) (place row : ℕ) :
    ∃ w, resolve (synth.field table place row a) = .ok w ∧ ∃ r, type.parse w column = .ok r := by
  obtain ⟨noise, hmade | ⟨hkind, hreplaced⟩⟩ := synth.field_cases table place row a
  · rcases ha with hsuits | ⟨hother, -⟩
    · exact ⟨_, resolve_printable hmade.spec.2, hmade.parse hheld hsuits hv hparse⟩
    · rw [hother] at hmade
      cases hmade
  · rcases ha with hsuits | ⟨-, huntouched | hwithstands⟩
    · rw [hkind] at hsuits
      exact hsuits.elim
    · rw [hreplaced.eq_of_untouched huntouched]
      exact ⟨v, hv, hparse⟩
    · exact hwithstands.parse hheld hreplaced hv hparse

end PgDelta.Anonymise
