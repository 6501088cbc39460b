import PgDelta.Lib.Radix
import PgDelta.Types.Values

/-!
The two output formats of `bytea`.

`hexForm` and `escapeForm` are the writer's side. `EscapeText` says which texts
are in the escape form at all, and what they stand for, whoever wrote them.
-/

namespace PgDelta.Values

open PgDelta.Lib

/-! ### The hex form -/

/-- The hexadecimal digit of a number below sixteen, as a letter of either
case. -/
def hexChar (upper : Bool) (n : ℕ) : UInt8 :=
  if n < 10 then (48 + n).toUInt8 else ((if upper then 55 else 87) + n).toUInt8

/-- The bytes as pairs of digits. With each byte go the cases of its digits. -/
def hexForm (bs : List (UInt8 × Bool × Bool)) : Bytes :=
  ascii "\\x" ++ bs.flatMap fun (b, upper, upper') =>
    [hexChar upper (b.toNat / 16), hexChar upper' (b.toNat % 16)]

def IsHexChar (c : UInt8) : Prop := ∃ upper, ∃ n < 16, c = hexChar upper n

theorem hexVal_hexChar (upper : Bool) {n : ℕ} (h : n < 16) :
    hexVal (hexChar upper n) = some n.toUInt8 := by
  have hall : ∀ upper : Bool, ∀ n < 16, hexVal (hexChar upper n) = some n.toUInt8 := by decide
  exact hall upper n h

theorem isHexChar_of_hexVal {c d : UInt8} (h : hexVal c = some d) : IsHexChar c := by
  have hletter : ∀ a : UInt8, ∀ upper, a ≤ c → c.toNat ≤ a.toNat + 5 →
      a.toNat = (if upper then 65 else 97) → c = hexChar upper (c.toNat - a.toNat + 10) := by
    intro a upper hlo hhi ha
    rw [UInt8.le_iff_toNat_le] at hlo
    apply UInt8.toNat_inj.1
    rw [hexChar, if_neg (by omega), UInt8.toNat_ofNat']
    cases upper <;> simp at ha ⊢ <;> omega
  have hc : c.toNat < 256 := c.toNat_lt
  unfold hexVal at h
  split_ifs at h with h₁ h₂ h₃
  · obtain ⟨hlo, hhi⟩ := h₁
    rw [UInt8.le_iff_toNat_le] at hlo hhi
    simp only [UInt8.reduceToNat] at hlo hhi
    refine ⟨false, c.toNat - 48, by omega, ?_⟩
    apply UInt8.toNat_inj.1
    rw [hexChar, if_pos (by omega), UInt8.toNat_ofNat']
    omega
  · obtain ⟨hlo, hhi⟩ := h₂
    rw [UInt8.le_iff_toNat_le] at hhi
    simp only [UInt8.reduceToNat] at hhi
    exact ⟨false, c.toNat - 97 + 10, by omega, hletter 97 false hlo (by simpa using hhi) rfl⟩
  · obtain ⟨hlo, hhi⟩ := h₃
    rw [UInt8.le_iff_toNat_le] at hhi
    simp only [UInt8.reduceToNat] at hhi
    exact ⟨true, c.toNat - 65 + 10, by omega, hletter 65 true hlo (by simpa using hhi) rfl⟩

theorem hexPairs_cons (b : UInt8) (upper upper' : Bool) (s : Bytes) :
    hexPairs (hexChar upper (b.toNat / 16) :: hexChar upper' (b.toNat % 16) :: s)
      = (hexPairs s).map (b :: ·) := by
  have hb : b.toNat < 256 := b.toNat_lt
  have hhi : b.toNat / 16 < 16 := by omega
  have hlo : b.toNat % 16 < 16 := Nat.mod_lt _ (by decide)
  have hbyte : (b.toNat / 16).toUInt8 <<< 4 ||| (b.toNat % 16).toUInt8 = b := by
    have hlt : ∀ n < 16, n.toUInt8 < 16 := by decide
    rw [shiftLeft_four_or (hlt _ hhi) (hlt _ hlo)]
    apply UInt8.toNat_inj.1
    simp only [UInt8.toNat_ofNat']
    omega
  rw [hexPairs, hexVal_hexChar upper hhi, hexVal_hexChar upper' hlo]
  cases hexPairs s with
  | none => rfl
  | some out => simp [hbyte]

theorem hexPairs_hexForm (bs : List (UInt8 × Bool × Bool)) :
    hexPairs ((hexForm bs).drop 2) = some (bs.map Prod.fst) := by
  have hdrop : (hexForm bs).drop 2 = bs.flatMap fun (b, upper, upper') =>
      [hexChar upper (b.toNat / 16), hexChar upper' (b.toNat % 16)] := rfl
  rw [hdrop]
  induction bs with
  | nil => rfl
  | cons b bs ih =>
    obtain ⟨b, upper, upper'⟩ := b
    have hrest := ih rfl
    rw [List.flatMap_cons, List.cons_append, List.cons_append, List.nil_append, hexPairs_cons,
      hrest]
    rfl

/-- Only an even number of hexadecimal digits is decoded. -/
theorem hexPairs_some {s out : Bytes} (h : hexPairs s = some out) :
    s.length % 2 = 0 ∧ ∀ c ∈ s, IsHexChar c := by
  induction s using hexPairs.induct generalizing out with
  | case1 => exact ⟨rfl, by simp⟩
  | case2 c => simp [hexPairs] at h
  | case3 hi lo rest hi' lo' out' hout hlo hhi ih =>
    obtain ⟨hlen, hall⟩ := ih hout
    refine ⟨by rw [List.length_cons, List.length_cons]; omega, ?_⟩
    rw [List.forall_mem_cons, List.forall_mem_cons]
    exact ⟨isHexChar_of_hexVal hhi, isHexChar_of_hexVal hlo, hall⟩
  | case4 hi lo rest hnone ih =>
    rw [hexPairs] at h
    split at h
    next hi' lo' out' hhi hlo hout => exact (hnone hi' lo' out' hhi hlo hout).elim
    next => cases h

/-! ### The escape form -/

/-- The three octal digits of a byte. -/
def octalText (b : UInt8) : Bytes :=
  [(48 + b.toNat / 64).toUInt8, (48 + b.toNat / 8 % 8).toUInt8, (48 + b.toNat % 8).toUInt8]

def escapeOctet (b : UInt8) : Bytes :=
  if b = backslash then [backslash, backslash]
  else if 32 ≤ b ∧ b ≤ 126 then [b]
  else backslash :: octalText b

def escapeForm (bs : Bytes) : Bytes := bs.flatMap escapeOctet

/-- The texts of the escape form, and the bytes that they stand for. -/
inductive EscapeText : Bytes → Bytes → Prop
  | nil : EscapeText [] []
  | literal {c : UInt8} {s out : Bytes} (hc : c ≠ backslash) (h : EscapeText s out) :
      EscapeText (c :: s) (c :: out)
  | double {s out : Bytes} (h : EscapeText s out) :
      EscapeText (backslash :: backslash :: s) (backslash :: out)
  | octal {s out : Bytes} (b : UInt8) (h : EscapeText s out) :
      EscapeText (backslash :: (octalText b ++ s)) (b :: out)

theorem escapedBytes_literal {c : UInt8} (hc : c ≠ backslash) (s : Bytes) :
    escapedBytes (c :: s) = (escapedBytes s).map (c :: ·) := by
  rw [escapedBytes.eq_def]
  exact if_pos hc

theorem escapedBytes_double (s : Bytes) :
    escapedBytes (backslash :: backslash :: s) = (escapedBytes s).map (backslash :: ·) := by
  rw [escapedBytes.eq_def]
  simp

/-- The digits of a group, and its value. -/
def IsOctet (d e f : UInt8) (n : ℕ) : Prop :=
  (48 ≤ d ∧ d ≤ 55) ∧ (48 ≤ e ∧ e ≤ 55) ∧ (48 ≤ f ∧ f ≤ 55)
    ∧ n = (d.toNat - 48) * 64 + (e.toNat - 48) * 8 + (f.toNat - 48) ∧ n ≤ 255

theorem escapedBytes_of_isOctet {d e f : UInt8} {n : ℕ} (h : IsOctet d e f n) (s : Bytes) :
    escapedBytes (backslash :: d :: e :: f :: s) = (escapedBytes s).map (n.toUInt8 :: ·) := by
  obtain ⟨hd, he, hf, rfl, hn⟩ := h
  have hne : d ≠ backslash := by
    rintro rfl
    exact absurd hd.2 (by decide)
  rw [escapedBytes.eq_def]
  simp [hne, hd, he, hf, hn]

theorem isOctet_octalText (b : UInt8) :
    ∃ d e f, octalText b = [d, e, f] ∧ IsOctet d e f b.toNat := by
  have hb : b.toNat < 256 := b.toNat_lt
  have hdigit : ∀ n < 8, (48 ≤ (48 + n).toUInt8 ∧ (48 + n).toUInt8 ≤ 55)
      ∧ (48 + n).toUInt8.toNat - 48 = n := by decide
  obtain ⟨hd, hdvalue⟩ := hdigit (b.toNat / 64) (by omega)
  obtain ⟨he, hevalue⟩ := hdigit (b.toNat / 8 % 8) (by omega)
  obtain ⟨hf, hfvalue⟩ := hdigit (b.toNat % 8) (by omega)
  refine ⟨_, _, _, rfl, hd, he, hf, ?_, by omega⟩
  rw [hdvalue, hevalue, hfvalue]
  omega

theorem escapedBytes_octal (b : UInt8) (s : Bytes) :
    escapedBytes (backslash :: (octalText b ++ s)) = (escapedBytes s).map (b :: ·) := by
  obtain ⟨d, e, f, htext, hoctet⟩ := isOctet_octalText b
  have hbyte : b.toNat.toUInt8 = b := UInt8.toNat_inj.1 (by simp)
  rw [htext, ← hbyte]
  exact escapedBytes_of_isOctet hoctet s

/-- Every group of octal digits up to 255 is the text of a byte. -/
theorem IsOctet.octalText {d e f : UInt8} {n : ℕ} (h : IsOctet d e f n) :
    octalText n.toUInt8 = [d, e, f] := by
  obtain ⟨⟨hd, hd'⟩, ⟨he, he'⟩, ⟨hf, hf'⟩, hn, hlt⟩ := h
  rw [UInt8.le_iff_toNat_le] at hd hd' he he' hf hf'
  simp only [UInt8.reduceToNat] at hd hd' he he' hf hf'
  have hbyte : n.toUInt8.toNat = n := by
    rw [UInt8.toNat_ofNat']
    omega
  have hdigit : ∀ c : UInt8, ∀ m, 48 ≤ c.toNat → c.toNat ≤ 55 → m = c.toNat - 48 →
      (48 + m).toUInt8 = c := by
    intro c m hlo hhi hm
    apply UInt8.toNat_inj.1
    rw [UInt8.toNat_ofNat']
    omega
  rw [Values.octalText, hbyte, hdigit d _ hd hd' (by omega), hdigit e _ he he' (by omega),
    hdigit f _ hf hf' (by omega)]

/-- A backslash before anything else is not decoded. -/
theorem escapedBytes_backslash {s : Bytes} (hdouble : ∀ t, s ≠ backslash :: t)
    (hoctal : ∀ b t, s ≠ octalText b ++ t) : escapedBytes (backslash :: s) = none := by
  rw [escapedBytes.eq_def]
  obtain _ | ⟨d, _ | ⟨e, _ | ⟨f, s⟩⟩⟩ := s
  · simp
  · have hne : d ≠ backslash := fun h => hdouble [] (by rw [h])
    simp [hne]
  · have hne : d ≠ backslash := fun h => hdouble [e] (by rw [h])
    simp [hne]
  · have hne : d ≠ backslash := fun h => hdouble (e :: f :: s) (by rw [h])
    have hnot : ∀ n, ¬IsOctet d e f n := by
      intro n hoctet
      exact hoctal n.toUInt8 s (by rw [hoctet.octalText]; rfl)
    simp only [hne, ne_eq, not_true_eq_false, if_false]
    rw [if_neg]
    simp only [Bool.and_eq_true, decide_eq_true_eq]
    rintro ⟨⟨⟨hd, he⟩, hf⟩, hle⟩
    exact hnot _ ⟨hd, he, hf, rfl, hle⟩

/-- A text of the escape form is decoded whatever follows it. -/
theorem EscapeText.escapedBytes_append {u out : Bytes} (h : EscapeText u out) (s : Bytes) :
    escapedBytes (u ++ s) = (escapedBytes s).map (out ++ ·) := by
  induction h with
  | nil => simp
  | literal hc _ ih =>
    rw [List.cons_append, escapedBytes_literal hc, ih, Option.map_map]
    rfl
  | double _ ih =>
    rw [List.cons_append, List.cons_append, escapedBytes_double, ih, Option.map_map]
    rfl
  | octal b _ ih =>
    rw [List.cons_append, List.append_assoc, escapedBytes_octal, ih, Option.map_map]
    rfl

theorem escapeText_escapeForm (bs : Bytes) : EscapeText (escapeForm bs) bs := by
  induction bs with
  | nil => exact .nil
  | cons b bs ih =>
    rw [escapeForm, List.flatMap_cons]
    unfold escapeOctet
    split_ifs with hslash hprint
    · subst hslash
      exact .double ih
    · exact .literal hslash ih
    · exact .octal b ih

/-- No text of the escape form is taken for the hex form. -/
theorem EscapeText.not_hex {s out : Bytes} (h : EscapeText s out) : ¬ascii "\\x" <+: s := by
  have hx : ascii "\\x" = [backslash, 120] := by decide
  rw [hx]
  rintro ⟨t, ht⟩
  cases h with
  | nil => cases ht
  | literal hc => exact hc (List.cons.inj ht).1.symm
  | double =>
    have hletter := (List.cons.inj (List.cons.inj ht).2).1
    exact absurd hletter (by decide)
  | octal b =>
    obtain ⟨d, e, f, htext, hoctet⟩ := isOctet_octalText b
    rw [htext] at ht
    obtain rfl : 120 = d := (List.cons.inj (List.cons.inj ht).2).1
    exact absurd hoctet.1.2 (by decide)

theorem parseBytea_some {v b : Bytes}
    (h : (if (ascii "\\x").isPrefixOf v then hexPairs (v.drop 2) else escapedBytes v) = some b)
    (column : String) (out : Bytes) : parseBytea v column out = .ok (out ++ b) := by
  simp only [parseBytea, h]

theorem parseBytea_none {v : Bytes}
    (h : (if (ascii "\\x").isPrefixOf v then hexPairs (v.drop 2) else escapedBytes v) = none)
    (column : String) (out : Bytes) : parseBytea v column out = .error (bad column "bytea") := by
  simp only [parseBytea, h]

theorem decoded_hex (s : Bytes) :
    (if (ascii "\\x").isPrefixOf (ascii "\\x" ++ s) then hexPairs ((ascii "\\x" ++ s).drop 2)
      else escapedBytes (ascii "\\x" ++ s)) = hexPairs s := by
  rw [if_pos (List.isPrefixOf_iff_prefix.2 (List.prefix_append _ _))]
  rfl

theorem decoded_escape {v : Bytes} (h : ¬ascii "\\x" <+: v) :
    (if (ascii "\\x").isPrefixOf v then hexPairs (v.drop 2) else escapedBytes v)
      = escapedBytes v :=
  if_neg (by rwa [List.isPrefixOf_iff_prefix])

/-- Both formats are decoded to the bytes that they were written from, no escape
form is taken for the hex form, and a text that is broken in its form is
refused. -/
theorem parse_bytea_forms (column : String) (out : Bytes) :
    (∀ bs : List (UInt8 × Bool × Bool),
        parseBytea (hexForm bs) column out = .ok (out ++ bs.map Prod.fst))
      ∧ (∀ bs : Bytes, parseBytea (escapeForm bs) column out = .ok (out ++ bs)
        ∧ ¬ascii "\\x" <+: escapeForm bs)
      ∧ (∀ s : Bytes, (s.length % 2 = 1 ∨ ∃ c ∈ s, ¬IsHexChar c) →
        parseBytea (ascii "\\x" ++ s) column out = .error (bad column "bytea"))
      ∧ ∀ u bs s : Bytes, EscapeText u bs → ¬ascii "\\x" <+: u ++ backslash :: s →
        (∀ t, s ≠ backslash :: t) → (∀ b t, s ≠ octalText b ++ t) →
          parseBytea (u ++ backslash :: s) column out = .error (bad column "bytea") := by
  refine ⟨fun bs => ?_, fun bs => ?_, fun s h => ?_, fun u bs s hu hform hdouble hoctal => ?_⟩
  · have hdrop : hexForm bs = ascii "\\x" ++ (hexForm bs).drop 2 := rfl
    have hpairs := hexPairs_hexForm bs
    apply parseBytea_some
    rwa [hdrop, decoded_hex]
  · have htext := escapeText_escapeForm bs
    have hdecode := htext.escapedBytes_append []
    rw [List.append_nil] at hdecode
    refine ⟨?_, htext.not_hex⟩
    apply parseBytea_some
    rw [decoded_escape htext.not_hex, hdecode]
    simp [escapedBytes]
  · apply parseBytea_none
    rw [decoded_hex]
    cases hpairs : hexPairs s with
    | none => rfl
    | some b =>
      obtain ⟨heven, hall⟩ := hexPairs_some hpairs
      obtain hodd | ⟨c, hc, hnot⟩ := h
      · omega
      · exact absurd (hall c hc) hnot
  · apply parseBytea_none
    rw [decoded_escape hform, hu.escapedBytes_append, escapedBytes_backslash hdouble hoctal]
    rfl

end PgDelta.Values
