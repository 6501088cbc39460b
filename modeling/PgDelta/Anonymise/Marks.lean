import PgDelta.Anonymise.Escapes

/-!
What is decoded of a field whose escapes are spelled with digits.

The digits of an escape are exchanged like any others, and more or fewer of
them may be taken for the escape than before. Bytes that no escape makes, the
marks, stay where they are.
-/

namespace PgDelta.Anonymise

open PgDelta.Lib PgDelta.Copy

/-! ### Marks -/

/-- Two byte strings with the same marks, between which other bytes stand in
the one where they stand in the other. -/
inductive SameMarks (mark : UInt8 → Prop) : Bytes → Bytes → Prop
  | nil : SameMarks mark [] []
  | mark {x : UInt8} {v w : Bytes} : mark x → SameMarks mark v w →
      SameMarks mark (x :: v) (x :: w)
  | run {s t v w : Bytes} : s ≠ [] → t ≠ [] → (∀ x ∈ s, ¬mark x) → (∀ y ∈ t, ¬mark y) →
      SameMarks mark v w → SameMarks mark (s ++ v) (t ++ w)

namespace SameMarks

variable {mark : UInt8 → Prop}

theorem single {x y : UInt8} {v w : Bytes} (hx : ¬mark x) (hy : ¬mark y)
    (h : SameMarks mark v w) : SameMarks mark (x :: v) (y :: w) :=
  .run (s := [x]) (t := [y]) (by simp) (by simp) (by simpa using hx) (by simpa using hy) h

/-- A mark at the front is a mark of the other one too. -/
theorem of_mark {x : UInt8} {v u : Bytes} (hx : mark x) (h : SameMarks mark (x :: v) u) :
    ∃ w, u = x :: w ∧ SameMarks mark v w := by
  generalize hxv : x :: v = xv at h
  cases h with
  | nil => cases hxv
  | mark hz h =>
      obtain ⟨rfl, rfl⟩ := List.cons.inj hxv
      exact ⟨_, rfl, h⟩
  | @run s t v' w hs ht hsfree htfree h =>
      cases s with
      | nil => exact absurd rfl hs
      | cons z s =>
          obtain ⟨rfl, -⟩ := List.cons.inj hxv
          exact absurd hx (hsfree _ List.mem_cons_self)

theorem of_marks {m v u : Bytes} (hm : ∀ x ∈ m, mark x) (h : SameMarks mark (m ++ v) u) :
    ∃ w, u = m ++ w ∧ SameMarks mark v w := by
  induction m generalizing u with
  | nil => exact ⟨u, rfl, h⟩
  | cons x m ih =>
      obtain ⟨u', rfl, hrest⟩ := of_mark (hm x List.mem_cons_self) h
      obtain ⟨w, rfl, hbehind⟩ := ih (fun z hz => hm z (List.mem_cons_of_mem _ hz)) hrest
      exact ⟨w, rfl, hbehind⟩

/-- Another byte at the front begins a run. -/
theorem of_not_mark {x : UInt8} {v u : Bytes} (hx : ¬mark x) (h : SameMarks mark (x :: v) u) :
    ∃ s t v' w, v = s ++ v' ∧ u = t ++ w ∧ t ≠ [] ∧ (∀ y ∈ s, ¬mark y) ∧ (∀ y ∈ t, ¬mark y)
      ∧ SameMarks mark v' w := by
  generalize hxv : x :: v = xv at h
  cases h with
  | nil => cases hxv
  | mark hz h =>
      obtain ⟨rfl, rfl⟩ := List.cons.inj hxv
      exact absurd hz hx
  | @run s t v' w hs ht hsfree htfree h =>
      cases s with
      | nil => exact absurd rfl hs
      | cons z s =>
          obtain ⟨rfl, rfl⟩ := List.cons.inj hxv
          exact ⟨s, t, v', w, rfl, rfl, ht,
            fun y hy => hsfree y (List.mem_cons_of_mem _ hy), htfree, h⟩

end SameMarks

/-! ### Escapes that are spelled with digits -/

/-- Which escapes may be spelled with digits: those of three octal digits by
their first one, and those of two decimal digits behind an `x`. -/
structure Spelling where
  leading : UInt8 → Bool
  pairs : Bool

/-- Whatever its digits are, an escape of such a spelling is no mark. -/
structure Spelling.Avoids (spelling : Spelling) (mark : UInt8 → Prop) : Prop where
  small : ∀ n < 64, ¬mark n.toUInt8
  octal : ∀ c, isOctalDigit c = true → spelling.leading c = true →
    ∀ n < 64, ¬mark (((c.toNat - 48) * 64 + n) % 256).toUInt8
  hex : spelling.pairs = true → ∀ n < 10, ∀ m < 10, ¬mark (16 * n + m).toUInt8

/-- Behind the `x` of an escape: one digit, and no letter behind it. -/
def plainHex (pairs : Bool) : Bytes → Bool
  | [] => false
  | [d] => isAsciiDigit d
  | d :: f :: _ => isAsciiDigit d && ((carriedByte f).isSome || (pairs && isDigitByte f))

/-- Behind the first digit of an octal escape: not two digits more, unless it
is one of `leading`. -/
def plainOctal (leading : UInt8 → Bool) (c : UInt8) : Bytes → Bool
  | d :: e :: _ => leading c || !(isDigitByte d && isDigitByte e)
  | _ => true

/-- An escape that is read, and that is no mark, whatever digits it is spelled
with. -/
def plainEscape (spelling : Spelling) (e : UInt8 × Bytes) : Bool :=
  if e.1 = 120 then plainHex spelling.pairs e.2
  else !isOctalDigit e.1 || plainOctal spelling.leading e.1 e.2

theorem isOctalDigit_iff {c : UInt8} : isOctalDigit c = true ↔ 48 ≤ c.toNat ∧ c.toNat ≤ 55 := by
  rw [isOctalDigit, Bool.and_eq_true, decide_eq_true_iff, decide_eq_true_iff]
  rfl

theorem octalValue_lt {c : UInt8} {ds : Bytes} (hc : isOctalDigit c = true)
    (hds : ∀ d ∈ ds, isOctalDigit d = true) (hlen : ds.length ≤ 2) :
    (2 ≤ ds.length → ∃ n < 64, octalValue (c :: ds) = (c.toNat - 48) * 64 + n)
      ∧ (ds.length < 2 → octalValue (c :: ds) < 64) := by
  have hc := isOctalDigit_iff.1 hc
  obtain _ | ⟨d, _ | ⟨e, _ | ⟨f, ds⟩⟩⟩ := ds
  · simp only [octalValue, List.foldl_cons, List.foldl_nil, List.length_nil]
    omega
  · have hd := isOctalDigit_iff.1 (hds d (by simp))
    simp only [octalValue, List.foldl_cons, List.foldl_nil, List.length_cons, List.length_nil]
    omega
  · have hd := isOctalDigit_iff.1 (hds d (by simp))
    have he := isOctalDigit_iff.1 (hds e (by simp))
    simp only [octalValue, List.foldl_cons, List.foldl_nil, List.length_cons, List.length_nil]
    exact ⟨fun _ => ⟨(d.toNat - 48) * 8 + (e.toNat - 48), by omega, by omega⟩, by omega⟩
  · simp only [List.length_cons] at hlen
    omega

theorem digitRun_of_head {p : UInt8 → Bool} {n : ℕ} {s : Bytes} (h : ∀ y ∈ s.head?, p y = false) :
    digitRun p n s = [] := by
  cases s with
  | nil => simp [digitRun]
  | cons y s => exact digitRun_cons_of_not (h y rfl) n s

theorem readEscape_octal {c : UInt8} (hc : isOctalDigit c = true) {q s : Bytes}
    (hlen : q.length ≤ 2) (hstop : q.length < 2 → ∀ y ∈ s.head?, isOctalDigit y = false) :
    ∃ k, (∀ d ∈ q.take k, isOctalDigit d = true) ∧
      readEscape (c :: (q ++ s)) =
        .ok ((octalValue (c :: q.take k) % 256).toUInt8, q.drop k ++ s) := by
  have hcontrol : controlByte c = none := by
    have hc := isOctalDigit_iff.1 hc
    unfold controlByte
    split_ifs with h h h h h h <;> first | rfl | (subst h; revert hc; decide)
  have hhex : c ≠ 120 := by
    rintro rfl
    revert hc
    decide
  have hread : ∀ ds rest, digitRun isOctalDigit 2 (q ++ s) = ds → q ++ s = ds ++ rest →
      readEscape (c :: (q ++ s)) = .ok ((octalValue (c :: ds) % 256).toUInt8, rest) := by
    rintro ds rest hds hsplit
    have hrun : digitRun isOctalDigit 3 (c :: (q ++ s)) = c :: ds := by
      rw [digitRun_cons hc, hds]
    have hrest : (c :: (q ++ s)).drop (c :: ds).length = rest := by simp [hsplit]
    simp only [readEscape, hcontrol, if_neg hhex, hrun, hrest, reduceCtorEq, if_false]
  obtain _ | ⟨d, _ | ⟨e, _ | ⟨f, q⟩⟩⟩ := q
  · exact ⟨0, by simp, hread [] s (digitRun_of_head (hstop (by simp))) rfl⟩
  · cases hd : isOctalDigit d with
    | false => exact ⟨0, by simp, hread [] _ (digitRun_cons_of_not hd 2 s) rfl⟩
    | true =>
        refine ⟨1, by simpa using hd, hread [d] s ?_ rfl⟩
        rw [List.singleton_append, digitRun_cons hd, digitRun_of_head (hstop (by simp))]
  · cases hd : isOctalDigit d with
    | false => exact ⟨0, by simp, hread [] _ (digitRun_cons_of_not hd 2 _) rfl⟩
    | true =>
        have hfirst := digitRun_cons hd 1 (e :: s)
        cases he : isOctalDigit e with
        | false =>
            refine ⟨1, by simpa using hd, hread [d] (e :: s) ?_ rfl⟩
            exact hfirst.trans (by rw [digitRun_cons_of_not he])
        | true =>
            refine ⟨2, by simpa using ⟨hd, he⟩, hread [d, e] s ?_ rfl⟩
            refine hfirst.trans ?_
            rw [digitRun_cons he]
            simp [digitRun]
  · simp only [List.length_cons] at hlen
    omega

/-- The digits at the front of a field are as many before as after. -/
theorem Replaced.digits {a b : Bytes} (h : Replaced a b) (n : ℕ) :
    ∃ p a' q b', a = p ++ a' ∧ b = q ++ b' ∧ Replaced a' b' ∧ q.length = p.length ∧ p.length ≤ n
      ∧ (∀ x ∈ p, isDigitByte x = true) ∧ (∀ y ∈ q, isAsciiDigit y = true)
      ∧ (p.length < n → (∀ x ∈ a'.head?, isDigitByte x = false)
        ∧ ∀ y ∈ b'.head?, isDigitByte y = false) := by
  induction n generalizing a b with
  | zero => exact ⟨[], a, [], b, rfl, rfl, h, rfl, le_rfl, by simp, by simp, by simp⟩
  | succ n ih =>
      by_cases hdigit : ∃ x a', a = x :: a' ∧ isDigitByte x = true
      · obtain ⟨x, a', rfl, hx⟩ := hdigit
        cases h with
        | stray => exact absurd hx (by decide)
        | pair c h => exact absurd hx (by decide)
        | @byte _ y _ b' hback hxy h =>
            obtain ⟨p, a', q, b', rfl, rfl, h, hlen, hle, hp, hq, hstop⟩ := ih h
            refine ⟨x :: p, a', y :: q, b', rfl, rfl, h, by simp [hlen], by simpa using hle, ?_,
              ?_, by simpa using hstop⟩
            · simpa using ⟨hx, hp⟩
            · simpa using ⟨hxy.digit hx, hq⟩
      · refine ⟨[], a, [], b, rfl, rfl, h, rfl, Nat.zero_le _, by simp, by simp, fun _ => ?_⟩
        cases h with
        | nil => simp
        | stray =>
            have hbefore : isDigitByte backslash = false := by decide
            simpa using hbefore
        | pair c h =>
            have hbefore : isDigitByte backslash = false := by decide
            simpa using hbefore
        | @byte x y a b hback hxy h =>
            have hx : isDigitByte x = false := by
              rw [Bool.eq_false_iff]
              exact fun hx => hdigit ⟨x, a, rfl, hx⟩
            simpa using ⟨hx, hxy.not_digit hx⟩

def Steadfast (mark : UInt8 → Prop) (x : UInt8) : Prop :=
  ∀ y, Stands x y → y = x ∨ (¬mark x ∧ ¬mark y)

theorem SameMarks.same {mark : UInt8 → Prop} (x : UInt8) {v w : Bytes}
    (h : SameMarks mark v w) : SameMarks mark (x :: v) (x :: w) := by
  by_cases hx : mark x
  · exact .mark hx h
  · exact .single hx hx h

theorem not_hex_of_kept {f : UInt8} (h : carriedByte f = some f) : isHexDigit f = false := by
  have hkept : isDigitByte f = false ∧ isLowerByte f = false ∧ isUpperByte f = false := by
    unfold carriedByte at h
    split_ifs at h with hclass
    simpa [and_assoc] using hclass
  obtain ⟨hdigit, hlower, hupper⟩ := hkept
  have hnot : ¬(48 ≤ f.toNat ∧ f.toNat ≤ 57) := fun hf => by
    rw [isDigitByte_of_ascii (isAsciiDigit_iff.2 hf)] at hdigit
    cases hdigit
  rw [Bool.eq_false_iff, Ne, isLowerByte_iff] at hlower
  rw [Bool.eq_false_iff, Ne, isUpperByte_iff] at hupper
  have hdigits : ¬(48 ≤ f ∧ f ≤ 57) := hnot
  have hsmall : ¬(97 ≤ f ∧ f ≤ 102) := fun hf =>
    hlower ⟨UInt8.le_iff_toNat_le.1 hf.1, (UInt8.le_iff_toNat_le.1 hf.2).trans (by decide)⟩
  have hlarge : ¬(65 ≤ f ∧ f ≤ 70) := fun hf =>
    hupper ⟨UInt8.le_iff_toNat_le.1 hf.1, (UInt8.le_iff_toNat_le.1 hf.2).trans (by decide)⟩
  simp [isHexDigit, hexDigit, hdigits, hsmall, hlarge]

theorem hexDigit_of_digit {d : UInt8} (h : isAsciiDigit d = true) : hexDigit d = some (d - 48) := by
  rw [isAsciiDigit, Bool.and_eq_true, decide_eq_true_iff, decide_eq_true_iff] at h
  rw [hexDigit, if_pos h]

theorem readEscape_hex {d : UInt8} (hd : isAsciiDigit d = true) {s : Bytes}
    (hstop : ∀ f ∈ s.head?, isHexDigit f = false) :
    readEscape (120 :: d :: s) = .ok ((d.toNat - 48).toUInt8, s) := by
  have hdigit : isHexDigit d = true := by simp [isHexDigit, hexDigit_of_digit hd]
  have hrun : digitRun isHexDigit 2 (d :: s) = [d] := by
    rw [digitRun_cons hdigit, digitRun_of_head hstop]
  have hcontrol : controlByte 120 = none := by decide
  have hle := (isAsciiDigit_iff.1 hd).1
  have hvalue : (hexValue [d]).toUInt8 = (d.toNat - 48).toUInt8 := by
    have hsub : (d - 48).toNat = d.toNat - 48 := UInt8.toNat_sub_of_le d 48 hle
    simp [hexValue, hexDigit_of_digit hd, hsub]
  simp only [readEscape, hcontrol, if_pos, hrun, reduceCtorEq, if_false, hvalue]
  simp

theorem hexValue_singleton {d : UInt8} (hd : isAsciiDigit d = true) :
    ((hexDigit d).getD 0).toNat = d.toNat - 48 := by
  rw [hexDigit_of_digit hd, Option.getD_some]
  exact UInt8.toNat_sub_of_le d 48 (isAsciiDigit_iff.1 hd).1

/-- A hexadecimal escape of two decimal digits. -/
theorem readEscape_hexPair {d f : UInt8} (hd : isAsciiDigit d = true) (hf : isAsciiDigit f = true)
    (s : Bytes) :
    readEscape (120 :: d :: f :: s)
      = .ok ((16 * (d.toNat - 48) + (f.toNat - 48)).toUInt8, s) := by
  have hdigit : isHexDigit d = true := by simp [isHexDigit, hexDigit_of_digit hd]
  have hdigit' : isHexDigit f = true := by simp [isHexDigit, hexDigit_of_digit hf]
  have hrun : digitRun isHexDigit 2 (d :: f :: s) = [d, f] := by
    rw [digitRun_cons hdigit, digitRun_cons hdigit']
    simp [digitRun]
  have hcontrol : controlByte 120 = none := by decide
  have hvalue : hexValue [d, f] = 16 * (d.toNat - 48) + (f.toNat - 48) := by
    simp only [hexValue, List.foldl_cons, List.foldl_nil, hexValue_singleton hd,
      hexValue_singleton hf]
    omega
  simp only [readEscape, hcontrol, if_pos, hrun, reduceCtorEq, if_false, hvalue]
  simp

theorem not_hex_of_superscript {f : UInt8} (hf : isDigitByte f = true)
    (hascii : isAsciiDigit f = false) : isHexDigit f = false := by
  simp only [isDigitByte, hascii, Bool.false_or, Bool.or_eq_true, beq_iff_eq] at hf
  rcases hf with (rfl | rfl) | rfl <;> decide

theorem carriedByte_eq {f : UInt8} (h : (carriedByte f).isSome = true) :
    carriedByte f = some f := by
  unfold carriedByte at h ⊢
  split_ifs at h ⊢ <;> first | rfl | cases h

theorem Replaced.head {a b : Bytes} (h : Replaced a b)
    (ha : ∀ f ∈ a.head?, carriedByte f = some f) : ∀ g ∈ b.head?, carriedByte g = some g := by
  cases h with
  | nil => simp
  | stray => exact ha
  | pair c h => exact ha
  | @byte x y a b hx hxy h =>
      have hkept := ha x rfl
      obtain rfl : y = x := (hxy.eq_iff hkept).2 rfl
      exact ha

theorem resolve_append {p : Bytes} (hp : backslash ∉ p) (s : Bytes) :
    resolve (p ++ s) = (resolve s).map (p ++ ·) := by
  induction p with
  | nil =>
      rw [List.nil_append]
      cases resolve s <;> rfl
  | cons x p ih =>
      obtain ⟨hx, hp⟩ : backslash ≠ x ∧ backslash ∉ p := by simpa using hp
      rw [List.cons_append, resolve_cons hx.symm, ih hp]
      cases resolve s <;> rfl

theorem loose_append {p : Bytes} (hp : backslash ∉ p) (s : Bytes) :
    loose (p ++ s) = p ++ loose s := by
  induction p with
  | nil => rfl
  | cons x p ih =>
      obtain ⟨hx, hp⟩ : backslash ≠ x ∧ backslash ∉ p := by simpa using hp
      rw [List.cons_append, loose_cons hx.symm, ih hp, List.cons_append]

theorem escapes_append {p : Bytes} (hp : backslash ∉ p) (s : Bytes) :
    escapes (p ++ s) = escapes s := by
  induction p with
  | nil => rfl
  | cons x p ih =>
      obtain ⟨hx, hp⟩ : backslash ≠ x ∧ backslash ∉ p := by simpa using hp
      rw [List.cons_append, escapes_cons hx.symm, ih hp]

theorem backslash_not_mem_of_digits {p : Bytes} (hp : ∀ x ∈ p, isDigitByte x = true) :
    backslash ∉ p := fun h => absurd (hp _ h) (by decide)

theorem isDigitByte_of_isOctalDigit {z : UInt8} (h : isOctalDigit z = true) :
    isDigitByte z = true := by
  have hbounds := isOctalDigit_iff.1 h
  exact isDigitByte_of_ascii (isAsciiDigit_iff.2 (by omega))

/-- An octal escape in front of something that is no digit is no mark. -/
theorem octal_not_mark {spelling : Spelling} {mark : UInt8 → Prop} (hmark : spelling.Avoids mark)
    {c : UInt8} (hc : isOctalDigit c = true) {ds : Bytes} (hds : ∀ d ∈ ds, isOctalDigit d = true)
    (hlen : ds.length ≤ 2) (hplain : spelling.leading c = true ∨ ds.length < 2) :
    ¬mark (octalValue (c :: ds) % 256).toUInt8 := by
  obtain ⟨hlong, hshort⟩ := octalValue_lt hc hds hlen
  by_cases htwo : ds.length < 2
  · have hlt := hshort htwo
    rw [Nat.mod_eq_of_lt (by omega)]
    exact hmark.small _ hlt
  · obtain ⟨n, hn, hvalue⟩ := hlong (by omega)
    rw [hvalue]
    exact hmark.octal c hc (hplain.resolve_right htwo) n hn

theorem plainHex_of_not_digit {pairs : Bool} {s : Bytes}
    (h : ∀ y ∈ s.head?, isDigitByte y = false) : ¬plainHex pairs s = true := by
  obtain _ | ⟨y, s⟩ := s
  · exact Bool.false_ne_true
  · have hy : isAsciiDigit y = false := by
      rw [Bool.eq_false_iff]
      intro hascii
      have hnot := h y rfl
      rw [isDigitByte_of_ascii hascii] at hnot
      cases hnot
    cases s <;> simp [plainHex, hy]

theorem plainOctal_of_not_digit {leading : UInt8 → Bool} {c : UInt8} {s : Bytes}
    (h : ∀ y ∈ s.head?, isDigitByte y = false) : plainOctal leading c s = true := by
  obtain _ | ⟨y, _ | ⟨z, s⟩⟩ := s
  · rfl
  · rfl
  · simp [plainOctal, h y rfl]

/-- An escape that is spelled with digits takes some of those behind it, and is
no mark. -/
theorem readEscape_numeric {spelling : Spelling} {mark : UInt8 → Prop}
    (hmark : spelling.Avoids mark) {c : UInt8} (hc : isNumeric c = true) {p s : Bytes}
    (hdigits : ∀ x ∈ p, isDigitByte x = true) (hlen : p.length ≤ 2)
    (hstop : p.length < 2 → ∀ y ∈ s.head?, isDigitByte y = false)
    (hplain : plainEscape spelling (c, p ++ s) = true) :
    ∃ k x, readEscape (c :: (p ++ s)) = .ok (x, p.drop k ++ s) ∧ ¬mark x := by
  by_cases hhex : c = 120
  · subst hhex
    have hplain : plainHex spelling.pairs (p ++ s) = true := by simpa [plainEscape] using hplain
    obtain _ | ⟨d, _ | ⟨f, _ | ⟨g, p⟩⟩⟩ := p
    · exact absurd hplain (plainHex_of_not_digit (hstop (by simp)))
    · obtain ⟨hd, hkept⟩ : isAsciiDigit d = true ∧ ∀ f ∈ s.head?, carriedByte f = some f := by
        obtain _ | ⟨f, s⟩ := s
        · exact ⟨hplain, by simp⟩
        · have hf := hstop (by simp) f rfl
          obtain ⟨hd, hf⟩ : isAsciiDigit d = true ∧ (carriedByte f).isSome = true := by
            simpa [plainHex, hf] using hplain
          exact ⟨hd, by simpa using carriedByte_eq hf⟩
      have hle := isAsciiDigit_iff.1 hd
      exact ⟨1, _, readEscape_hex hd fun f hf => not_hex_of_kept (hkept f hf),
        hmark.small _ (by omega)⟩
    · have hf := hdigits f (by simp)
      obtain ⟨hd, hpairs⟩ : isAsciiDigit d = true ∧ spelling.pairs = true := by
        have hkept : (carriedByte f).isSome = false := by simp [carriedByte, hf]
        simpa [plainHex, hkept, hf] using hplain
      have hle := isAsciiDigit_iff.1 hd
      cases hascii : isAsciiDigit f with
      | true =>
          have hle' := isAsciiDigit_iff.1 hascii
          exact ⟨2, _, readEscape_hexPair hd hascii s, hmark.hex hpairs _ (by omega) _ (by omega)⟩
      | false =>
          -- a superscript is a digit that no escape takes
          refine ⟨1, _, readEscape_hex hd ?_, hmark.small _ (by omega)⟩
          simpa using not_hex_of_superscript hf hascii
    · simp only [List.length_cons] at hlen
      omega
  · have hoctal : isOctalDigit c = true := by simpa [isNumeric, hhex] using hc
    have hplain : spelling.leading c = true ∨ p.length < 2 := by
      obtain _ | ⟨d, _ | ⟨e, p⟩⟩ := p
      · exact .inr (by simp)
      · exact .inr (by simp)
      · have hd := hdigits d (by simp)
        have he := hdigits e (by simp)
        exact .inl (by simpa [plainEscape, hhex, hoctal, plainOctal, hd, he] using hplain)
    obtain ⟨k, hk, hread⟩ := readEscape_octal hoctal hlen fun hlt y hy => by
      have hnot := hstop hlt y hy
      rw [Bool.eq_false_iff] at hnot ⊢
      exact fun hy => hnot (isDigitByte_of_isOctalDigit hy)
    have hshort : (p.take k).length ≤ p.length := List.length_take_le' _ _
    exact ⟨k, _, hread, octal_not_mark hmark hoctal hk (by omega)
      (hplain.imp_right fun h => by omega)⟩

/-- The digits of an escape may be others, as many as they are. -/
theorem plainEscape_digits {spelling : Spelling} {c : UInt8} {p a q b : Bytes}
    (h : Replaced a b) (hlen : q.length = p.length) (hle : p.length ≤ 2)
    (hp : ∀ x ∈ p, isDigitByte x = true) (hq : ∀ y ∈ q, isAsciiDigit y = true)
    (hstop : p.length < 2 → ∀ x ∈ a.head?, isDigitByte x = false)
    (hstop' : p.length < 2 → ∀ y ∈ b.head?, isDigitByte y = false)
    (hplain : plainEscape spelling (c, p ++ a) = true) :
    plainEscape spelling (c, q ++ b) = true := by
  obtain _ | ⟨d, _ | ⟨e, _ | ⟨f, p⟩⟩⟩ := p
  · obtain rfl := List.length_eq_zero_iff.1 hlen
    rw [List.nil_append] at hplain ⊢
    by_cases hhex : c = 120
    · subst hhex
      exact absurd (show plainHex spelling.pairs a = true by simpa [plainEscape] using hplain)
        (plainHex_of_not_digit (hstop (by simp)))
    · have hoctal := @plainOctal_of_not_digit spelling.leading c b (hstop' (by simp))
      simp [plainEscape, hhex, hoctal]
  · obtain ⟨d', rfl⟩ := List.length_eq_one_iff.1 hlen
    rw [List.singleton_append] at hplain ⊢
    have hd' := hq d' (by simp)
    by_cases hhex : c = 120
    · subst hhex
      have hkept : ∀ f ∈ a.head?, carriedByte f = some f := by
        intro f hf
        have hnot := hstop (by simp) f hf
        obtain _ | ⟨f', a⟩ := a
        · cases hf
        · obtain rfl : f' = f := by simpa using hf
          have hsome : isAsciiDigit d = true ∧ (carriedByte f').isSome = true := by
            simpa [plainEscape, plainHex, hnot] using hplain
          exact carriedByte_eq hsome.2
      have hkept' := h.head hkept
      obtain _ | ⟨g, b⟩ := b
      · simpa [plainEscape, plainHex] using hd'
      · have hg := hkept' g rfl
        simp [plainEscape, plainHex, hd', hg]
    · obtain _ | ⟨g, b⟩ := b
      · simp [plainEscape, hhex, plainOctal]
      · have hg := hstop' (by simp) g rfl
        simp [plainEscape, hhex, plainOctal, hg]
  · obtain ⟨d', e', rfl⟩ := List.length_eq_two.1 hlen
    have hd := hp d (by simp)
    have he := hp e (by simp)
    have hd' := hq d' (by simp)
    have he' := isDigitByte_of_ascii (hq e' (by simp))
    have hloose : (carriedByte e).isSome = false := by simp [carriedByte, he]
    by_cases hhex : c = 120
    · subst hhex
      obtain ⟨-, hpairs⟩ : isAsciiDigit d = true ∧ spelling.pairs = true := by
        simpa [plainEscape, plainHex, hloose, he] using hplain
      simp [plainEscape, plainHex, hd', he', hpairs]
    · simp only [plainEscape, if_neg hhex, List.cons_append, List.nil_append, plainOctal, hd, he,
        Bool.and_self, Bool.not_true, Bool.or_false] at hplain ⊢
      rcases Bool.or_eq_true_iff.1 hplain with hnot | hleading
      · rw [hnot, Bool.true_or]
      · rw [hleading, Bool.true_or, Bool.or_true]
  · simp only [List.length_cons] at hle
    omega

/-- A field whose escapes with digits keep the marks of what they stand for. -/
structure Marked (spelling : Spelling) (mark : UInt8 → Prop) (a : Bytes) : Prop where
  loose : ∀ x ∈ loose a, Steadfast mark x
  escapes : ∀ e ∈ escapes a, plainEscape spelling e = true

namespace Marked

variable {spelling : Spelling} {mark : UInt8 → Prop}

theorem pair {c : UInt8} {a : Bytes} (h : Marked spelling mark (backslash :: c :: a)) :
    Marked spelling mark a := by
  obtain ⟨hloose, hescapes⟩ := h
  rw [loose_pair] at hloose
  rw [escapes_pair] at hescapes
  exact ⟨hloose, fun e he => hescapes e (List.mem_cons_of_mem _ he)⟩

theorem behind {p a : Bytes} (h : Marked spelling mark (p ++ a)) (hp : backslash ∉ p) :
    Marked spelling mark a := by
  obtain ⟨hloose, hescapes⟩ := h
  rw [loose_append hp] at hloose
  rw [escapes_append hp] at hescapes
  exact ⟨fun x hx => hloose x (List.mem_append_right _ hx), hescapes⟩

end Marked

/-- An escape that is spelled with digits, before and after. -/
theorem readEscape_replaced {spelling : Spelling} {mark : UInt8 → Prop}
    (hmark : spelling.Avoids mark) {c : UInt8} (hc : isNumeric c = true) {a b : Bytes}
    (h : Replaced a b) (ha : Marked spelling mark (backslash :: c :: a)) :
    ∃ p a' q b' k k' x y, a = p ++ a' ∧ b = q ++ b' ∧ Replaced a' b'
      ∧ readEscape (c :: (p ++ a')) = .ok (x, p.drop k ++ a')
      ∧ readEscape (c :: (q ++ b')) = .ok (y, q.drop k' ++ b')
      ∧ (∀ z ∈ p, ¬mark z) ∧ (∀ z ∈ q, ¬mark z) ∧ ¬mark x ∧ ¬mark y
      ∧ backslash ∉ p ∧ backslash ∉ q := by
  have hplain : plainEscape spelling (c, a) = true := by
    have hescapes := ha.escapes
    rw [escapes_pair] at hescapes
    exact hescapes _ List.mem_cons_self
  obtain ⟨p, a', q, b', rfl, rfl, h, hlen, hle, hp, hq, hstop⟩ := h.digits 2
  have hq' : ∀ y ∈ q, isDigitByte y = true := fun y hy => isDigitByte_of_ascii (hq y hy)
  have hback := backslash_not_mem_of_digits hp
  have hstop₁ : p.length < 2 → ∀ x ∈ a'.head?, isDigitByte x = false := fun hlt => (hstop hlt).1
  have hstop₂ : p.length < 2 → ∀ y ∈ b'.head?, isDigitByte y = false := fun hlt => (hstop hlt).2
  have hplain' := plainEscape_digits h hlen hle hp hq hstop₁ hstop₂ hplain
  obtain ⟨k, x, hread, hx⟩ := readEscape_numeric hmark hc hp hle hstop₁ hplain
  obtain ⟨k', y, hread', hy⟩ := readEscape_numeric hmark hc hq' (by omega)
    (fun hlt => hstop₂ (by omega)) hplain'
  refine ⟨p, a', q, b', k, k', x, y, rfl, rfl, h, hread, hread', fun z hz => ?_, fun z hz => ?_,
    hx, hy, hback, backslash_not_mem_of_digits hq'⟩
  · have hloose := ha.pair.loose
    rw [loose_append hback] at hloose
    have hzero : Stands z 48 := .inl ⟨hp z hz, by decide⟩
    rcases hloose z (List.mem_append_left _ hz) 48 hzero with rfl | ⟨hmark, -⟩
    · exact hmark.small 48 (by omega)
    · exact hmark
  · have hbounds := isAsciiDigit_iff.1 (hq z hz)
    have hsmall := hmark.small z.toNat (by omega)
    rwa [show z.toNat.toUInt8 = z from UInt8.ofNat_toNat] at hsmall

/-- What is decoded of a replacement has the marks of what is decoded of the
field. -/
theorem resolve_sameMarks {spelling : Spelling} {mark : UInt8 → Prop}
    (hmark : spelling.Avoids mark) {a b v : Bytes} (h : Replaced a b)
    (ha : Marked spelling mark a) (hv : resolve a = .ok v) :
    ∃ w, resolve b = .ok w ∧ SameMarks mark v w := by
  induction hn : a.length using Nat.strong_induction_on generalizing a b v with
  | h n ih =>
      cases h with
      | nil =>
          obtain rfl : v = [] := by simpa using hv.symm
          exact ⟨[], by simp, .nil⟩
      | stray =>
          rw [resolve_error rfl] at hv
          cases hv
      | @byte x y a b hx hxy h =>
          rw [List.length_cons] at hn
          have hy : y ≠ backslash := fun heq => hx ((hxy.eq_iff (by decide)).1 heq)
          obtain ⟨hloose, hesc⟩ := ha
          rw [loose_cons hx] at hloose
          rw [escapes_cons hx] at hesc
          rw [resolve_cons hx] at hv
          obtain ⟨v, hread, rfl⟩ := map_ok hv
          obtain ⟨w, hw, hvw⟩ := ih _ (by omega) h
            ⟨fun z hz => hloose z (List.mem_cons_of_mem _ hz), hesc⟩ hread rfl
          refine ⟨y :: w, by rw [resolve_cons hy, hw]; rfl, ?_⟩
          rcases hloose x List.mem_cons_self y hxy with rfl | ⟨hmark, hmark'⟩
          · exact .same y hvw
          · exact .single hmark hmark' hvw
      | @pair c a b h =>
          rw [List.length_cons, List.length_cons] at hn
          cases hc : isNumeric c with
          | false =>
              obtain ⟨x, hx⟩ := readEscape_literal hc
              rw [resolve_escape (hx a)] at hv
              obtain ⟨v, hread, rfl⟩ := map_ok hv
              obtain ⟨w, hw, hvw⟩ := ih _ (by omega) h ha.pair hread rfl
              exact ⟨x :: w, by rw [resolve_escape (hx b), hw]; rfl, .same x hvw⟩
          | true =>
              obtain ⟨p, a', q, b', k, k', x, y, rfl, rfl, h', hread, hread', hp, hq, hx, hy, hback,
                hback'⟩ := readEscape_replaced hmark hc h ha
              have hfree := fun hmem => hback (List.mem_of_mem_drop (i := k) hmem)
              have hfree' := fun hmem => hback' (List.mem_of_mem_drop (i := k') hmem)
              rw [resolve_escape hread, resolve_append hfree] at hv
              obtain ⟨v₁, hv₁, rfl⟩ := map_ok hv
              obtain ⟨v₂, hrest, rfl⟩ := map_ok hv₁
              rw [List.length_append] at hn
              obtain ⟨w, hw, hvw⟩ := ih _ (by omega) h' (ha.pair.behind hback) hrest rfl
              refine ⟨y :: (q.drop k' ++ w), ?_, ?_⟩
              · rw [resolve_escape hread', resolve_append hfree', hw]
                rfl
              · refine .run (s := x :: p.drop k) (t := y :: q.drop k') (List.cons_ne_nil _ _)
                  (List.cons_ne_nil _ _) ?_ ?_ hvw
                · simpa using ⟨hx, fun z hz => hp z (List.mem_of_mem_drop hz)⟩
                · simpa using ⟨hy, fun z hz => hq z (List.mem_of_mem_drop hz)⟩

end PgDelta.Anonymise
