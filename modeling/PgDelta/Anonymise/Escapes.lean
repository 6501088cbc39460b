import PgDelta.Anonymise.Shape
import PgDelta.Copy.Unescape

/-!
What the decoder makes of a field whose bytes were replaced one by one.

A pair of a backslash and the byte behind it stays, so that escapes stand where
they stood. One that is spelled with digits is another matter, as its digits are
replaced like any others.
-/

namespace PgDelta.Anonymise

open PgDelta.Lib PgDelta.Copy

/-! ### Fields before and after -/

/-- What may come in the place of a byte: one of its class, or the byte itself
where it is kept. -/
def Stands (x y : UInt8) : Prop :=
  (isDigitByte x ∧ isAsciiDigit y) ∨ (isLowerByte x ∧ isLowerByte y)
    ∨ (isUpperByte x ∧ isUpperByte y) ∨ (carriedByte x = some x ∧ y = x)

theorem toNat_letter {first place : ℕ} (h : first + place < 256) :
    (letter first place).toNat = first + place := Nat.mod_eq_of_lt h

theorem isAsciiDigit_iff {x : UInt8} : isAsciiDigit x = true ↔ 48 ≤ x.toNat ∧ x.toNat ≤ 57 := by
  rw [isAsciiDigit, Bool.and_eq_true, decide_eq_true_iff, decide_eq_true_iff]
  rfl

theorem isAsciiDigit_digit {place : ℕ} (h : place < 10) : isAsciiDigit (digit place) = true := by
  rw [isAsciiDigit_iff, digit, toNat_letter (by omega)]
  omega

theorem replaceByte_stands (x pick : UInt8) : Stands x (replaceByte x pick) := by
  unfold replaceByte
  split_ifs with hdigit hlower hupper
  · exact .inl ⟨hdigit, isAsciiDigit_digit (Nat.mod_lt _ (by omega))⟩
  · refine .inr (.inl ⟨hlower, ?_⟩)
    have hplace := Nat.mod_lt pick.toNat (show 0 < 26 by omega)
    rw [isLowerByte_iff, toNat_letter (by omega)]
    omega
  · refine .inr (.inr (.inl ⟨hupper, ?_⟩))
    have hplace := Nat.mod_lt pick.toNat (show 0 < 26 by omega)
    rw [isUpperByte_iff, toNat_letter (by omega)]
    omega
  · exact .inr (.inr (.inr ⟨by simp [carriedByte, hdigit, hlower, hupper], rfl⟩))

/-- A byte that is kept stands for itself alone. -/
theorem Stands.eq_iff {x y c : UInt8} (h : Stands x y) (hc : carriedByte c = some c) :
    y = c ↔ x = c := by
  have hnone : ∀ {z : UInt8}, isDigitByte z = true ∨ isLowerByte z = true ∨ isUpperByte z = true →
      z ≠ c := by
    rintro z hz rfl
    have hz : (isDigitByte z || isLowerByte z || isUpperByte z) = true := by
      simpa [or_assoc] using hz
    rw [carriedByte, if_pos hz] at hc
    cases hc
  rcases h with ⟨hx, hy⟩ | ⟨hx, hy⟩ | ⟨hx, hy⟩ | ⟨-, rfl⟩
  · exact iff_of_false (hnone (.inl (isDigitByte_of_ascii hy))) (hnone (.inl hx))
  · exact iff_of_false (hnone (.inr (.inl hy))) (hnone (.inr (.inl hx)))
  · exact iff_of_false (hnone (.inr (.inr hy))) (hnone (.inr (.inr hx)))
  · rfl

theorem Stands.digit {x y : UInt8} (h : Stands x y) (hx : isDigitByte x = true) :
    isAsciiDigit y = true := by
  rcases h with ⟨-, hy⟩ | ⟨hlower, -⟩ | ⟨hupper, -⟩ | ⟨hkept, -⟩
  · exact hy
  · have hbounds := isLowerByte_iff.1 hlower
    rw [isDigitByte_eq_false (by omega)] at hx
    cases hx
  · have hbounds := isUpperByte_iff.1 hupper
    rw [isDigitByte_eq_false (by omega)] at hx
    cases hx
  · simp [carriedByte, hx] at hkept

theorem Stands.not_digit {x y : UInt8} (h : Stands x y) (hx : isDigitByte x = false) :
    isDigitByte y = false := by
  rcases h with ⟨hdigit, -⟩ | ⟨-, hy⟩ | ⟨-, hy⟩ | ⟨-, rfl⟩
  · rw [hx] at hdigit
    cases hdigit
  · have hbounds := isLowerByte_iff.1 hy
    exact isDigitByte_eq_false (by omega)
  · have hbounds := isUpperByte_iff.1 hy
    exact isDigitByte_eq_false (by omega)
  · exact hx

/-- A field, and what may come of it byte by byte. -/
inductive Replaced : Bytes → Bytes → Prop
  | nil : Replaced [] []
  | stray : Replaced [backslash] [backslash]
  | pair (c : UInt8) {a b : Bytes} : Replaced a b →
      Replaced (backslash :: c :: a) (backslash :: c :: b)
  | byte {x y : UInt8} {a b : Bytes} : x ≠ backslash → Stands x y → Replaced a b →
      Replaced (x :: a) (y :: b)

theorem replaceFrom_replaced (noise : Noise) (n : ℕ) (original : Bytes) :
    Replaced original (replaceFrom noise n original) := by
  induction n, original using replaceFrom.induct with
  | case1 n => exact .nil
  | case2 n byte =>
      rw [replaceFrom]
      by_cases hbyte : byte = backslash
      · subst hbyte
        exact .stray
      · exact .byte hbyte (replaceByte_stands byte _) .nil
  | case3 n next rest ih =>
      rw [replaceFrom, if_pos rfl]
      exact .pair next ih
  | case4 n byte next rest hbyte ih =>
      rw [replaceFrom, if_neg hbyte]
      exact .byte hbyte (replaceByte_stands byte _) ih

namespace Replaced

variable {a b : Bytes}

theorem length_eq (h : Replaced a b) : b.length = a.length := by
  induction h with
  | nil => rfl
  | stray => rfl
  | pair c h ih => simp [ih]
  | byte hx hxy h ih => simp [ih]

/-- No byte that is kept comes anew. -/
theorem mem {c : UInt8} (h : Replaced a b) (hc : carriedByte c = some c) (hmem : c ∈ b) :
    c ∈ a := by
  induction h with
  | nil => exact hmem
  | stray => exact hmem
  | pair d h ih =>
      simp only [List.mem_cons] at hmem ⊢
      exact hmem.imp_right (Or.imp_right ih)
  | byte hx hxy h ih =>
      rcases List.mem_cons.1 hmem with rfl | hmem
      · exact List.mem_cons.2 (.inl ((hxy.eq_iff hc).1 rfl).symm)
      · exact List.mem_cons_of_mem _ (ih hmem)

/-- A field of one pair comes of itself alone. -/
theorem eq_pair {c : UInt8} (h : Replaced a [backslash, c]) : a = [backslash, c] := by
  cases h with
  | pair c h =>
      cases h
      rfl
  | byte hx hxy h => exact absurd ((hxy.eq_iff (by decide)).1 rfl) hx

theorem eq_nil (h : Replaced a b) (hb : b = []) : a = [] := by
  have hlen := h.length_eq
  rw [hb, List.length_nil] at hlen
  exact List.eq_nil_of_length_eq_zero hlen.symm

/-- A byte that is kept stands at the end only where it stood there. -/
theorem getLast {c : UInt8} (h : Replaced a b) (hc : carriedByte c = some c)
    (hlast : b.getLast? = some c) : a.getLast? = some c := by
  induction h with
  | nil => exact hlast
  | stray => exact hlast
  | @pair d a b h ih =>
      cases b with
      | nil =>
          rw [h.eq_nil rfl]
          simpa using hlast
      | cons y b =>
          cases a with
          | nil => cases h
          | cons x a => simpa using ih (by simpa using hlast)
  | @byte x y a b hx hxy h ih =>
      cases b with
      | nil =>
          rw [h.eq_nil rfl]
          have hy : y = c := by simpa using hlast
          simpa using (hxy.eq_iff hc).1 hy
      | cons y' b =>
          cases a with
          | nil => cases h
          | cons x' a => simpa using ih (by simpa using hlast)

end Replaced

/-! ### Loose bytes and escapes -/

def loose : Bytes → Bytes
  | [] => []
  | [x] => [x]
  | x :: c :: rest => if x = backslash then loose rest else x :: loose (c :: rest)

def escapes : Bytes → List (UInt8 × Bytes)
  | [] => []
  | [_] => []
  | x :: c :: rest => if x = backslash then (c, rest) :: escapes rest else escapes (c :: rest)

@[simp] theorem loose_pair (c : UInt8) (s : Bytes) : loose (backslash :: c :: s) = loose s := by
  simp [loose]

theorem loose_cons {x : UInt8} (hx : x ≠ backslash) (s : Bytes) :
    loose (x :: s) = x :: loose s := by
  cases s with
  | nil => rfl
  | cons c s => simp [loose, hx]

@[simp] theorem escapes_pair (c : UInt8) (s : Bytes) :
    escapes (backslash :: c :: s) = (c, s) :: escapes s := by
  simp [escapes]

theorem escapes_cons {x : UInt8} (hx : x ≠ backslash) (s : Bytes) :
    escapes (x :: s) = escapes s := by
  cases s with
  | nil => rfl
  | cons c s => simp [escapes, hx]

/-- An escape that is spelled with digits. -/
def isNumeric (c : UInt8) : Bool := c == 120 || isOctalDigit c

/-- No escape is spelled with digits. -/
def Literal (a : Bytes) : Prop := ∀ e ∈ escapes a, isNumeric e.1 = false

/-- An escape without digits is one byte, whatever follows it. -/
theorem readEscape_literal {c : UInt8} (hc : isNumeric c = false) :
    ∃ x, ∀ s, readEscape (c :: s) = .ok (x, s) := by
  obtain ⟨hhex, hoctal⟩ : c ≠ 120 ∧ isOctalDigit c = false := by
    simpa [isNumeric] using hc
  cases hcontrol : controlByte c with
  | some x => exact ⟨x, fun s => by simp [readEscape, hcontrol]⟩
  | none =>
      refine ⟨c, fun s => ?_⟩
      simp [readEscape, hcontrol, hhex, digitRun_cons_of_not hoctal]

theorem map_ok {α β : Type*} {f : α → β} {r : Except Error α} {y : β} (h : r.map f = .ok y) :
    ∃ x, r = .ok x ∧ f x = y := by
  cases r with
  | error e => cases h
  | ok x => exact ⟨x, rfl, Except.ok.inj h⟩

/-- Where no escape is spelled with digits, what is decoded of a replacement
differs from what is decoded of the field in loose bytes alone. -/
theorem resolve_replaced {P : UInt8 → Prop} {a b v : Bytes} (h : Replaced a b) (hlit : Literal a)
    (hP : ∀ x ∈ loose a, P x) (hv : resolve a = .ok v) :
    ∃ w, resolve b = .ok w ∧ List.Forall₂ (fun x y => x = y ∨ (Stands x y ∧ P x)) v w := by
  induction h generalizing v with
  | nil =>
      obtain rfl : v = [] := by simpa using hv.symm
      exact ⟨[], by simp, .nil⟩
  | stray =>
      rw [resolve_error rfl] at hv
      cases hv
  | @pair c a b h ih =>
      obtain ⟨hc, hlit⟩ : isNumeric c = false ∧ Literal a := by
        simpa [Literal] using hlit
      obtain ⟨x, hx⟩ := readEscape_literal hc
      rw [resolve_escape (hx a)] at hv
      obtain ⟨v, hread, rfl⟩ := map_ok hv
      obtain ⟨w, hw, hvw⟩ := ih hlit (by simpa using hP) hread
      refine ⟨x :: w, ?_, .cons (.inl rfl) hvw⟩
      rw [resolve_escape (hx b), hw]
      rfl
  | @byte x y a b hx hxy h ih =>
      have hy : y ≠ backslash := fun heq => hx ((hxy.eq_iff (by decide)).1 heq)
      have hlit : Literal a := by simpa [Literal, escapes_cons hx] using hlit
      have hP : P x ∧ ∀ z ∈ loose a, P z := by simpa [loose_cons hx] using hP
      rw [resolve_cons hx] at hv
      obtain ⟨v, hread, rfl⟩ := map_ok hv
      obtain ⟨w, hw, hvw⟩ := ih hlit hP.2 hread
      refine ⟨y :: w, ?_, .cons (.inr ⟨hxy, hP.1⟩) hvw⟩
      rw [resolve_cons hy, hw]
      rfl

end PgDelta.Anonymise
