import PgDelta.Anonymise.Kinds
import PgDelta.Anonymise.Marks
import PgDelta.Types.ArrayValues

/-!
Text that is replaced in bytes of ASCII alone is text again.

Where whole runs of such bytes are exchanged, the characters outside ASCII stay
together. Where single ones are, the texts are alike character by character.
-/

namespace PgDelta.Anonymise

open PgDelta.Lib PgDelta.Builders

/-! ### Runs of ASCII -/

theorem fromUtf8_flatMap (t : Text) : fromUtf8 (t.flatMap String.utf8EncodeChar) = some t := by
  have h := fromUtf8_utf8 (String.ofList t)
  rwa [utf8, String.toList_ofList] at h

theorem flatMap_of_fromUtf8 {v : Bytes} {t : Text} (h : fromUtf8 v = some t) :
    v = t.flatMap String.utf8EncodeChar := by
  have h := fromUtf8_eq_some h
  rwa [utf8, String.toList_ofList] at h

def asciiChar (y : UInt8) : Char := Char.ofNat y.toNat

theorem toNat_asciiChar {y : UInt8} (h : y < 128) : (asciiChar y).toNat = y.toNat := by
  have hlt : y.toNat < 128 := UInt8.lt_iff_toNat_lt.1 h
  unfold asciiChar Char.ofNat
  rw [dif_pos (Or.inl (by omega))]
  rfl

theorem encode_asciiChar {y : UInt8} (h : y < 128) : String.utf8EncodeChar (asciiChar y) = [y] := by
  have hlt : y.toNat < 128 := UInt8.lt_iff_toNat_lt.1 h
  have hchar := toNat_asciiChar h
  rw [utf8EncodeChar_of_lt (by omega), hchar]
  exact congrArg (fun z => [z]) UInt8.ofNat_toNat

theorem encode_ascii {s : Bytes} (h : ∀ y ∈ s, y < 128) :
    (s.map asciiChar).flatMap String.utf8EncodeChar = s := by
  induction s with
  | nil => rfl
  | cons y s ih =>
      rw [List.map_cons, List.flatMap_cons, encode_asciiChar (h y List.mem_cons_self),
        ih fun z hz => h z (List.mem_cons_of_mem _ hz)]
      rfl

/-- A character is a byte of ASCII, or bytes that are none. -/
theorem encode_cases (c : Char) :
    (∃ x, String.utf8EncodeChar c = [x] ∧ x < 128 ∧ x.toNat = c.toNat)
      ∨ (∀ x ∈ String.utf8EncodeChar c, 128 ≤ x) ∧ 128 ≤ c.toNat := by
  by_cases h : c.toNat < 128
  · refine .inl ⟨_, utf8EncodeChar_of_lt h, ?_, Nat.mod_eq_of_lt (by omega)⟩
    rw [UInt8.lt_iff_toNat_lt]
    exact lt_of_eq_of_lt (Nat.mod_eq_of_lt (by omega)) h
  · exact .inr ⟨fun _ => le_of_mem_utf8EncodeChar (by omega), by omega⟩

/-- A byte of ASCII at the front is a character. -/
theorem cons_of_flatMap {x : UInt8} (hx : x < 128) {v : Bytes} {t : Text}
    (h : x :: v = t.flatMap String.utf8EncodeChar) :
    ∃ t', t = asciiChar x :: t' ∧ v = t'.flatMap String.utf8EncodeChar := by
  cases t with
  | nil => cases h
  | cons c t =>
      rw [List.flatMap_cons] at h
      rcases encode_cases c with ⟨y, hy, -, hnat⟩ | ⟨hwide, -⟩
      · rw [hy, List.singleton_append] at h
        obtain ⟨rfl, hv⟩ := List.cons.inj h
        have hc : c = asciiChar x := Char.toNat_inj.1 (by rw [toNat_asciiChar hx, hnat])
        exact ⟨t, by rw [hc], hv⟩
      · cases hc : String.utf8EncodeChar c with
        | nil => exact absurd hc String.utf8EncodeChar_ne_nil
        | cons y ys =>
            rw [hc, List.cons_append] at h
            have hle := hwide y (by rw [hc]; exact List.mem_cons_self)
            rw [← (List.cons.inj h).1] at hle
            exact absurd hx (UInt8.not_lt.2 hle)

/-- What is left of a text behind some bytes of ASCII is a text. -/
theorem flatMap_drop_ascii {t : Text} {s v : Bytes} (hs : ∀ y ∈ s, y < 128)
    (h : t.flatMap String.utf8EncodeChar = s ++ v) :
    ∃ t' : Text, v = t'.flatMap String.utf8EncodeChar ∧ t'.length ≤ t.length := by
  induction s generalizing t with
  | nil => exact ⟨t, h.symm, le_rfl⟩
  | cons y s ih =>
      have hy := hs y List.mem_cons_self
      obtain ⟨t, rfl, hbehind⟩ := cons_of_flatMap hy h.symm
      obtain ⟨t', hv, hle⟩ := ih (fun z hz => hs z (List.mem_cons_of_mem _ hz)) hbehind.symm
      exact ⟨t', hv, hle.trans (Nat.le_succ _)⟩

/-- Bytes outside ASCII are the marks of a text. -/
def Wide (x : UInt8) : Prop := 128 ≤ x

theorem text_of_sameMarks {t : Text} {w : Bytes}
    (h : SameMarks Wide (t.flatMap String.utf8EncodeChar) w) :
    ∃ u : Text, w = u.flatMap String.utf8EncodeChar := by
  induction hn : t.length using Nat.strong_induction_on generalizing t w with
  | h n ih =>
      cases t with
      | nil =>
          rw [List.flatMap_nil] at h
          generalize hv : ([] : Bytes) = v at h
          cases h with
          | nil => exact ⟨[], rfl⟩
          | mark hx h => cases hv
          | run hs ht hsfree htfree h =>
              exact absurd (List.append_eq_nil_iff.1 hv.symm).1 hs
      | cons c t =>
          rw [List.length_cons] at hn
          rw [List.flatMap_cons] at h
          rcases encode_cases c with ⟨x, hx, hlt, -⟩ | ⟨hwide, -⟩
          · -- a run of ASCII ends in front of a character, so that what follows is a text
            rw [hx, List.singleton_append] at h
            obtain ⟨s, r, v, w, hsplit, rfl, -, hs, hr, hbehind⟩ :=
              h.of_not_mark (UInt8.not_le.2 hlt)
            obtain ⟨t', rfl, hle⟩ :=
              flatMap_drop_ascii (fun y hy => UInt8.not_le.1 (hs y hy)) hsplit
            obtain ⟨u, rfl⟩ := ih _ (by omega) hbehind rfl
            refine ⟨r.map asciiChar ++ u, ?_⟩
            rw [List.flatMap_append, encode_ascii fun y hy => UInt8.not_le.1 (hr y hy)]
          · obtain ⟨w, rfl, hbehind⟩ := h.of_marks hwide
            obtain ⟨u, rfl⟩ := ih _ (by omega) hbehind rfl
            exact ⟨c :: u, by rw [List.flatMap_cons]⟩

/-! ### Characters one by one -/

/-- A relation of bytes that differ in ASCII alone. -/
def AsciiOnly (R : UInt8 → UInt8 → Prop) : Prop := ∀ x y, R x y → x = y ∨ (x < 128 ∧ y < 128)

/-- Characters that are the same, or of one byte each and related by it. -/
def OfBytes (R : UInt8 → UInt8 → Prop) (c d : Char) : Prop :=
  c = d ∨ (c.toNat < 128 ∧ d.toNat < 128 ∧ R c.toNat.toUInt8 d.toNat.toUInt8)

theorem forall₂_append_left {α β : Type*} {R : α → β → Prop} {a b : List α} {w : List β}
    (h : List.Forall₂ R (a ++ b) w) :
    ∃ w₁ w₂, List.Forall₂ R a w₁ ∧ List.Forall₂ R b w₂ ∧ w = w₁ ++ w₂ := by
  induction a generalizing w with
  | nil => exact ⟨[], w, .nil, h, rfl⟩
  | cons x a ih =>
      obtain ⟨y, w, hxy, hrest, rfl⟩ := List.forall₂_cons_left_iff.1 h
      obtain ⟨w₁, w₂, hw₁, hw₂, rfl⟩ := ih hrest
      exact ⟨y :: w₁, w₂, .cons hxy hw₁, hw₂, rfl⟩

theorem text_of_forall₂ {R : UInt8 → UInt8 → Prop} (hR : AsciiOnly R) {t : Text} {w : Bytes}
    (h : List.Forall₂ R (t.flatMap String.utf8EncodeChar) w) :
    ∃ u : Text, w = u.flatMap String.utf8EncodeChar ∧ List.Forall₂ (OfBytes R) t u := by
  induction t generalizing w with
  | nil =>
      obtain rfl := List.forall₂_nil_left_iff.1 h
      exact ⟨[], rfl, .nil⟩
  | cons c t ih =>
      rw [List.flatMap_cons] at h
      obtain ⟨w₁, w₂, hw₁, hw₂, rfl⟩ : ∃ w₁ w₂, List.Forall₂ R (String.utf8EncodeChar c) w₁
          ∧ List.Forall₂ R (t.flatMap String.utf8EncodeChar) w₂ ∧ w = w₁ ++ w₂ :=
        forall₂_append_left h
      obtain ⟨u, rfl, hu⟩ := ih hw₂
      rcases encode_cases c with ⟨x, hx, hlt, hnat⟩ | ⟨hwide, -⟩
      · rw [hx] at hw₁
        obtain ⟨y, w₁, hxy, hnil, rfl⟩ := List.forall₂_cons_left_iff.1 hw₁
        obtain rfl := List.forall₂_nil_left_iff.1 hnil
        have hy : y < 128 := by
          rcases hR x y hxy with rfl | ⟨-, hy⟩
          · exact hlt
          · exact hy
        have hylt : y.toNat < 128 := UInt8.lt_iff_toNat_lt.1 hy
        have hchar := toNat_asciiChar hy
        refine ⟨asciiChar y :: u, by rw [List.flatMap_cons, encode_asciiChar hy],
          .cons (.inr ?_) hu⟩
        have hxlt : x.toNat < 128 := UInt8.lt_iff_toNat_lt.1 hlt
        refine ⟨by omega, by omega, ?_⟩
        rw [← hnat, hchar, show x.toNat.toUInt8 = x from UInt8.ofNat_toNat,
          show y.toNat.toUInt8 = y from UInt8.ofNat_toNat]
        exact hxy
      · have hsame : ∀ {v w : Bytes}, (∀ x ∈ v, 128 ≤ x) → List.Forall₂ R v w → v = w := by
          intro v w hv h
          induction h with
          | nil => rfl
          | @cons x y v w hxy h ih =>
              have hx := hv x List.mem_cons_self
              rcases hR x y hxy with rfl | ⟨hlt, -⟩
              · rw [ih fun z hz => hv z (List.mem_cons_of_mem _ hz)]
              · exact absurd hlt (UInt8.not_lt.2 hx)
        obtain rfl := hsame hwide hw₁
        exact ⟨c :: u, by rw [List.flatMap_cons], .cons (.inl rfl) hu⟩

end PgDelta.Anonymise
