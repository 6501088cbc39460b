import Mathlib.Data.List.DropRight
import Mathlib.Tactic

/-!
Byte strings as lists, and the searches that scanning code makes over them:
the first or last position of a byte, slices between two positions, and
trimming of ASCII white space at either end.
-/

namespace PgDelta.Lib

abbrev Bytes := List UInt8

def newline : UInt8 := 10
def carriageReturn : UInt8 := 13
def tab : UInt8 := 9
def backslash : UInt8 := 92

/-- The bytes of a literal made of ASCII characters. -/
def ascii (s : String) : Bytes := s.toList.map fun c => c.toNat.toUInt8

/-- The elements of `s` from position `a` up to, but not including, `b`. -/
def slice {α : Type*} (s : List α) (a b : ℕ) : List α := (s.take b).drop a

@[simp] theorem length_slice {α : Type*} (s : List α) (a b : ℕ) :
    (slice s a b).length = min b s.length - a := by
  simp [slice]

theorem slice_zero {α : Type*} (s : List α) (b : ℕ) : slice s 0 b = s.take b := rfl

/-! ### First and last position of an element -/

section Search

variable {α : Type*} [DecidableEq α]

/-- Position of the first `b` in a list. -/
def memchr (b : α) : List α → Option ℕ
  | [] => none
  | c :: s => if c = b then some 0 else (memchr b s).map (· + 1)

/-- Position of the last `b` in a list. -/
def memrchr (b : α) : List α → Option ℕ
  | [] => none
  | c :: s =>
    match memrchr b s with
    | some i => some (i + 1)
    | none => if c = b then some 0 else none

@[simp] theorem memchr_nil (b : α) : memchr b [] = none := rfl

@[simp] theorem memchr_cons_self (b : α) (s : List α) : memchr b (b :: s) = some 0 := by
  simp [memchr]

theorem memchr_cons_of_ne {b c : α} (h : c ≠ b) (s : List α) :
    memchr b (c :: s) = (memchr b s).map (· + 1) := by
  simp [memchr, h]

theorem memchr_eq_none_iff {b : α} {s : List α} : memchr b s = none ↔ b ∉ s := by
  induction s with
  | nil => simp
  | cons c s ih =>
      by_cases h : c = b
      · simp [memchr, h]
      · simp [memchr, h, ih, Ne.symm h]

/-- A search runs over a prefix without the byte and stops right behind it. -/
theorem memchr_append_cons {b : α} {l : List α} (hl : b ∉ l) (s : List α) :
    memchr b (l ++ b :: s) = some l.length := by
  induction l with
  | nil => simp
  | cons c l ih =>
      have hc : c ≠ b := fun h => hl (by simp [h])
      rw [List.cons_append, memchr_cons_of_ne hc, ih (fun h => hl (by simp [h]))]
      simp

theorem memchr_eq_some {b : α} {s : List α} {i : ℕ} (h : memchr b s = some i) :
    s = s.take i ++ b :: s.drop (i + 1) ∧ b ∉ s.take i ∧ i < s.length := by
  induction s generalizing i with
  | nil => simp at h
  | cons c s ih =>
      by_cases hc : c = b
      · subst hc
        obtain rfl : i = 0 := by simpa using h.symm
        simp
      · rw [memchr_cons_of_ne hc, Option.map_eq_some_iff] at h
        obtain ⟨j, hj, rfl⟩ := h
        obtain ⟨hsplit, hfree, hlt⟩ := ih hj
        refine ⟨?_, ?_, by simpa using hlt⟩
        · simpa using hsplit
        · simpa [Ne.symm hc] using hfree

theorem memrchr_eq_none_iff {b : α} {s : List α} : memrchr b s = none ↔ b ∉ s := by
  induction s with
  | nil => simp [memrchr]
  | cons c s ih =>
      cases hs : memrchr b s with
      | none =>
          have hfree := ih.mp hs
          by_cases hc : c = b
          · simp [memrchr, hs, hc]
          · simp [memrchr, hs, hc, hfree, Ne.symm hc]
      | some i =>
          have hmem : b ∈ s := by
            by_contra hfree
            rw [ih.mpr hfree] at hs
            cases hs
          simp [memrchr, hs, hmem]

theorem memrchr_eq_some {b : α} {s : List α} {i : ℕ} (h : memrchr b s = some i) :
    s = s.take i ++ b :: s.drop (i + 1) ∧ b ∉ s.drop (i + 1) ∧ i < s.length := by
  induction s generalizing i with
  | nil => simp [memrchr] at h
  | cons c s ih =>
      cases hs : memrchr b s with
      | none =>
          by_cases hc : c = b
          · subst hc
            obtain rfl : i = 0 := by simpa [memrchr, hs] using h.symm
            simpa using memrchr_eq_none_iff.mp hs
          · simp [memrchr, hs, hc] at h
      | some j =>
          obtain rfl : i = j + 1 := by simpa [memrchr, hs] using h.symm
          obtain ⟨hsplit, hfree, hlt⟩ := ih hs
          exact ⟨by simpa using hsplit, by simpa using hfree, by simpa using hlt⟩

theorem getElem?_of_memrchr {b : α} {s : List α} {i : ℕ} (h : memrchr b s = some i) :
    s[i]? = some b := by
  obtain ⟨hsplit, -, hlt⟩ := memrchr_eq_some h
  rw [hsplit, List.getElem?_append_right (by simp)]
  simp [min_eq_left hlt.le]

end Search

/-! ### ASCII case and white space -/

def isAsciiWhitespace (b : UInt8) : Bool :=
  b == 32 || b == 9 || b == 10 || b == 12 || b == 13

def isAsciiDigit (b : UInt8) : Bool := 48 ≤ b && b ≤ 57

def toAsciiLowercase (b : UInt8) : UInt8 := if 65 ≤ b && b ≤ 90 then b + 32 else b

def eqIgnoreAsciiCase (s t : Bytes) : Bool :=
  s.map toAsciiLowercase == t.map toAsciiLowercase

def trimAsciiStart (s : Bytes) : Bytes := s.dropWhile isAsciiWhitespace

def trimAsciiEnd (s : Bytes) : Bytes := s.rdropWhile isAsciiWhitespace

def trimAscii (s : Bytes) : Bytes := trimAsciiEnd (trimAsciiStart s)

end PgDelta.Lib
