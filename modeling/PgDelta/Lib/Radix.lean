import PgDelta.Lib.Bytes

/-!
Bytes that are written as digits of a base: runs of digits at the start of a
text, and the two digits of a byte to the base sixteen.
-/

namespace PgDelta.Lib

/-- Up to `n` bytes from the start of `s` that pass the test. -/
def digitRun (p : UInt8 → Bool) (n : ℕ) (s : Bytes) : Bytes := (s.takeWhile p).take n

@[simp] theorem digitRun_zero (p : UInt8 → Bool) (s : Bytes) : digitRun p 0 s = [] := rfl

@[simp] theorem digitRun_nil (p : UInt8 → Bool) (n : ℕ) : digitRun p n [] = [] :=
  List.take_nil

theorem digitRun_cons {p : UInt8 → Bool} {c : UInt8} (h : p c = true) (n : ℕ) (s : Bytes) :
    digitRun p (n + 1) (c :: s) = c :: digitRun p n s := by
  rw [digitRun, List.takeWhile_cons_of_pos h, List.take_succ_cons, digitRun]

theorem digitRun_cons_of_not {p : UInt8 → Bool} {c : UInt8} (h : p c = false) (n : ℕ) (s : Bytes) :
    digitRun p n (c :: s) = [] := by
  rw [digitRun, List.takeWhile_cons_of_neg (by simp [h]), List.take_nil]

theorem length_digitRun_le (p : UInt8 → Bool) (n : ℕ) (s : Bytes) : (digitRun p n s).length ≤ n :=
  List.length_take_le _ _

theorem of_mem_digitRun {p : UInt8 → Bool} {n : ℕ} {s : Bytes} {c : UInt8}
    (h : c ∈ digitRun p n s) : p c = true :=
  List.mem_takeWhile_imp (List.mem_of_mem_take h)

theorem toUInt8_mod (n : ℕ) : (n % 256).toUInt8 = n.toUInt8 := by
  apply UInt8.toNat_inj.1
  simp

/-- Two digits to the base sixteen are put together without a carry. -/
theorem shiftLeft_four_or {a b : UInt8} (ha : a < 16) (hb : b < 16) :
    a <<< 4 ||| b = (a.toNat * 16 + b.toNat).toUInt8 := by
  have ha : a.toNat < 16 := ha
  have hb : b.toNat < 2 ^ 4 := hb
  apply UInt8.toNat_inj.1
  have hshift : a.toNat <<< 4 = a.toNat * 16 := Nat.shiftLeft_eq a.toNat 4
  have hbyte : (a <<< 4).toNat = a.toNat <<< 4 := by
    rw [UInt8.toNat_shiftLeft, hshift]
    show a.toNat <<< 4 % 256 = _
    omega
  have hvalue : (a.toNat * 16 + b.toNat).toUInt8.toNat = a.toNat * 16 + b.toNat := by
    rw [UInt8.toNat_ofNat']
    omega
  rw [UInt8.toNat_or, hbyte, ← Nat.shiftLeft_add_eq_or_of_lt hb, hshift, hvalue]

end PgDelta.Lib
