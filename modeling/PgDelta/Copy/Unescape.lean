import PgDelta.Copy.RoundTrip
import PgDelta.Lib.Radix

/-!
The escapes of a field, read one byte at a time.

`resolve` is the reference: a byte that is no backslash stands for itself, and
`readEscape` says what a backslash stands for with the bytes behind it. The
decoder copies the run up to the next backslash instead and keeps its digits in
machine words. Both give the same bytes, or the same error.
-/

namespace PgDelta.Copy

open PgDelta.Lib

/-! ### The reference -/

/-- The control byte that a letter names. -/
def controlByte (c : UInt8) : Option UInt8 :=
  if c = 98 then some 8
  else if c = 102 then some 12
  else if c = 110 then some 10
  else if c = 114 then some 13
  else if c = 116 then some 9
  else if c = 118 then some 11
  else none

def isHexDigit (c : UInt8) : Bool := (hexDigit c).isSome

def octalValue (ds : Bytes) : ℕ := ds.foldl (fun n d => n * 8 + (d.toNat - 48)) 0

def hexValue (ds : Bytes) : ℕ := ds.foldl (fun n d => n * 16 + ((hexDigit d).getD 0).toNat) 0

/-- What a backslash stands for with the bytes behind it, and the bytes that it
leaves. Digits are taken greedily. -/
def readEscape : Bytes → Except Error (UInt8 × Bytes)
  | [] => .error .truncatedEscape
  | c :: s =>
    match controlByte c with
    | some b => .ok (b, s)
    | none =>
      if c = 120 then
        let ds := digitRun isHexDigit 2 s
        if ds = [] then .error .invalidHexEscape
        else .ok ((hexValue ds).toUInt8, s.drop ds.length)
      else
        let ds := digitRun isOctalDigit 3 (c :: s)
        if ds = [] then .ok (c, s)
        else .ok ((octalValue ds % 256).toUInt8, (c :: s).drop ds.length)

theorem readEscape_length {s rest : Bytes} {b : UInt8} (h : readEscape s = .ok (b, rest)) :
    rest.length < s.length := by
  cases s with
  | nil => cases h
  | cons c s =>
    rw [readEscape] at h
    cases hc : controlByte c with
    | some b' =>
      rw [hc] at h
      obtain ⟨-, rfl⟩ := Prod.mk.inj (Except.ok.inj h)
      exact Nat.lt_succ_self _
    | none =>
      simp only [hc] at h
      split_ifs at h with hx hnone hnone
      · obtain ⟨-, rfl⟩ := Prod.mk.inj (Except.ok.inj h)
        rw [List.length_drop, List.length_cons]
        omega
      · obtain ⟨-, rfl⟩ := Prod.mk.inj (Except.ok.inj h)
        exact Nat.lt_succ_self _
      · obtain ⟨-, rfl⟩ := Prod.mk.inj (Except.ok.inj h)
        have hpos := List.length_pos_of_ne_nil hnone
        rw [List.length_drop, List.length_cons]
        omega

/-- The bytes that a field stands for. -/
def resolve : Bytes → Except Error Bytes
  | [] => .ok []
  | c :: s =>
    if c ≠ backslash then (resolve s).map (c :: ·)
    else
      match _h : readEscape s with
      | .error e => .error e
      | .ok (b, rest) => (resolve rest).map (b :: ·)
termination_by s => s.length
decreasing_by
  · simp
  · exact (readEscape_length _h).trans (Nat.lt_succ_self _)

@[simp] theorem resolve_nil : resolve [] = .ok [] := by rw [resolve]

theorem resolve_cons {c : UInt8} (hc : c ≠ backslash) (s : Bytes) :
    resolve (c :: s) = (resolve s).map (c :: ·) := by
  rw [resolve, if_pos hc]

theorem resolve_error {s : Bytes} {e : Error} (h : readEscape s = .error e) :
    resolve (backslash :: s) = .error e := by
  rw [resolve, if_neg (not_not.2 rfl)]
  split
  next e' he =>
    rw [h] at he
    rw [Except.error.inj he]
  next b rest hok =>
    rw [h] at hok
    cases hok

theorem resolve_escape {s rest : Bytes} {b : UInt8} (h : readEscape s = .ok (b, rest)) :
    resolve (backslash :: s) = (resolve rest).map (b :: ·) := by
  rw [resolve, if_neg (not_not.2 rfl)]
  split
  next e he =>
    rw [h] at he
    cases he
  next b' rest' hok =>
    rw [h] at hok
    obtain ⟨rfl, rfl⟩ := Prod.mk.inj (Except.ok.inj hok)
    rfl

/-! ### Digits -/

theorem takeOctal_eq (left n : ℕ) (s : Bytes) :
    takeOctal left n s =
      ((digitRun isOctalDigit left s).foldl (fun n d => n * 8 + (d.toNat - 48)) n,
        s.drop (digitRun isOctalDigit left s).length) := by
  induction left generalizing n s with
  | zero => simp [takeOctal]
  | succ left ih =>
    cases s with
    | nil => simp [takeOctal]
    | cons d s =>
      rw [takeOctal]
      cases hd : isOctalDigit d with
      | true => simp [ih, digitRun_cons hd]
      | false => simp [digitRun_cons_of_not hd]

theorem takeHex_eq (left : ℕ) (v : UInt8) (n : ℕ) (s : Bytes) :
    takeHex left v n s =
      ((digitRun isHexDigit left s).foldl (fun (v d : UInt8) => v <<< 4 ||| (hexDigit d).getD 0) v,
        n + (digitRun isHexDigit left s).length,
        s.drop (digitRun isHexDigit left s).length) := by
  induction left generalizing v n s with
  | zero => simp [takeHex]
  | succ left ih =>
    cases s with
    | nil => simp [takeHex]
    | cons d s =>
      rw [takeHex]
      cases hd : hexDigit d with
      | none =>
        have hnot : isHexDigit d = false := by simp [isHexDigit, hd]
        simp [digitRun_cons_of_not hnot]
      | some x =>
        have hdigit : isHexDigit d = true := by simp [isHexDigit, hd]
        simp only [ih, digitRun_cons hdigit]
        simp [hd]
        omega

theorem hexDigit_lt {c d : UInt8} (h : hexDigit c = some d) : d < 16 := by
  have hletter : ∀ a b : UInt8, a ≤ c → c ≤ b → b.toNat = a.toNat + 5 → c - a + 10 < 16 := by
    intro a b hlo hhi hab
    rw [UInt8.le_iff_toNat_le] at hlo hhi
    rw [UInt8.lt_iff_toNat_lt, UInt8.toNat_add, UInt8.toNat_sub_of_le _ _ hlo]
    simp only [UInt8.reduceToNat]
    omega
  unfold hexDigit at h
  split_ifs at h with h₁ h₂ h₃ <;> obtain rfl := Option.some.inj h
  · obtain ⟨hlo, hhi⟩ := h₁
    rw [UInt8.lt_iff_toNat_lt, UInt8.toNat_sub_of_le _ _ hlo]
    rw [UInt8.le_iff_toNat_le] at hhi
    simp only [UInt8.reduceToNat] at hhi ⊢
    omega
  · exact hletter 97 102 h₂.1 h₂.2 rfl
  · exact hletter 65 70 h₃.1 h₃.2 rfl

/-- One or two hexadecimal digits make the same byte either way. -/
theorem hexValue_eq (s : Bytes) :
    (digitRun isHexDigit 2 s).foldl (fun (v d : UInt8) => v <<< 4 ||| (hexDigit d).getD 0) 0
      = (hexValue (digitRun isHexDigit 2 s)).toUInt8 := by
  have hlen := length_digitRun_le isHexDigit 2 s
  have hall : ∀ c ∈ digitRun isHexDigit 2 s, ((hexDigit c).getD 0) < 16 := by
    intro c hc
    have hdigit : isHexDigit c = true := of_mem_digitRun hc
    obtain ⟨d, hd⟩ := Option.isSome_iff_exists.1 hdigit
    rw [hd]
    exact hexDigit_lt hd
  generalize digitRun isHexDigit 2 s = ds at hlen hall ⊢
  obtain _ | ⟨c, _ | ⟨d, _ | ⟨e, ds⟩⟩⟩ := ds
  · rfl
  · simp [hexValue]
  · have hc := hall c (by simp)
    have hd := hall d (by simp)
    simp [hexValue, shiftLeft_four_or hc hd]
  · simp at hlen

/-! ### One escape -/

theorem unescapeOne_of_controlByte {c b : UInt8} (h : controlByte c = some b) (s : Bytes) :
    unescapeOne (c :: s) = .ok (b, s) := by
  unfold controlByte at h
  split_ifs at h <;> obtain rfl := Option.some.inj h <;> subst c <;> rfl

/-- The decoder resolves one escape as the reference does. -/
theorem unescapeOne_eq (s : Bytes) : unescapeOne s = readEscape s := by
  cases s with
  | nil => rfl
  | cons c s =>
    rw [readEscape]
    cases hc : controlByte c with
    | some b => exact unescapeOne_of_controlByte hc s
    | none =>
      unfold controlByte at hc
      split_ifs at hc with hb hf hn hr ht hv
      simp only [unescapeOne, if_neg hb, if_neg hf, if_neg hn, if_neg hr, if_neg ht, if_neg hv]
      by_cases hx : c = 120
      · simp only [if_pos hx, takeHex_eq, Nat.zero_add, hexValue_eq]
        cases digitRun isHexDigit 2 s with
        | nil => simp
        | cons d ds => simp
      · simp only [if_neg hx]
        by_cases hdigit : isOctalDigit c = true
        · have hrun := digitRun_cons hdigit 2 s
          have hvalue : octalValue (c :: digitRun isOctalDigit 2 s)
              = (digitRun isOctalDigit 2 s).foldl (fun n d => n * 8 + (d.toNat - 48))
                (c.toNat - 48) := by
            simp [octalValue]
          simp [hrun, hdigit, takeOctal_eq, hvalue, toUInt8_mod]
        · have hrun := digitRun_cons_of_not (Bool.eq_false_of_not_eq_true hdigit) 3 s
          simp [hrun, hdigit]

/-! ### A whole field -/

theorem map_map_append (r : Except Error Bytes) (b : UInt8) (out : Bytes) :
    (r.map (b :: ·)).map (out ++ ·) = r.map (out ++ [b] ++ ·) := by
  cases r with
  | error e => rfl
  | ok s => simp [Except.map]

/-- The loop appends what the reference reads, for any fuel that is enough. -/
theorem unescapeLoop_eq {fuel : ℕ} {s : Bytes} (h : s.length < fuel) (out : Bytes) :
    unescapeLoop fuel s out = (resolve s).map (out ++ ·) := by
  induction hn : s.length using Nat.strong_induction_on generalizing fuel s out with
  | h n ih =>
    obtain ⟨fuel, rfl⟩ : ∃ m, fuel = m + 1 := ⟨fuel - 1, by omega⟩
    cases s with
    | nil => simp [unescapeLoop_nil, Except.map]
    | cons c s =>
      rw [List.length_cons] at h hn
      by_cases hc : c = backslash
      · subst hc
        cases hread : readEscape s with
        | error e =>
          have hone : unescapeOne s = .error e := by rw [unescapeOne_eq, hread]
          rw [resolve_error hread]
          simp [unescapeLoop, hone, Except.map]
        | ok r =>
          obtain ⟨b, rest⟩ := r
          have hone : unescapeOne s = .ok (b, rest) := by rw [unescapeOne_eq, hread]
          have hlen := readEscape_length hread
          rw [unescapeLoop_escape hone, resolve_escape hread, map_map_append]
          exact ih rest.length (by omega) (by omega) _ rfl
      · rw [unescapeLoop_cons hc, resolve_cons hc, map_map_append]
        exact ih s.length (by omega) (by omega) _ rfl

/-- A field without a backslash stands for itself. -/
theorem resolve_of_not_mem {s : Bytes} (h : backslash ∉ s) : resolve s = .ok s := by
  induction s with
  | nil => exact resolve_nil
  | cons c s ih =>
    obtain ⟨hc, hs⟩ : backslash ≠ c ∧ backslash ∉ s := by simpa using h
    rw [resolve_cons hc.symm, ih hs]
    rfl

theorem unescapeInto_classify {raw : Bytes} (h : raw ≠ nullMarker) (out : Bytes) :
    (classify raw).unescapeInto out = (resolve raw).map (out ++ ·) := by
  unfold classify
  rw [if_neg h]
  split_ifs with hesc
  · exact unescapeLoop_eq (Nat.lt_succ_self _) out
  · have hmem : backslash ∉ raw := memchr_eq_none_iff.1 (by simpa using hesc)
    rw [resolve_of_not_mem hmem]
    rfl

/-- The unescaper gives the bytes of the reference or its error, for an escaped
field whatever its bytes, and for every field as it is classified; and a field
that is classified as plain has no backslash and stands for itself. -/
theorem unescape_into_refines (raw out : Bytes) :
    (Field.escaped raw).unescapeInto out = (resolve raw).map (out ++ ·)
      ∧ (raw ≠ nullMarker → (classify raw).unescapeInto out = (resolve raw).map (out ++ ·))
      ∧ (backslash ∉ raw → classify raw = .plain raw ∧ resolve raw = .ok raw)
      ∧ ∀ b, classify raw = .plain b → b = raw ∧ backslash ∉ raw := by
  refine ⟨unescapeLoop_eq (Nat.lt_succ_self _) out, fun h => unescapeInto_classify h out,
    fun h => ⟨?_, resolve_of_not_mem h⟩, ?_⟩
  · have hne : raw ≠ nullMarker := by
      rintro rfl
      exact h (by decide)
    rw [classify, if_neg hne, if_neg (by simp [memchr_eq_none_iff.2 h])]
  · intro b hb
    unfold classify at hb
    split_ifs at hb with hnull hesc
    exact ⟨(Field.plain.inj hb).symm, memchr_eq_none_iff.1 (by simpa using hesc)⟩

end PgDelta.Copy
