import PgDelta.Lib.Bytes

/-!
UTF-8 as a byte-at-a-time machine. An ill-formed sequence is replaced, up to
the first byte that cannot continue it, by one U+FFFD, and that byte is read
again as the start of the next sequence.
-/

namespace PgDelta.Lib

def utf8 (s : String) : Bytes := s.toList.flatMap String.utf8EncodeChar

def replacementChar : Char := Char.ofNat 0xFFFD

/-- Where the decoder stands between two bytes. In `more acc lo hi left` the
bytes so far contribute `acc`, the next byte has to lie between `lo` and `hi`,
and `left` further continuation bytes follow it. -/
inductive Utf8State
  | start
  | more (acc lo hi left : ℕ)

/-- The first byte of a sequence. -/
def utf8First (b : ℕ) : Option Char × Utf8State :=
  if b < 0x80 then (some (Char.ofNat b), .start)
  else if b < 0xC2 then (some replacementChar, .start)
  else if b < 0xE0 then (none, .more (b - 0xC0) 0x80 0xBF 0)
  else if b = 0xE0 then (none, .more 0 0xA0 0xBF 1)
  else if b = 0xED then (none, .more 0xD 0x80 0x9F 1)
  else if b < 0xF0 then (none, .more (b - 0xE0) 0x80 0xBF 1)
  else if b = 0xF0 then (none, .more 0 0x90 0xBF 2)
  else if b < 0xF4 then (none, .more (b - 0xF0) 0x80 0xBF 2)
  else if b = 0xF4 then (none, .more 4 0x80 0x8F 2)
  else (some replacementChar, .start)

def utf8DecodeFrom : Utf8State → Bytes → List Char
  | .start, [] => []
  | .more _ _ _ _, [] => [replacementChar]
  | .start, b :: s => (utf8First b.toNat).1.toList ++ utf8DecodeFrom (utf8First b.toNat).2 s
  | .more acc lo hi left, b :: s =>
    if lo ≤ b.toNat ∧ b.toNat ≤ hi then
      match left with
      | 0 => Char.ofNat (acc * 64 + b.toNat % 64) :: utf8DecodeFrom .start s
      | left + 1 => utf8DecodeFrom (.more (acc * 64 + b.toNat % 64) 0x80 0xBF left) s
    else
      replacementChar :: ((utf8First b.toNat).1.toList ++ utf8DecodeFrom (utf8First b.toNat).2 s)

/-- `String::from_utf8_lossy`. -/
def fromUtf8Lossy (s : Bytes) : String := String.ofList (utf8DecodeFrom .start s)

theorem utf8DecodeFrom_start (b : UInt8) (s : Bytes) :
    utf8DecodeFrom .start (b :: s) =
      (utf8First b.toNat).1.toList ++ utf8DecodeFrom (utf8First b.toNat).2 s := rfl

theorem utf8DecodeFrom_last {acc lo hi : ℕ} {b : UInt8} (s : Bytes)
    (h : lo ≤ b.toNat ∧ b.toNat ≤ hi) :
    utf8DecodeFrom (.more acc lo hi 0) (b :: s) =
      Char.ofNat (acc * 64 + b.toNat % 64) :: utf8DecodeFrom .start s := by
  simp [utf8DecodeFrom, h]

theorem utf8DecodeFrom_more {acc lo hi left : ℕ} {b : UInt8} (s : Bytes)
    (h : lo ≤ b.toNat ∧ b.toNat ≤ hi) :
    utf8DecodeFrom (.more acc lo hi (left + 1)) (b :: s) =
      utf8DecodeFrom (.more (acc * 64 + b.toNat % 64) 0x80 0xBF left) s := by
  simp [utf8DecodeFrom, h]

/-- The first byte of a three-byte sequence, and what may follow it. -/
theorem utf8First_three {b : ℕ} (hlo : 0xE0 ≤ b) (hhi : b < 0xF0) :
    utf8First b = (none, .more (b - 0xE0) (if b = 0xE0 then 0xA0 else 0x80)
      (if b = 0xED then 0x9F else 0xBF) 1) := by
  unfold utf8First
  split_ifs <;>
    first | omega | (simp only [Prod.mk.injEq, Utf8State.more.injEq, true_and, and_true] <;> omega)

/-- The first byte of a four-byte sequence, and what may follow it. -/
theorem utf8First_four {b : ℕ} (hlo : 0xF0 ≤ b) (hhi : b ≤ 0xF4) :
    utf8First b = (none, .more (b - 0xF0) (if b = 0xF0 then 0x90 else 0x80)
      (if b = 0xF4 then 0x8F else 0xBF) 2) := by
  unfold utf8First
  split_ifs <;>
    first | omega | (simp only [Prod.mk.injEq, Utf8State.more.injEq, true_and, and_true] <;> omega)

/-- Decoding the encoding of a character gives it back. -/
theorem utf8DecodeFrom_encodeChar (c : Char) (s : Bytes) :
    utf8DecodeFrom .start (String.utf8EncodeChar c ++ s) = c :: utf8DecodeFrom .start s := by
  have hv : c.val.toNat.isValidChar := c.valid
  have hc : Char.ofNat c.val.toNat = c := Char.ofNat_toNat c
  have hbyte : ∀ k < 256, (UInt8.ofNat k).toNat = k := fun k hk => by
    simpa using Nat.mod_eq_of_lt hk
  unfold String.utf8EncodeChar
  generalize c.val.toNat = n at hv hc ⊢
  -- One case for each length of the sequence.
  by_cases h1 : n ≤ 0x7f
  · simp only [h1, if_true, List.cons_append, List.nil_append]
    have hfirst : utf8First n = (some (Char.ofNat n), .start) := by
      rw [utf8First, if_pos (by omega)]
    rw [utf8DecodeFrom_start, hbyte n (by omega), hfirst, hc]
    rfl
  by_cases h2 : n ≤ 0x7ff
  · simp only [h1, h2, if_true, if_false, List.cons_append, List.nil_append]
    have hfirst : utf8First (n / 64 % 32 + 0xC0) = (none, .more (n / 64 % 32) 0x80 0xBF 0) := by
      rw [utf8First, if_neg (by omega), if_neg (by omega), if_pos (by omega), Nat.add_sub_cancel]
    rw [utf8DecodeFrom_start, hbyte _ (by omega), hfirst,
      utf8DecodeFrom_last _ (by rw [hbyte _ (by omega)]; omega), hbyte _ (by omega)]
    have hn : n / 64 % 32 * 64 + (n % 64 + 0x80) % 64 = n := by omega
    rw [hn, hc]
    rfl
  by_cases h3 : n ≤ 0xffff
  · simp only [h1, h2, h3, if_true, if_false, List.cons_append, List.nil_append]
    rw [utf8DecodeFrom_start, hbyte _ (by omega), utf8First_three (by omega) (by omega)]
    rw [utf8DecodeFrom_more _ (by rw [hbyte _ (by omega)]; split_ifs <;> omega),
      hbyte _ (by omega), utf8DecodeFrom_last _ (by rw [hbyte _ (by omega)]; omega),
      hbyte _ (by omega)]
    have hn : ((n / 4096 % 16 + 0xE0 - 0xE0) * 64 + (n / 64 % 64 + 0x80) % 64) * 64 +
        (n % 64 + 0x80) % 64 = n := by omega
    rw [hn, hc]
    rfl
  · simp only [h1, h2, h3, if_false, List.cons_append, List.nil_append]
    rw [utf8DecodeFrom_start, hbyte _ (by omega), utf8First_four (by omega) (by omega)]
    rw [utf8DecodeFrom_more _ (by rw [hbyte _ (by omega)]; split_ifs <;> omega),
      hbyte _ (by omega), utf8DecodeFrom_more _ (by rw [hbyte _ (by omega)]; omega),
      hbyte _ (by omega), utf8DecodeFrom_last _ (by rw [hbyte _ (by omega)]; omega),
      hbyte _ (by omega)]
    have hn : (((n / 262144 % 8 + 0xF0 - 0xF0) * 64 + (n / 4096 % 64 + 0x80) % 64) * 64 +
        (n / 64 % 64 + 0x80) % 64) * 64 + (n % 64 + 0x80) % 64 = n := by omega
    rw [hn, hc]
    rfl

theorem utf8DecodeFrom_flatMap_append (cs : List Char) (s : Bytes) :
    utf8DecodeFrom .start (cs.flatMap String.utf8EncodeChar ++ s) =
      cs ++ utf8DecodeFrom .start s := by
  induction cs with
  | nil => rfl
  | cons c cs ih =>
    rw [List.flatMap_cons, List.append_assoc, utf8DecodeFrom_encodeChar, ih, List.cons_append]

theorem utf8DecodeFrom_flatMap (cs : List Char) :
    utf8DecodeFrom .start (cs.flatMap String.utf8EncodeChar) = cs := by
  have h := utf8DecodeFrom_flatMap_append cs []
  rwa [List.append_nil, utf8DecodeFrom, List.append_nil] at h

theorem utf8DecodeFrom_other {acc lo hi left : ℕ} {b : UInt8} (s : Bytes)
    (h : ¬(lo ≤ b.toNat ∧ b.toNat ≤ hi)) :
    utf8DecodeFrom (.more acc lo hi left) (b :: s) =
      replacementChar :: utf8DecodeFrom .start (b :: s) := by
  simp [utf8DecodeFrom, h]

/-- No sequence goes on with an ASCII byte. -/
def Utf8State.NotAscii : Utf8State → Prop
  | .start => True
  | .more _ lo _ _ => 0x80 ≤ lo

theorem notAscii_utf8First (b : ℕ) : (utf8First b).2.NotAscii := by
  unfold utf8First
  split_ifs <;> simp [Utf8State.NotAscii]

/-- An ASCII byte is a character of its own, whatever stands in front of it. -/
theorem utf8DecodeFrom_append_ascii {w : UInt8} (hw : w.toNat < 0x80) (b s : Bytes)
    {st : Utf8State} (hst : st.NotAscii) :
    utf8DecodeFrom st (b ++ w :: s) =
      utf8DecodeFrom st b ++ Char.ofNat w.toNat :: utf8DecodeFrom .start s := by
  induction b generalizing st with
  | nil =>
    have hfirst : utf8First w.toNat = (some (Char.ofNat w.toNat), .start) := by
      rw [utf8First, if_pos hw]
    have htail : utf8DecodeFrom .start (w :: s)
        = Char.ofNat w.toNat :: utf8DecodeFrom .start s := by
      rw [utf8DecodeFrom_start, hfirst]
      rfl
    cases st with
    | start => exact htail
    | more acc lo hi left =>
      have hlo : 0x80 ≤ lo := hst
      rw [List.nil_append, utf8DecodeFrom_other _ (by omega), htail]
      rfl
  | cons c b ih =>
    have hstart : utf8DecodeFrom .start (c :: b ++ w :: s) =
        utf8DecodeFrom .start (c :: b) ++ Char.ofNat w.toNat :: utf8DecodeFrom .start s := by
      rw [List.cons_append, utf8DecodeFrom_start, utf8DecodeFrom_start,
        ih (notAscii_utf8First c.toNat), List.append_assoc]
    cases st with
    | start => exact hstart
    | more acc lo hi left =>
      by_cases hrange : lo ≤ c.toNat ∧ c.toNat ≤ hi
      · cases left with
        | zero =>
          rw [List.cons_append, utf8DecodeFrom_last _ hrange, utf8DecodeFrom_last _ hrange,
            ih (show Utf8State.start.NotAscii from trivial), List.cons_append]
        | succ left =>
          have hmore : (Utf8State.more (acc * 64 + c.toNat % 64) 0x80 0xBF left).NotAscii :=
            Nat.le_refl 0x80
          rw [List.cons_append, utf8DecodeFrom_more _ hrange, utf8DecodeFrom_more _ hrange,
            ih hmore]
      · rw [List.cons_append, utf8DecodeFrom_other _ hrange, utf8DecodeFrom_other _ hrange,
          List.cons_append]
        exact congrArg _ hstart

@[simp] theorem fromUtf8Lossy_utf8 (s : String) : fromUtf8Lossy (utf8 s) = s := by
  rw [fromUtf8Lossy, utf8, utf8DecodeFrom_flatMap, String.ofList_toList]

/-- A byte of an encoded character is the character itself, when that is
ASCII, or lies above the ASCII range. -/
theorem mem_utf8EncodeChar {b : UInt8} {c : Char} (h : b ∈ String.utf8EncodeChar c) :
    b.toNat = c.val.toNat ∨ 0x80 ≤ b.toNat := by
  have hbyte : ∀ k < 256, (UInt8.ofNat k).toNat = k := fun k hk => by
    simpa using Nat.mod_eq_of_lt hk
  unfold String.utf8EncodeChar at h
  generalize c.val.toNat = n at h ⊢
  by_cases h1 : n ≤ 0x7f
  · simp only [h1, if_true, List.mem_singleton] at h
    exact .inl (by rw [h, hbyte n (by omega)])
  · right
    by_cases h2 : n ≤ 0x7ff
    · simp only [h1, h2, if_true, if_false, List.mem_cons, List.not_mem_nil, or_false] at h
      rcases h with rfl | rfl <;> rw [hbyte _ (by omega)] <;> omega
    by_cases h3 : n ≤ 0xffff
    · simp only [h1, h2, h3, if_true, if_false, List.mem_cons, List.not_mem_nil, or_false] at h
      rcases h with rfl | rfl | rfl <;> rw [hbyte _ (by omega)] <;> omega
    · simp only [h1, h2, h3, if_false, List.mem_cons, List.not_mem_nil, or_false] at h
      rcases h with rfl | rfl | rfl | rfl <;> rw [hbyte _ (by omega)] <;> omega

theorem newline_mem_utf8 {s : String} (h : newline ∈ utf8 s) : '\n' ∈ s.toList := by
  obtain ⟨c, hc, hb⟩ := List.mem_flatMap.mp h
  rcases mem_utf8EncodeChar hb with hval | hval
  · have hcn : c = '\n' := Char.ext (UInt32.toNat_inj.mp hval.symm)
    rwa [← hcn]
  · exact absurd hval (by decide)

/-- The character that a sequence ends with is not ASCII. -/
def Utf8State.Wide : Utf8State → Prop
  | .start => True
  | .more acc lo hi left => hi ≤ 0xBF ∧ (2 ≤ acc ∨ 0 < left ∧ (1 ≤ acc ∨ 0x82 ≤ lo))

theorem wide_utf8First (b : ℕ) : (utf8First b).2.Wide := by
  unfold utf8First
  split_ifs <;> simp [Utf8State.Wide] <;> omega

theorem ofNat_ne_newline {n : ℕ} (h : n ≠ 10) : Char.ofNat n ≠ '\n' := by
  intro hn
  have hnat : (Char.ofNat n).val.toNat = 10 := by rw [hn]; rfl
  by_cases hvalid : n.isValidChar
  · rw [Char.ofNat, dif_pos hvalid] at hnat
    exact h hnat
  · rw [Char.ofNat, dif_neg hvalid] at hnat
    exact absurd hnat (by decide)

theorem newline_not_mem_utf8DecodeFrom {s : Bytes} (h : newline ∉ s) {st : Utf8State}
    (hst : st.Wide) : '\n' ∉ utf8DecodeFrom st s := by
  have hreplacement : replacementChar ≠ '\n' := ofNat_ne_newline (by decide)
  induction s generalizing st with
  | nil =>
    cases st with
    | start => simp [utf8DecodeFrom]
    | more acc lo hi left => simpa [utf8DecodeFrom] using hreplacement.symm
  | cons b s ih =>
    obtain ⟨hb, hs⟩ : b ≠ newline ∧ newline ∉ s := by simpa [eq_comm] using h
    have hb : b.toNat ≠ 10 := fun hnat => hb (UInt8.toNat_inj.mp hnat)
    have hfirst : '\n' ∉ (utf8First b.toNat).1.toList := by
      unfold utf8First
      split_ifs <;> simp [hreplacement.symm, (ofNat_ne_newline hb).symm]
    have hstart : '\n' ∉ utf8DecodeFrom .start (b :: s) := by
      rw [utf8DecodeFrom_start, List.mem_append, not_or]
      exact ⟨hfirst, ih hs (wide_utf8First b.toNat)⟩
    cases st with
    | start => exact hstart
    | more acc lo hi left =>
      obtain ⟨hhi, hwide⟩ : hi ≤ 0xBF ∧ (2 ≤ acc ∨ 0 < left ∧ (1 ≤ acc ∨ 0x82 ≤ lo)) := hst
      by_cases hrange : lo ≤ b.toNat ∧ b.toNat ≤ hi
      · cases left with
        | zero =>
          have hchar : Char.ofNat (acc * 64 + b.toNat % 64) ≠ '\n' := ofNat_ne_newline (by omega)
          rw [utf8DecodeFrom_last _ hrange, List.mem_cons, not_or]
          exact ⟨hchar.symm, ih hs trivial⟩
        | succ left =>
          rw [utf8DecodeFrom_more _ hrange]
          apply ih hs
          exact ⟨le_refl _, .inl (by omega)⟩
      · rw [utf8DecodeFrom_other _ hrange, List.mem_cons, not_or]
        exact ⟨hreplacement.symm, hstart⟩

/-- Bytes without a newline decode to a text without one. -/
theorem newline_not_mem_fromUtf8Lossy {s : Bytes} (h : newline ∉ s) :
    '\n' ∉ (fromUtf8Lossy s).toList := by
  rw [fromUtf8Lossy, String.toList_ofList]
  exact newline_not_mem_utf8DecodeFrom h trivial

end PgDelta.Lib
