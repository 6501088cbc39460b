import PgDelta.Anonymise.Synth

/-!
What a replacement tells about the field that it stands for.

Two fields of one shape get the noise of the same place, so that a replacement
can differ only where a byte of the field itself is carried through: at a
backslash and the byte behind it, and at the bytes of characters outside ASCII.
-/

namespace PgDelta.Anonymise

open PgDelta.Lib

/-! ### Fields of one shape -/

inductive FieldKind
  | boolean | date | timestamp | number | other
  deriving DecidableEq, Repr

/-- The kind that a field falls in. -/
def kind (original : Bytes) : FieldKind :=
  if original = [116] ∨ original = [102] then .boolean
  else if looksLikeDate original then .date
  else if looksLikeTimestamp original then .timestamp
  else if looksLikeNumber original then .number
  else .other

/-- Two letters or digits of one class, encoded in the same length. Outside of
ASCII any two characters of one length count, whatever their classes are. -/
inductive SameClass : Char → Char → Prop
  | digit {x y : Char} : x.isDigit → y.isDigit → SameClass x y
  | lower {x y : Char} : x.isLower → y.isLower → SameClass x y
  | upper {x y : Char} : x.isUpper → y.isUpper → SameClass x y
  | wide {x y : Char} : 128 ≤ x.toNat → 128 ≤ y.toNat → lenUtf8 x = lenUtf8 y → SameClass x y

/-- Two fields that differ only in letters and digits, each of which has one of
its class in its place. -/
inductive Similar : Bytes → Bytes → Prop
  | nil : Similar [] []
  | same (byte : UInt8) {a b : Bytes} : Similar a b → Similar (byte :: a) (byte :: b)
  | swap {x y : Char} {a b : Bytes} : SameClass x y → Similar a b →
      Similar (String.utf8EncodeChar x ++ a) (String.utf8EncodeChar y ++ b)

def carriedByte (byte : UInt8) : Option UInt8 :=
  if isDigitByte byte || isLowerByte byte || isUpperByte byte then none else some byte

/-- The bytes of a field that replacing it byte by byte carries through, at
their places. -/
def carried : Bytes → List (Option UInt8)
  | [] => []
  | [byte] => [carriedByte byte]
  | byte :: next :: rest =>
    if byte = backslash then some byte :: some next :: carried rest
    else carriedByte byte :: carried (next :: rest)

/-! ### Similar fields byte by byte -/

def Alike (x y : UInt8) : Prop :=
  x = y ∨ (isAsciiDigit x ∧ isAsciiDigit y) ∨ (isLowerByte x ∧ isLowerByte y)
    ∨ (isUpperByte x ∧ isUpperByte y) ∨ (128 ≤ x ∧ 128 ≤ y)

theorem utf8EncodeChar_of_lt {c : Char} (h : c.toNat < 128) :
    String.utf8EncodeChar c = [c.toNat.toUInt8] := by
  unfold String.utf8EncodeChar
  have hle : c.val.toNat ≤ 0x7f := by
    change c.toNat ≤ 0x7f
    omega
  rw [if_pos hle]
  rfl

theorem le_of_mem_utf8EncodeChar {c : Char} (h : 128 ≤ c.toNat) {b : UInt8}
    (hb : b ∈ String.utf8EncodeChar c) : 128 ≤ b := by
  rw [UInt8.le_iff_toNat_le]
  rcases mem_utf8EncodeChar hb with heq | hle
  · change b.toNat = c.toNat at heq
    exact le_of_le_of_eq h heq.symm
  · exact hle

theorem forall₂_of_wide : ∀ {a b : Bytes}, a.length = b.length → (∀ x ∈ a, 128 ≤ x) →
    (∀ y ∈ b, 128 ≤ y) → List.Forall₂ Alike a b
  | [], [], _, _, _ => .nil
  | x :: a, y :: b, hlen, ha, hb => by
      refine .cons (.inr (.inr (.inr (.inr ⟨ha x List.mem_cons_self, hb y List.mem_cons_self⟩)))) ?_
      exact forall₂_of_wide (by simpa using hlen) (fun x hx => ha x (List.mem_cons_of_mem _ hx))
        fun y hy => hb y (List.mem_cons_of_mem _ hy)

/-- A character between two of ASCII is encoded in one byte between theirs. -/
theorem encode_within {x : Char} (lo hi : Char) (hlo : lo.val ≤ x.val) (hhi : x.val ≤ hi.val)
    (h : hi.toNat < 128) :
    ∃ byte, String.utf8EncodeChar x = [byte] ∧ lo.toNat ≤ byte.toNat ∧ byte.toNat ≤ hi.toNat := by
  have hlo : lo.toNat ≤ x.toNat := hlo
  have hhi : x.toNat ≤ hi.toNat := hhi
  have hbyte : (x.toNat.toUInt8).toNat = x.toNat := Nat.mod_eq_of_lt (by omega)
  refine ⟨_, utf8EncodeChar_of_lt (by omega), ?_⟩
  rw [hbyte]
  exact ⟨hlo, hhi⟩

theorem within_of_toNat {byte : UInt8} (lo hi : UInt8) (hlo : lo.toNat ≤ byte.toNat)
    (hhi : byte.toNat ≤ hi.toNat) : (decide (lo ≤ byte) && decide (byte ≤ hi)) = true := by
  rw [Bool.and_eq_true, decide_eq_true_iff, decide_eq_true_iff, UInt8.le_iff_toNat_le,
    UInt8.le_iff_toNat_le]
  exact ⟨hlo, hhi⟩

theorem encode_digit {x : Char} (h : x.isDigit) :
    ∃ byte, String.utf8EncodeChar x = [byte] ∧ isAsciiDigit byte = true := by
  simp only [Char.isDigit, Bool.and_eq_true, decide_eq_true_iff] at h
  obtain ⟨byte, hencode, hlo, hhi⟩ := encode_within '0' '9' h.1 h.2 (by decide)
  exact ⟨byte, hencode, within_of_toNat 48 57 hlo hhi⟩

theorem encode_lower {x : Char} (h : x.isLower) :
    ∃ byte, String.utf8EncodeChar x = [byte] ∧ isLowerByte byte = true := by
  have hbounds : (decide (x.val ≥ 'a'.val) && decide (x.val ≤ 'z'.val)) = true := h
  rw [Bool.and_eq_true, decide_eq_true_iff, decide_eq_true_iff] at hbounds
  obtain ⟨byte, hencode, hlo, hhi⟩ := encode_within 'a' 'z' hbounds.1 hbounds.2 (by decide)
  exact ⟨byte, hencode, within_of_toNat 97 122 hlo hhi⟩

theorem encode_upper {x : Char} (h : x.isUpper) :
    ∃ byte, String.utf8EncodeChar x = [byte] ∧ isUpperByte byte = true := by
  have hbounds : x.val ≥ 'A'.val ∧ x.val ≤ 'Z'.val := of_decide_eq_true h
  obtain ⟨byte, hencode, hlo, hhi⟩ := encode_within 'A' 'Z' hbounds.1 hbounds.2 (by decide)
  exact ⟨byte, hencode, within_of_toNat 65 90 hlo hhi⟩

/-- The encodings of two characters of one class are alike byte by byte. -/
theorem SameClass.alike {x y : Char} (h : SameClass x y) :
    List.Forall₂ Alike (String.utf8EncodeChar x) (String.utf8EncodeChar y) := by
  cases h with
  | digit hx hy =>
      obtain ⟨byte, hencode, hclass⟩ := encode_digit hx
      obtain ⟨byte', hencode', hclass'⟩ := encode_digit hy
      rw [hencode, hencode']
      exact .cons (.inr (.inl ⟨hclass, hclass'⟩)) .nil
  | lower hx hy =>
      obtain ⟨byte, hencode, hclass⟩ := encode_lower hx
      obtain ⟨byte', hencode', hclass'⟩ := encode_lower hy
      rw [hencode, hencode']
      exact .cons (.inr (.inr (.inl ⟨hclass, hclass'⟩))) .nil
  | upper hx hy =>
      obtain ⟨byte, hencode, hclass⟩ := encode_upper hx
      obtain ⟨byte', hencode', hclass'⟩ := encode_upper hy
      rw [hencode, hencode']
      exact .cons (.inr (.inr (.inr (.inl ⟨hclass, hclass'⟩)))) .nil
  | wide hx hy hlen =>
      exact forall₂_of_wide hlen (fun _ => le_of_mem_utf8EncodeChar hx)
        fun _ => le_of_mem_utf8EncodeChar hy

theorem Similar.alike {a b : Bytes} (h : Similar a b) : List.Forall₂ Alike a b := by
  induction h with
  | nil => exact .nil
  | same byte h ih => exact .cons (.inl rfl) ih
  | swap hclass h ih => exact List.rel_append hclass.alike ih

/-! ### The classes of bytes -/

theorem isDigitByte_of_ascii {x : UInt8} (h : isAsciiDigit x = true) : isDigitByte x = true := by
  simp [isDigitByte, h]

theorem isLowerByte_iff {x : UInt8} : isLowerByte x = true ↔ 97 ≤ x.toNat ∧ x.toNat ≤ 122 := by
  rw [isLowerByte, Bool.and_eq_true, decide_eq_true_iff, decide_eq_true_iff]
  rfl

theorem isUpperByte_iff {x : UInt8} : isUpperByte x = true ↔ 65 ≤ x.toNat ∧ x.toNat ≤ 90 := by
  rw [isUpperByte, Bool.and_eq_true, decide_eq_true_iff, decide_eq_true_iff]
  rfl

theorem isDigitByte_eq_false {x : UInt8} (h : 58 ≤ x.toNat ∧ x.toNat ≤ 127) :
    isDigitByte x = false := by
  rw [Bool.eq_false_iff]
  simp only [isDigitByte, isAsciiDigit, Bool.or_eq_true, Bool.and_eq_true, decide_eq_true_iff,
    beq_iff_eq, ne_eq, UInt8.le_iff_toNat_le, ← UInt8.toNat_inj]
  have h57 : (57 : UInt8).toNat = 57 := rfl
  have h178 : (0xB2 : UInt8).toNat = 178 := rfl
  have h179 : (0xB3 : UInt8).toNat = 179 := rfl
  have h185 : (0xB9 : UInt8).toNat = 185 := rfl
  omega

/-- A byte that is neither letter nor digit has only itself for a like. -/
theorem Alike.eq_iff {x y c : UInt8} (h : Alike x y) (hc : c < 128)
    (hkept : carriedByte c = some c) : x = c ↔ y = c := by
  obtain ⟨hdigit, hlower, hupper⟩ :
      isDigitByte c = false ∧ isLowerByte c = false ∧ isUpperByte c = false := by
    unfold carriedByte at hkept
    split_ifs at hkept with hclass
    simpa [and_assoc] using hclass
  have hascii : isAsciiDigit c = false := by
    simp only [isDigitByte, Bool.or_eq_false_iff] at hdigit
    exact hdigit.1.1.1
  rcases h with rfl | ⟨hx, hy⟩ | ⟨hx, hy⟩ | ⟨hx, hy⟩ | ⟨hx, hy⟩
  · rfl
  · constructor <;> rintro rfl <;> simp_all
  · constructor <;> rintro rfl <;> simp_all
  · constructor <;> rintro rfl <;> simp_all
  · constructor <;> rintro rfl
    · exact absurd hc (UInt8.not_lt.2 hx)
    · exact absurd hc (UInt8.not_lt.2 hy)

theorem letter_lt {first place : ℕ} (h : first + place < 128) : letter first place < 128 := by
  rw [UInt8.lt_iff_toNat_lt]
  change (first + place) % 256 < 128
  omega

theorem replaceByte_of_digit {x : UInt8} (h : isDigitByte x = true) (pick : UInt8) :
    replaceByte x pick = letter 48 (pick.toNat % 10) ∧ carriedByte x = none := by
  simp [replaceByte, carriedByte, h]

theorem replaceByte_of_lower {x : UInt8} (h : isLowerByte x = true) (pick : UInt8) :
    replaceByte x pick = letter 97 (pick.toNat % 26) ∧ carriedByte x = none := by
  have hdigit := isDigitByte_eq_false (x := x) (by have := isLowerByte_iff.1 h; omega)
  simp [replaceByte, carriedByte, h, hdigit]

theorem replaceByte_of_upper {x : UInt8} (h : isUpperByte x = true) (pick : UInt8) :
    replaceByte x pick = letter 65 (pick.toNat % 26) ∧ carriedByte x = none := by
  have hbounds := isUpperByte_iff.1 h
  have hdigit := isDigitByte_eq_false (x := x) (by omega)
  have hlower : isLowerByte x = false := by
    rw [Bool.eq_false_iff, Ne, isLowerByte_iff]
    omega
  simp [replaceByte, carriedByte, h, hdigit, hlower]

/-- A byte of a character outside ASCII is carried through, unless Latin-1 has
a digit there. -/
theorem replaceByte_of_wide {x : UInt8} (hwide : 128 ≤ x) (h : isDigitByte x = false)
    (pick : UInt8) : replaceByte x pick = x ∧ carriedByte x = some x := by
  have hle := UInt8.le_iff_toNat_le.1 hwide
  have hle : 128 ≤ x.toNat := hle
  have hlower : isLowerByte x = false := by
    rw [Bool.eq_false_iff, Ne, isLowerByte_iff]
    omega
  have hupper : isUpperByte x = false := by
    rw [Bool.eq_false_iff, Ne, isUpperByte_iff]
    omega
  simp [replaceByte, carriedByte, h, hlower, hupper]

theorem replaceByte_eq_iff {x y : UInt8} (h : Alike x y) (pick : UInt8) :
    replaceByte x pick = replaceByte y pick ↔ carriedByte x = carriedByte y := by
  rcases h with rfl | ⟨hx, hy⟩ | ⟨hx, hy⟩ | ⟨hx, hy⟩ | ⟨hx, hy⟩
  · simp
  · obtain ⟨hreplaced, hcarried⟩ := replaceByte_of_digit (isDigitByte_of_ascii hx) pick
    obtain ⟨hreplaced', hcarried'⟩ := replaceByte_of_digit (isDigitByte_of_ascii hy) pick
    simp [hreplaced, hcarried, hreplaced', hcarried']
  · obtain ⟨hreplaced, hcarried⟩ := replaceByte_of_lower hx pick
    obtain ⟨hreplaced', hcarried'⟩ := replaceByte_of_lower hy pick
    simp [hreplaced, hcarried, hreplaced', hcarried']
  · obtain ⟨hreplaced, hcarried⟩ := replaceByte_of_upper hx pick
    obtain ⟨hreplaced', hcarried'⟩ := replaceByte_of_upper hy pick
    simp [hreplaced, hcarried, hreplaced', hcarried']
  · -- of two bytes outside ASCII, one replaced and one not are told apart by their range
    have hdigit : letter 48 (pick.toNat % 10) < 128 := letter_lt (by omega)
    cases hx' : isDigitByte x <;> cases hy' : isDigitByte y
    · simp [replaceByte_of_wide hx hx' pick, replaceByte_of_wide hy hy' pick]
    · obtain ⟨hreplaced, hcarried⟩ := replaceByte_of_wide hx hx' pick
      obtain ⟨hreplaced', hcarried'⟩ := replaceByte_of_digit hy' pick
      rw [hreplaced, hcarried, hreplaced', hcarried']
      have hne : x ≠ letter 48 (pick.toNat % 10) := fun h => UInt8.not_lt.2 hx (h ▸ hdigit)
      simp [hne]
    · obtain ⟨hreplaced, hcarried⟩ := replaceByte_of_digit hx' pick
      obtain ⟨hreplaced', hcarried'⟩ := replaceByte_of_wide hy hy' pick
      rw [hreplaced, hcarried, hreplaced', hcarried']
      have hne : letter 48 (pick.toNat % 10) ≠ y := fun h => UInt8.not_lt.2 hy (h ▸ hdigit)
      simp [hne]
    · obtain ⟨hreplaced, hcarried⟩ := replaceByte_of_digit hx' pick
      obtain ⟨hreplaced', hcarried'⟩ := replaceByte_of_digit hy' pick
      simp [hreplaced, hcarried, hreplaced', hcarried']

/-- Bytes that are replaced leave nothing of themselves, and the others all. -/
theorem replaceFrom_eq_iff (noise : Noise) {a b : Bytes} (h : List.Forall₂ Alike a b) (n : ℕ) :
    replaceFrom noise n a = replaceFrom noise n b ↔ carried a = carried b := by
  induction n, a using replaceFrom.induct generalizing b with
  | case1 n =>
      cases h
      simp
  | case2 n byte =>
      obtain ⟨byte', rest, hbyte, hrest, rfl⟩ := List.forall₂_cons_left_iff.1 h
      cases hrest
      simpa [replaceFrom, carried] using replaceByte_eq_iff hbyte _
  | case3 n next rest ih =>
      obtain ⟨byte', rest', hbyte, hrest', rfl⟩ := List.forall₂_cons_left_iff.1 h
      obtain ⟨next', rest', hnext, hrest, rfl⟩ := List.forall₂_cons_left_iff.1 hrest'
      have hslash : byte' = backslash := (hbyte.eq_iff (by decide) (by decide)).1 rfl
      rw [hslash, replaceFrom, if_pos rfl, replaceFrom, if_pos rfl, carried, if_pos rfl, carried,
        if_pos rfl]
      simp only [List.cons.injEq, true_and, Option.some.injEq, ih hrest]
  | case4 n byte next rest hslash ih =>
      obtain ⟨byte', rest', hbyte, hrest', rfl⟩ := List.forall₂_cons_left_iff.1 h
      obtain ⟨next', rest', hnext, hrest, rfl⟩ := List.forall₂_cons_left_iff.1 hrest'
      have hslash' : byte' ≠ backslash := fun heq =>
        hslash ((hbyte.eq_iff (by decide) (by decide)).2 heq)
      rw [replaceFrom, if_neg hslash, replaceFrom, if_neg hslash', carried, if_neg hslash, carried,
        if_neg hslash', List.cons.injEq, List.cons.injEq, ih hrest', replaceByte_eq_iff hbyte]

/-! ### Values of a kind -/

/-- What a field becomes is a matter of its kind, and of its form where it is a
number. -/
theorem typed_eq (original : Bytes) (noise : Noise) :
    typed original noise =
      match kind original with
      | .boolean => some (if noise.pick 0 2 ≠ 0 then [116] else [102])
      | .date => some (encoded (date noise))
      | .timestamp => some (encoded (date noise ++ ' ' :: clock noise))
      | .number => some (synthNumber original noise)
      | .other => none := by
  unfold typed kind
  split_ifs <;> rfl

theorem forall₂_takeWhile {α : Type*} {R : α → α → Prop} {p : α → Bool}
    (hp : ∀ x y, R x y → p x = p y) {a b : List α} (h : List.Forall₂ R a b) :
    List.Forall₂ R (a.takeWhile p) (b.takeWhile p) := by
  induction h with
  | nil => exact .nil
  | cons hxy h ih =>
      rw [List.takeWhile_cons, List.takeWhile_cons, ← hp _ _ hxy]
      split_ifs
      · exact .cons hxy ih
      · exact .nil

theorem forall₂_dropWhile {α : Type*} {R : α → α → Prop} {p : α → Bool}
    (hp : ∀ x y, R x y → p x = p y) {a b : List α} (h : List.Forall₂ R a b) :
    List.Forall₂ R (a.dropWhile p) (b.dropWhile p) := by
  induction h with
  | nil => exact .nil
  | cons hxy h ih =>
      rw [List.dropWhile_cons, List.dropWhile_cons, ← hp _ _ hxy]
      split_ifs
      · exact ih
      · exact .cons hxy h

theorem isSign_alike {x y : UInt8} (h : Alike x y) : isSign x = isSign y := by
  have hplus := h.eq_iff (c := 43) (by decide) (by decide)
  have hminus := h.eq_iff (c := 45) (by decide) (by decide)
  rw [Bool.eq_iff_iff]
  simp [isSign, hplus, hminus]

theorem point_alike {x y : UInt8} (h : Alike x y) : (x != 46) = (y != 46) := by
  have hpoint := h.eq_iff (c := 46) (by decide) (by decide)
  rw [Bool.eq_iff_iff]
  simp [hpoint]

/-- Of a number, its sign and the lengths of its two parts are used. -/
theorem synthNumber_eq {a b : Bytes} (h : List.Forall₂ Alike a b) (noise : Noise) :
    synthNumber a noise = synthNumber b noise := by
  have hdigits := forall₂_dropWhile (R := Alike) (fun _ _ => isSign_alike) h
  have hwhole : (wholeDigits a).length = (wholeDigits b).length :=
    (forall₂_takeWhile (R := Alike) (fun _ _ => point_alike) hdigits).length_eq
  have hfrac : (fracDigits a).length = (fracDigits b).length := by
    unfold fracDigits
    rw [List.length_drop, List.length_drop,
      (forall₂_dropWhile (R := Alike) (fun _ _ => point_alike) hdigits).length_eq]
  have hsign : a.head? = some 45 ↔ b.head? = some 45 := by
    cases h with
    | nil => rfl
    | cons hxy h => simpa using hxy.eq_iff (by decide) (by decide)
  unfold synthNumber
  rw [hwhole, hfrac]
  simp only [hsign]

/-! ### The replacement of similar fields -/

/-- Two similar fields of one kind are replaced by the same bytes just in case
the kind has rules or they carry the same bytes through. -/
theorem Synth.field_eq_iff (synth : Synth) (table : String) (column row : ℕ) {a b : Bytes}
    (h : Similar a b) (hkind : kind a = kind b) :
    synth.field table column row a = synth.field table column row b ↔
      kind a ≠ .other ∨ carried a = carried b := by
  have halike := h.alike
  unfold Synth.field
  rw [← halike.length_eq]
  generalize synth.stream _ = noise
  simp only [typed_eq, ← hkind, synthNumber_eq halike noise]
  cases kind a with
  | other => simpa [byCharacterClass] using replaceFrom_eq_iff noise halike 0
  | boolean => simp
  | date => simp
  | timestamp => simp
  | number => simp

/-- A generator whose hash is a row of zeros. -/
def Synth.zeros : Synth where
  key := []
  blake2b := fun _ _ => List.replicate 32 0
  length_blake2b := by simp

theorem Synth.field_eq_iff_names :
    Synth.zeros.field "public.users" 1 4 (utf8 "Ann 1") =
      Synth.zeros.field "public.users" 1 4 (utf8 "Bob 7") :=
  (Synth.zeros.field_eq_iff "public.users" 1 4
    (.swap (x := 'A') (y := 'B') (.upper rfl rfl)
      (.swap (x := 'n') (y := 'o') (.lower rfl rfl)
        (.swap (x := 'n') (y := 'b') (.lower rfl rfl)
          (.same 32 (.swap (x := '1') (y := '7') (.digit rfl rfl) .nil))))) (by decide)).2
    (.inr (by decide))

/-- The letters é and è are of one class and of two bytes each, and both come
through as they are. -/
theorem Synth.field_counterexample :
    Similar (utf8 "é") (utf8 "è") ∧ kind (utf8 "é") = kind (utf8 "è") ∧
      ∀ (synth : Synth) (table : String) (column row : ℕ),
        synth.field table column row (utf8 "é") = utf8 "é" ∧
        synth.field table column row (utf8 "è") = utf8 "è" ∧
        synth.field table column row (utf8 "é") ≠ synth.field table column row (utf8 "è") := by
  have hkept : ∀ (synth : Synth) (table : String) (column row : ℕ),
      synth.field table column row (utf8 "é") = utf8 "é" ∧
        synth.field table column row (utf8 "è") = utf8 "è" := fun _ _ _ _ => ⟨rfl, rfl⟩
  refine ⟨.swap (x := 'é') (y := 'è') (.wide (by decide) (by decide) rfl) .nil, by decide, ?_⟩
  intro synth table column row
  obtain ⟨hacute, hgrave⟩ := hkept synth table column row
  refine ⟨hacute, hgrave, ?_⟩
  rw [hacute, hgrave]
  decide

end PgDelta.Anonymise
