import PgDelta.Types.Dates

/-!
The replacement of field values in a dump that is to be shown to others.

The noise that a replacement is made from is a keyed hash of where the field
stands and of its length. A field that looks like a truth value, a date, a
timestamp or a number becomes a value of that kind, and any other field is
rewritten byte by byte.
-/

namespace PgDelta.Anonymise

open PgDelta.Lib PgDelta.Values

/-! ### Noise -/

/-- The bytes that one field is replaced from. -/
structure Noise where
  bytes : Bytes
  long : 4096 ≤ bytes.length

/-- The byte at a position, counted around the end. -/
def Noise.byte (noise : Noise) (index : ℕ) : UInt8 :=
  noise.bytes.get ⟨index % noise.bytes.length, Nat.mod_lt _ (by have := noise.long; omega)⟩

def Noise.pick (noise : Noise) (index modulo : ℕ) : ℕ := (noise.byte index).toNat % modulo

theorem Noise.pick_lt (noise : Noise) (index : ℕ) {modulo : ℕ} (h : 0 < modulo) :
    noise.pick index modulo < modulo := Nat.mod_lt _ h

/-- The generator, with the hash of `hashlib` and a key. -/
structure Synth where
  key : Bytes
  /-- `blake2b` with a digest size of 32, of a key and the data. -/
  blake2b : Bytes → Bytes → Bytes
  length_blake2b : ∀ key data, (blake2b key data).length = 32

def bigEndian (counter : ℕ) : Bytes := [24, 16, 8, 0].map fun shift => (counter >>> shift).toUInt8

namespace Synth

variable (synth : Synth)

def extend (seed : Bytes) (counter : ℕ) (out : Bytes) : Bytes :=
  if out.length < 4096 then
    extend seed (counter + 1) (out ++ synth.blake2b synth.key (seed ++ bigEndian (counter + 1)))
  else out
termination_by 4096 - out.length
decreasing_by
  rw [List.length_append, synth.length_blake2b]
  omega

theorem le_length_extend (seed : Bytes) (counter : ℕ) (out : Bytes) :
    4096 ≤ (synth.extend seed counter out).length := by
  induction counter, out using extend.induct synth seed with
  | case1 counter out hshort ih =>
    rw [extend, if_pos hshort]
    exact ih
  | case2 counter out hlong =>
    rw [extend, if_neg hlong]
    omega

def stream (parts : List String) : Noise :=
  let seed := synth.blake2b synth.key ([124].intercalate (parts.map utf8))
  ⟨synth.extend seed 0 seed, synth.le_length_extend seed 0 seed⟩

end Synth

/-! ### The kinds of fields -/

/-- `\d{n}` at the front, and what is behind it. -/
def skipDigits : ℕ → Bytes → Option Bytes
  | 0, s => some s
  | _ + 1, [] => none
  | n + 1, c :: s => if isAsciiDigit c then skipDigits n s else none

/-- One byte of a set at the front, and what is behind it. -/
def skipOne (p : UInt8 → Bool) : Bytes → Option Bytes
  | [] => none
  | c :: s => if p c then some s else none

def isSign (c : UInt8) : Bool := c == 43 || c == 45

/-- `\d{4}-\d{2}-\d{2}` -/
def skipDate (s : Bytes) : Option Bytes := do
  let s ← skipDigits 4 s
  let s ← skipOne (· == 45) s
  let s ← skipDigits 2 s
  let s ← skipOne (· == 45) s
  skipDigits 2 s

/-- `\d{2}:\d{2}:\d{2}` -/
def skipClock (s : Bytes) : Option Bytes := do
  let s ← skipDigits 2 s
  let s ← skipOne (· == 58) s
  let s ← skipDigits 2 s
  let s ← skipOne (· == 58) s
  skipDigits 2 s

/-- `(\.\d+)?` -/
def skipFraction (s : Bytes) : Bytes :=
  match (skipOne (· == 46) s).bind (skipDigits 1) with
  | some rest => rest.dropWhile isAsciiDigit
  | none => s

/-- `[+-]?` -/
def skipSign (s : Bytes) : Bytes := (skipOne isSign s).getD s

/-- `([+-]\d{2}(:?\d{2})?)?`, up to the end. -/
def isOffset (s : Bytes) : Bool :=
  s.isEmpty ||
    match (skipOne isSign s).bind (skipDigits 2) with
    | none => false
    | some rest =>
      rest.isEmpty || skipDigits 2 ((skipOne (· == 58) rest).getD rest) == some []

def looksLikeDate (s : Bytes) : Bool := skipDate s == some []

def looksLikeTimestamp (s : Bytes) : Bool :=
  (((skipDate s).bind (skipOne fun c => c == 32 || c == 84)).bind skipClock).any
    fun rest => isOffset (skipFraction rest)

/-- `[+-]?\d+(\.\d+)?` -/
def looksLikeNumber (s : Bytes) : Bool :=
  ((skipDigits 1 (skipSign s)).map fun rest => skipFraction (rest.dropWhile isAsciiDigit))
    == some []

/-! ### Replacements -/

/-- The characters that replace others, by their place in their row: digits
from 48 on, small letters from 97 on and capitals from 65 on. -/
def letter (first place : ℕ) : UInt8 := (first + place).toUInt8

def digit (place : ℕ) : UInt8 := letter 48 place

def encoded (s : Text) : Bytes := s.map fun c => c.toNat.toUInt8

/-- A date that every month has. -/
def date (noise : Noise) : Text :=
  isoDate (1970 + noise.pick 0 60) (1 + noise.pick 1 12) (1 + noise.pick 2 28)

def clock (noise : Noise) : Text :=
  padded 2 (noise.pick 6 24) ++
    ':' :: (padded 2 (noise.pick 7 60) ++ ':' :: padded 2 (noise.pick 8 60))

/-- The digits of a number in front of its point, and those behind it. -/
def wholeDigits (s : Bytes) : Bytes := (s.dropWhile isSign).takeWhile (· != 46)

def fracDigits (s : Bytes) : Bytes := ((s.dropWhile isSign).dropWhile (· != 46)).drop 1

/-- The first digit of several is not a zero. -/
def synthWhole (noise : Noise) (width : ℕ) : Bytes :=
  (List.range width).map fun i =>
    digit (if i = 0 ∧ 1 < width then noise.pick i 9 + 1 else noise.pick i 10)

def synthFrac (noise : Noise) (width : ℕ) : Bytes :=
  if width = 0 then []
  else 46 :: (List.range width).map fun i => digit (noise.pick (20 + i) 10)

def synthNumber (original : Bytes) (noise : Noise) : Bytes :=
  (if original.head? = some 45 then [45] else [])
    ++ synthWhole noise (wholeDigits original).length
    ++ synthFrac noise (fracDigits original).length

/-- A value of the kind that a field is of, where the kind has rules. -/
def typed (original : Bytes) (noise : Noise) : Option Bytes :=
  if original = [116] ∨ original = [102] then
    some (if noise.pick 0 2 ≠ 0 then [116] else [102])
  else if looksLikeDate original then
    some (encoded (date noise))
  else if looksLikeTimestamp original then
    some (encoded (date noise ++ ' ' :: clock noise))
  else if looksLikeNumber original then
    some (synthNumber original noise)
  else none

/-- `chr(byte).isdigit()`: the superscripts of Latin-1 are digits too. -/
def isDigitByte (byte : UInt8) : Bool :=
  isAsciiDigit byte || byte == 0xB2 || byte == 0xB3 || byte == 0xB9

def isLowerByte (byte : UInt8) : Bool := 97 ≤ byte && byte ≤ 122

def isUpperByte (byte : UInt8) : Bool := 65 ≤ byte && byte ≤ 90

/-- What a byte becomes. Bytes from 128 on are kept, as are punctuation and
spaces. -/
def replaceByte (byte pick : UInt8) : UInt8 :=
  if isDigitByte byte then letter 48 (pick.toNat % 10)
  else if isLowerByte byte then letter 97 (pick.toNat % 26)
  else if isUpperByte byte then letter 65 (pick.toNat % 26)
  else byte

/-- Replace bytes by others of their class, but for a backslash and the byte
behind it; `n` counts the bytes of noise that were used. -/
def replaceFrom (noise : Noise) : ℕ → Bytes → Bytes
  | _, [] => []
  | n, [byte] => [replaceByte byte (noise.byte n)]
  | n, byte :: next :: rest =>
    if byte = backslash then byte :: next :: replaceFrom noise n rest
    else replaceByte byte (noise.byte n) :: replaceFrom noise (n + 1) (next :: rest)

def byCharacterClass (original : Bytes) (noise : Noise) : Bytes := replaceFrom noise 0 original

/-- Replace one field. -/
def Synth.field (synth : Synth) (table : String) (column row : ℕ) (original : Bytes) : Bytes :=
  let noise := synth.stream [table, toString column, toString row, toString original.length]
  (typed original noise).getD (byCharacterClass original noise)

end PgDelta.Anonymise
