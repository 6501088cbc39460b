import PgDelta.Lib.Utf8

/-!
Text as lists of characters, with the operations that parsing code makes on
it: white space at either end, the pieces between separators, and numbers with
a sign.
-/

namespace PgDelta.Lib

abbrev Text := List Char

/-- The text that some bytes encode, when they are well-formed UTF-8: those
that decoding replaces nothing in. -/
def fromUtf8 (b : Bytes) : Option Text :=
  if utf8 (fromUtf8Lossy b) = b then some (fromUtf8Lossy b).toList else none

theorem fromUtf8_utf8 (s : String) : fromUtf8 (utf8 s) = some s.toList := by
  simp [fromUtf8]

/-- The characters with the Unicode property White_Space. -/
def isWhitespace (c : Char) : Bool :=
  (9 ≤ c.toNat && c.toNat ≤ 13) || c.toNat == 0x20 || c.toNat == 0x85 || c.toNat == 0xA0 ||
    c.toNat == 0x1680 || (0x2000 ≤ c.toNat && c.toNat ≤ 0x200A) || c.toNat == 0x2028 ||
    c.toNat == 0x2029 || c.toNat == 0x202F || c.toNat == 0x205F || c.toNat == 0x3000

def trimStart (s : Text) : Text := s.dropWhile isWhitespace

def trimEnd (s : Text) : Text := s.rdropWhile isWhitespace

def trim (s : Text) : Text := trimEnd (trimStart s)

def isDigitChar (c : Char) : Bool := '0' ≤ c && c ≤ '9'

def toAsciiLower (c : Char) : Char := if 'A' ≤ c ∧ c ≤ 'Z' then Char.ofNat (c.toNat + 32) else c

/-- How many bytes a character takes in UTF-8. -/
def lenUtf8 (c : Char) : ℕ := (String.utf8EncodeChar c).length

def textLen (s : Text) : ℕ := (s.map lenUtf8).sum

/-- The parts of a text before and behind the first `sep`. -/
def splitOnce (sep : Char) : Text → Option (Text × Text)
  | [] => none
  | c :: s => if c = sep then some ([], s) else (splitOnce sep s).map fun (a, b) => (c :: a, b)

/-- The parts of a text before and behind the last character with a property,
and that character. -/
def rsplitOnce (p : Char → Bool) : Text → Option (Text × Char × Text)
  | [] => none
  | c :: s =>
    match rsplitOnce p s with
    | some (a, d, b) => some (c :: a, d, b)
    | none => if p c then some ([], c, s) else none

def splitAll (sep : Char) : Text → List Text
  | [] => [[]]
  | c :: s =>
    if c = sep then [] :: splitAll sep s
    else
      match splitAll sep s with
      | [] => [[c]]
      | piece :: pieces => (c :: piece) :: pieces

/-- At most `n` pieces of a text, the last of which keeps its separators. -/
def splitn (sep : Char) : ℕ → Text → List Text
  | 0, _ => []
  | 1, s => [s]
  | n + 2, s =>
    match splitOnce sep s with
    | none => [s]
    | some (a, b) => a :: splitn sep (n + 1) b

def digitsValue (s : Text) : ℕ := s.foldl (fun n c => 10 * n + (c.toNat - 48)) 0

/-- A number without a sign, which consists of at least one digit. -/
def parseDigits (s : Text) : Option ℕ :=
  if s.isEmpty || !s.all isDigitChar then none else some (digitsValue s)

/-- Parse a signed integer between two bounds. A sign needs digits behind it. -/
def parseInt (lo hi : ℤ) (s : Text) : Option ℤ :=
  let value : Option ℤ :=
    match s with
    | '-' :: s => (parseDigits s).map fun n => -(n : ℤ)
    | '+' :: s => (parseDigits s).map fun n => (n : ℤ)
    | s => (parseDigits s).map fun n => (n : ℤ)
  value.filter fun n => decide (lo ≤ n ∧ n ≤ hi)

/-- Parse an unsigned integer up to a bound. A minus sign is no part of it. -/
def parseNat (hi : ℕ) (s : Text) : Option ℕ :=
  let value :=
    match s with
    | '+' :: s => parseDigits s
    | s => parseDigits s
  value.filter fun n => decide (n ≤ hi)

end PgDelta.Lib
