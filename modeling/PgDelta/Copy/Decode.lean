import PgDelta.Error
import PgDelta.Lib.Lines

/-!
COPY TEXT decoding: lines of a block into rows, rows into fields, and the
backslash escapes of a field into the bytes they stand for.

A loop of the source over an index is a recursion over what is left from that
index on, with a fuel argument where one round may consume several bytes; the
callers always pass enough fuel.
-/

namespace PgDelta.Copy

open PgDelta.Lib

/-- The line that terminates a `COPY` block. -/
def endOfData : Bytes := [backslash, 46]

/-- The field that denotes SQL NULL, compared before unescaping. -/
def nullMarker : Bytes := [backslash, 78]

structure Limits where
  maxFieldBytes : ℕ := 64 * 2 ^ 20
  maxRowBytes : ℕ := 256 * 2 ^ 20
  maxColumns : ℕ := 1600
  deriving DecidableEq, Repr

inductive Field
  | null
  | plain (b : Bytes)
  | escaped (b : Bytes)
  deriving DecidableEq, Repr

def Field.isNull : Field → Bool
  | .null => true
  | _ => false

def hexDigit (b : UInt8) : Option UInt8 :=
  if 48 ≤ b ∧ b ≤ 57 then some (b - 48)
  else if 97 ≤ b ∧ b ≤ 102 then some (b - 97 + 10)
  else if 65 ≤ b ∧ b ≤ 70 then some (b - 65 + 10)
  else none

def isOctalDigit (b : UInt8) : Bool := 48 ≤ b && b ≤ 55

/-- Up to `left` hexadecimal digits: the value, how many there were, and what
follows them. -/
def takeHex : ℕ → UInt8 → ℕ → Bytes → UInt8 × ℕ × Bytes
  | 0, value, digits, rest => (value, digits, rest)
  | _ + 1, value, digits, [] => (value, digits, [])
  | left + 1, value, digits, b :: rest =>
    match hexDigit b with
    | some d => takeHex left (value <<< 4 ||| d) (digits + 1) rest
    | none => (value, digits, b :: rest)

def takeOctal : ℕ → ℕ → Bytes → ℕ × Bytes
  | 0, value, rest => (value, rest)
  | _ + 1, value, [] => (value, [])
  | left + 1, value, d :: rest =>
    if isOctalDigit d then takeOctal left (value * 8 + (d.toNat - 48)) rest
    else (value, d :: rest)

/-- One escape, behind its backslash: the byte it stands for and what follows
it. -/
def unescapeOne : Bytes → Except Error (UInt8 × Bytes)
  | [] => .error .truncatedEscape
  | c :: rest =>
    if c = 98 then .ok (0x08, rest)
    else if c = 102 then .ok (0x0C, rest)
    else if c = 110 then .ok (newline, rest)
    else if c = 114 then .ok (carriageReturn, rest)
    else if c = 116 then .ok (tab, rest)
    else if c = 118 then .ok (0x0B, rest)
    else if c = 120 then
      match takeHex 2 0 0 rest with
      | (_, 0, _) => .error .invalidHexEscape
      | (value, _ + 1, rest) => .ok (value, rest)
    else if isOctalDigit c then
      -- Three octal digits reach 0o777, so the low byte is taken.
      match takeOctal 2 (c.toNat - 48) rest with
      | (value, rest) => .ok (value.toUInt8, rest)
    else .ok (c, rest)

/-- The unescape loop: copy the run up to the next backslash, resolve one
escape, go on behind it. -/
def unescapeLoop : ℕ → Bytes → Bytes → Except Error Bytes
  | 0, _, out => .ok out
  | fuel + 1, bytes, out =>
    match memchr backslash bytes with
    | none => .ok (out ++ bytes)
    | some off =>
      match unescapeOne (bytes.drop (off + 1)) with
      | .error e => .error e
      | .ok (b, rest) => unescapeLoop fuel rest (out ++ bytes.take off ++ [b])

/-- Append the field's decoded value to `out`. -/
def Field.unescapeInto : Field → Bytes → Except Error Bytes
  | .null, out => .ok out
  | .plain b, out => .ok (out ++ b)
  | .escaped b, out => unescapeLoop (b.length + 1) b out

def isEndOfData (line : Bytes) : Bool := line == endOfData

/-- A line without one carriage return at its end. -/
def stripCr (line : Bytes) : Bytes :=
  if line.getLast? = some carriageReturn then line.dropLast else line

def nextRow (rest : Bytes) : Option (Bytes × Bytes) :=
  (memchr newline rest).map fun nl => (stripCr (rest.take nl), rest.drop (nl + 1))

def rowsLoop : ℕ → Bytes → List Bytes
  | 0, _ => []
  | fuel + 1, rest =>
    match nextRow rest with
    | none => []
    | some (row, rest) => row :: rowsLoop fuel rest

/-- The complete rows of a chunk. -/
def rows (chunk : Bytes) : List Bytes := rowsLoop (chunk.length + 1) chunk

def remainderLoop : ℕ → Bytes → Bytes
  | 0, rest => rest
  | fuel + 1, rest =>
    match nextRow rest with
    | none => rest
    | some (_, rest) => remainderLoop fuel rest

/-- `Rows::remainder` once the rows of a chunk are taken. -/
def remainder (chunk : Bytes) : Bytes := remainderLoop (chunk.length + 1) chunk

/-- Classify a raw field without copying it. -/
def classify (raw : Bytes) : Field :=
  if raw = nullMarker then .null
  else if (memchr backslash raw).isSome then .escaped raw
  else .plain raw

structure Fields where
  row : Bytes
  pos : ℕ
  count : ℕ
  limits : Limits
  finished : Bool
  rowChecked : Bool

def fields (row : Bytes) (limits : Limits) : Fields where
  row := row
  pos := 0
  count := 0
  limits := limits
  finished := false
  rowChecked := false

def Fields.checkRow (it : Fields) : Option Error × Fields :=
  if it.rowChecked then (none, it)
  else if it.limits.maxRowBytes < it.row.length then
    (some (.rowTooLarge it.row.length it.limits.maxRowBytes),
      { it with rowChecked := true, finished := true })
  else (none, { it with rowChecked := true })

def Fields.takeRaw (it : Fields) : Bytes × Fields :=
  match memchr tab (it.row.drop it.pos) with
  | some off => (slice it.row it.pos (it.pos + off), { it with pos := it.pos + off + 1 })
  | none => (it.row.drop it.pos, { it with finished := true })

def Fields.next (it : Fields) : Option (Except Error Field) × Fields :=
  match it.checkRow with
  | (some e, it) => (some (.error e), it)
  | (none, it) =>
    if it.finished then (none, it)
    else
      let (raw, it) := it.takeRaw
      let it := { it with count := it.count + 1 }
      if it.limits.maxColumns < it.count then
        (some (.error (.tooManyColumns it.count it.limits.maxColumns)),
          { it with finished := true })
      else if it.limits.maxFieldBytes < raw.length then
        (some (.error (.fieldTooLarge raw.length it.limits.maxFieldBytes)),
          { it with finished := true })
      else (some (.ok (classify raw)), it)

/-- A half-open range into the scratch buffer. -/
structure Range where
  start : ℕ
  stop : ℕ
  deriving DecidableEq, Repr

/-- The loop of `decode_row` over the fields of a row. -/
def decodeFields : ℕ → Fields → Bytes → List (Option Range) →
    Except Error (Bytes × List (Option Range))
  | 0, _, scratch, out => .ok (scratch, out)
  | fuel + 1, it, scratch, out =>
    match it.next with
    | (none, _) => .ok (scratch, out)
    | (some (.error e), _) => .error e
    | (some (.ok field), it) =>
      if field.isNull then decodeFields fuel it scratch (out ++ [none])
      else
        match field.unescapeInto scratch with
        | .error e => .error e
        | .ok scratch' =>
          decodeFields fuel it scratch' (out ++ [some ⟨scratch.length, scratch'.length⟩])

/-- Decode a row: the scratch buffer with the decoded bytes, and for each field
`none` for NULL or its range in the buffer. -/
def decodeRow (row : Bytes) (expected : ℕ) (limits : Limits) :
    Except Error (Bytes × List (Option Range)) :=
  match decodeFields (row.length + 2) (fields row limits) [] [] with
  | .error e => .error e
  | .ok (scratch, out) =>
    if out.length = expected then .ok (scratch, out)
    else .error (.fieldCountMismatch out.length expected)

/-- The field values that a decoded row stands for. -/
def values (decoded : Bytes × List (Option Range)) : List (Option Bytes) :=
  decoded.2.map fun r => r.map fun r => slice decoded.1 r.start r.stop

end PgDelta.Copy
