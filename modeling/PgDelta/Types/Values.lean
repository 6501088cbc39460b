import PgDelta.Error
import PgDelta.Lib.Text

/-!
Unescaped field bytes to typed values.

A parser answers `none` for a value that is valid but that the column's Arrow
type cannot represent, and an error for one that contradicts its declared
type. Integers of 64 bits wrap as they do in a release build, except where the
source asks for a checked operation.
-/

namespace PgDelta.Values

open PgDelta.Lib

def minSupportedDay : Int64 := -2440588
def microsPerSec : Int64 := 1000000
def microsPerDay : Int64 := 86400 * microsPerSec

def bad (column expected : String) : Error := .unparsableValue column expected

/-- A value as text without the white space around it. -/
def trimmed (v : Bytes) (column expected : String) : Except Error Text :=
  match fromUtf8 v with
  | some s => .ok (trim s)
  | none => .error (bad column expected)

/-! ### Numbers -/

/-- The parsers of integers, which differ in their bounds and in the name of
the type they expect. -/
def parseBounded (lo hi : ℤ) (expected : String) (v : Bytes) (column : String) :
    Except Error (Option ℤ) :=
  match trimmed v column expected with
  | .error e => .error e
  | .ok s =>
    match parseInt lo hi s with
    | some n => .ok (some n)
    | none => .error (bad column expected)

def parseI16 : Bytes → String → Except Error (Option ℤ) :=
  parseBounded (-2 ^ 15) (2 ^ 15 - 1) "smallint"

def parseI32 : Bytes → String → Except Error (Option ℤ) :=
  parseBounded (-2 ^ 31) (2 ^ 31 - 1) "integer"

def parseI64 : Bytes → String → Except Error (Option ℤ) :=
  parseBounded (-2 ^ 63) (2 ^ 63 - 1) "bigint"

/-- What the text of a floating-point number says, before it is rounded. -/
inductive FloatLiteral
  | nan
  | infinity (negative : Bool)
  | decimal (negative : Bool) (digits : ℕ) (exponent : ℤ)
  deriving DecidableEq, Repr

def parseExponent : Text → Option ℤ
  | [] => some 0
  | c :: s =>
    if c = 'e' ∨ c = 'E' then
      match s with
      | '-' :: s => (parseDigits s).map fun n => -(n : ℤ)
      | '+' :: s => (parseDigits s).map fun n => (n : ℤ)
      | s => (parseDigits s).map fun n => (n : ℤ)
    else none

/-- Digits with at most one point among them, and an exponent. -/
def parseUnsignedFloat (negative : Bool) (s : Text) : Option FloatLiteral :=
  let lower := String.ofList (s.map toAsciiLower)
  if lower = "inf" ∨ lower = "infinity" then some (.infinity negative)
  else if lower = "nan" then some .nan
  else
    let whole := s.takeWhile isDigitChar
    let rest := s.dropWhile isDigitChar
    let (fraction, rest) :=
      match rest with
      | '.' :: rest => (rest.takeWhile isDigitChar, rest.dropWhile isDigitChar)
      | rest => ([], rest)
    if (whole ++ fraction).isEmpty then none
    else
      (parseExponent rest).map fun e =>
        .decimal negative (digitsValue (whole ++ fraction)) (e - fraction.length)

def parseFloatLiteral : Text → Option FloatLiteral
  | '-' :: s => parseUnsignedFloat true s
  | '+' :: s => parseUnsignedFloat false s
  | s => parseUnsignedFloat false s

/-- The nearest single-precision number. -/
def FloatLiteral.toFloat32 : FloatLiteral → Float32
  | .nan => 0 / 0
  | .infinity false => 1 / 0
  | .infinity true => -1 / 0
  | .decimal false digits exponent => .ofModel (.ofScientific digits exponent)
  | .decimal true digits exponent => -.ofModel (.ofScientific digits exponent)

/-- The nearest double-precision number. -/
def FloatLiteral.toFloat : FloatLiteral → Float
  | .nan => 0 / 0
  | .infinity false => 1 / 0
  | .infinity true => -1 / 0
  | .decimal false digits exponent => .ofModel (.ofScientific digits exponent)
  | .decimal true digits exponent => -.ofModel (.ofScientific digits exponent)

/-- The parsers of floating-point numbers, by the rounding they make. The
names that PostgreSQL writes for the values that are no numbers are among the
literals. -/
def parseFloating {α : Type} (round : FloatLiteral → α) (expected : String) (v : Bytes)
    (column : String) : Except Error (Option α) :=
  match trimmed v column expected with
  | .error e => .error e
  | .ok s =>
    match parseFloatLiteral s with
    | some literal => .ok (some (round literal))
    | none => .error (bad column expected)

def parseF32 : Bytes → String → Except Error (Option Float32) :=
  parseFloating FloatLiteral.toFloat32 "real"

def parseF64 : Bytes → String → Except Error (Option Float) :=
  parseFloating FloatLiteral.toFloat "double precision"

def parseBool (v : Bytes) (column : String) : Except Error (Option Bool) :=
  if v ∈ [ascii "t", ascii "true", ascii "T"] then .ok (some true)
  else if v ∈ [ascii "f", ascii "false", ascii "F"] then .ok (some false)
  else .error (bad column "boolean")

/-- An integer that fits 128 bits. -/
def checkedI128 (n : ℤ) : Option ℤ := if -2 ^ 127 ≤ n ∧ n < 2 ^ 127 then some n else none

/-- Append decimal digits to an unscaled value, as far as 128 bits hold it. -/
def pushDigits : ℤ → Text → Option ℤ
  | n, [] => some n
  | n, c :: s =>
    match (checkedI128 (n * 10)).bind fun n => checkedI128 (n + (c.toNat - 48 : ℕ)) with
    | none => none
    | some n => pushDigits n s

def padZeros : ℕ → ℤ → Option ℤ
  | 0, n => some n
  | k + 1, n =>
    match checkedI128 (n * 10) with
    | none => none
    | some n => padZeros k n

/-- A fixed-scale decimal as the unscaled integer that Arrow stores. -/
def parseDecimal (v : Bytes) (precision : ℕ) (scale : ℤ) (column : String) :
    Except Error (Option ℤ) :=
  match trimmed v column "numeric" with
  | .error e => .error e
  | .ok s =>
    if s = "NaN".toList then .ok none
    else
      let (negative, digits) :=
        match s with
        | '-' :: s => (true, s)
        | '+' :: s => (false, s)
        | s => (false, s)
      if digits.isEmpty || digits.any (fun c => c == 'e' || c == 'E') then
        .error (bad column "numeric")
      else
        let (whole, fraction) := (splitOnce '.' digits).getD (digits, [])
        if whole.isEmpty && fraction.isEmpty then .error (bad column "numeric")
        else if !whole.all isDigitChar || !fraction.all isDigitChar then
          .error (bad column "numeric")
        else if scale < 0 then .error (bad column "numeric")
        else
          let keep := fraction.take scale.toNat
          -- Digits behind the scale are refused unless they are zeros.
          if (fraction.drop scale.toNat).any (· ≠ '0') then .error (bad column "numeric")
          else
            match (pushDigits 0 (whole ++ keep)).bind (padZeros (scale.toNat - keep.length)) with
            | none => .error (bad column "numeric")
            | some unscaled =>
              -- The sign is put on afterwards, so that this bounds the magnitude.
              if 10 ^ precision ≤ unscaled then .error (bad column "numeric")
              else .ok (some (if negative then -unscaled else unscaled))

/-! ### Arrays -/

def takeQuotedElement : Bytes → Bytes → Option (Bytes × Bytes)
  | _, [] => none
  | out, c :: s =>
    if c = 34 then some (out, s)
    else if c = backslash then
      match s with
      | [] => none
      | escaped :: s => takeQuotedElement (out ++ [escaped]) s
    else takeQuotedElement (out ++ [c]) s

/-- One element, which is NULL when it is that word without quotes. -/
def takeElement (s : Bytes) : Option (Option Bytes × Bytes) :=
  match s with
  | 34 :: s => (takeQuotedElement [] s).map fun (element, rest) => (some element, rest)
  | s =>
    let stops (c : UInt8) : Bool := c == 44 || c == 125 || isAsciiWhitespace c
    let raw := s.takeWhile fun c => !stops c
    some (if raw = ascii "NULL" then none else some raw, s.dropWhile fun c => !stops c)

def arrayElementsLoop : ℕ → Bytes → List (Option Bytes) → Option (List (Option Bytes))
  | 0, _, elements => some elements
  | fuel + 1, s, elements =>
    match takeElement (trimAsciiStart s) with
    | none => none
    | some (element, rest) =>
      match trimAsciiStart rest with
      | [] => some (elements ++ [element])
      | c :: rest =>
        if c = 44 then arrayElementsLoop fuel rest (elements ++ [element]) else none

/-- Split a one-dimensional array literal into its elements. -/
def parseArrayElements (v : Bytes) (column : String) : Except Error (List (Option Bytes)) :=
  if v.head? ≠ some 123 ∨ v.getLast? ≠ some 125 ∨ v.length < 2 then .error (bad column "array")
  else
    let inner := v.tail.dropLast
    if inner.isEmpty then .ok []
    else
      match arrayElementsLoop (inner.length + 1) inner [] with
      | some elements => .ok elements
      | none => .error (bad column "array")

/-! ### Dates and times -/

/-- Days from the Unix epoch of a proleptic Gregorian date. -/
def daysFromCivil (y m d : Int64) : Int64 :=
  let y := if m ≤ 2 then y - 1 else y
  let era := (if 0 ≤ y then y else y - 399) / 400
  let yoe := y - era * 400
  let mp := (m + 9) % 12
  let doy := (153 * mp + 2) / 5 + d - 1
  let doe := yoe * 365 + yoe / 4 - yoe / 100 + doy
  era * 146097 + doe - 719468

/-- Split a trailing ` BC` from a date or timestamp. -/
def splitEra (s : Text) : Text × Bool :=
  if " BC".toList.isSuffixOf s then (trimEnd (s.take (s.length - 3)), true) else (s, false)

def parseInt64 (s : Text) : Option Int64 := (parseInt (-2 ^ 63) (2 ^ 63 - 1) s).map Int64.ofInt

/-- The calendar fields of `YYYY-MM-DD`. -/
def civilParts (s : Text) : Option (Int64 × Int64 × Int64) :=
  match splitn '-' 3 s with
  | [y, m, d] =>
    if y.isEmpty || !y.all isDigitChar then none
    else if textLen m ≠ 2 ∨ textLen d ≠ 2 then none
    else
      match parseInt64 y, parseInt64 m, parseInt64 d with
      | some y, some m, some d =>
        -- No month is checked for its own number of days.
        if 1 ≤ m ∧ m ≤ 12 ∧ 1 ≤ d ∧ d ≤ 31 then some (y, m, d) else none
      | _, _, _ => none
  | _ => none

/-- A date as days since the Unix epoch. The infinities are not representable. -/
def parseDate (v : Bytes) (column : String) : Except Error (Option ℤ) :=
  match trimmed v column "date" with
  | .error e => .error e
  | .ok s =>
    if s = "infinity".toList ∨ s = "-infinity".toList then .ok none
    else
      let (s, bc) := splitEra s
      match civilParts s with
      | none => .error (bad column "date")
      | some (y, m, d) =>
        let days := daysFromCivil (if bc then 1 - y else y) m d
        if days < minSupportedDay ∧ bc = false then .error (bad column "date")
        else if -2 ^ 31 ≤ days.toInt ∧ days.toInt < 2 ^ 31 then .ok (some days.toInt)
        else .error (bad column "date")

def fractionMicros (frac : Text) : Option Int64 :=
  if frac.isEmpty then some 0
  else if 6 < textLen frac || !frac.all isDigitChar then none
  else some (Int64.ofNat (digitsValue frac * 10 ^ (6 - frac.length)))

/-- `HH:MM[:SS[.ffffff]]` as microseconds since midnight. -/
def timeMicros (s : Text) : Option Int64 :=
  let (hms, frac) := (splitOnce '.' s).getD (s, [])
  match splitn ':' 3 hms with
  | h :: m :: rest =>
    match parseInt64 h, parseInt64 m, parseInt64 (rest.head?.getD ['0']) with
    | some h, some m, some sec =>
      -- Hour 24 and second 60 pass, whatever stands beside them.
      if 0 ≤ h ∧ h ≤ 24 ∧ 0 ≤ m ∧ m < 60 ∧ 0 ≤ sec ∧ sec ≤ 60 then
        (fractionMicros frac).map fun micros =>
          (h * 3600 + m * 60 + sec) * microsPerSec + micros
      else none
    | _, _, _ => none
  | _ => none

/-- Split a trailing UTC offset, which is given in microseconds. Only what
follows the first space is searched for its sign. -/
def splitOffset (s : Text) : Text × Option Int64 :=
  let (before, tail) :=
    match splitOnce ' ' s with
    | some (a, b) => (a ++ [' '], b)
    | none => ([], s)
  match rsplitOnce (fun c => c == '+' || c == '-') tail with
  | none => (s, none)
  | some (body, sign, off) =>
    match splitAll ':' off with
    | [] => (s, none)
    | h :: rest =>
      match parseInt64 h with
      | none => (s, none)
      | some h =>
        -- Minutes and seconds that cannot be read count as zero.
        let m := (rest.head?.bind parseInt64).getD 0
        let sec := (rest.tail.head?.bind parseInt64).getD 0
        let sign : Int64 := if sign = '-' then -1 else 1
        (before ++ body, some (sign * (h * 3600 + m * 60 + sec) * microsPerSec))

def remEuclid (a b : Int64) : Int64 := if a % b < 0 then a % b + b else a % b

/-- A time of day as microseconds since midnight, its offset applied. -/
def parseTime (v : Bytes) (column : String) : Except Error (Option ℤ) :=
  match trimmed v column "time" with
  | .error e => .error e
  | .ok s =>
    let (body, offset) := splitOffset s
    match timeMicros body with
    | none => .error (bad column "time")
    | some micros => .ok (some (remEuclid (micros - offset.getD 0) microsPerDay).toInt)

/-- An integer that fits 64 bits. -/
def checkedI64 (n : ℤ) : Option ℤ := if -2 ^ 63 ≤ n ∧ n < 2 ^ 63 then some n else none

/-- A timestamp as microseconds since the Unix epoch, in UTC. -/
def parseTimestamp (v : Bytes) (tz : Bool) (column : String) : Except Error (Option ℤ) :=
  match trimmed v column "timestamp" with
  | .error e => .error e
  | .ok s =>
    if s = "infinity".toList ∨ s = "-infinity".toList then .ok none
    else
      let (s, bc) := splitEra s
      let (body, offset) := if tz then splitOffset s else (s, none)
      let (datePart, timePart) := (splitOnce ' ' body).getD (body, "00:00:00".toList)
      match civilParts datePart with
      | none => .error (bad column "timestamp")
      | some (y, m, d) =>
        match timeMicros (trim timePart) with
        | none => .error (bad column "timestamp")
        | some micros =>
          let days := daysFromCivil (if bc then 1 - y else y) m d
          match ((checkedI64 (days.toInt * microsPerDay.toInt)).bind fun t =>
              checkedI64 (t + micros.toInt)).bind fun t =>
                checkedI64 (t - (offset.getD 0).toInt) with
          | some t => .ok (some t)
          | none => .error (bad column "timestamp")

/-! ### Byte strings -/

def hexVal (b : UInt8) : Option UInt8 :=
  if 48 ≤ b ∧ b ≤ 57 then some (b - 48)
  else if 97 ≤ b ∧ b ≤ 102 then some (b - 97 + 10)
  else if 65 ≤ b ∧ b ≤ 70 then some (b - 65 + 10)
  else none

def hexPairs : Bytes → Option Bytes
  | [] => some []
  | [_] => none
  | hi :: lo :: rest =>
    match hexVal hi, hexVal lo, hexPairs rest with
    | some hi, some lo, some out => some ((hi <<< 4 ||| lo) :: out)
    | _, _, _ => none

/-- The escape form: a backslash stands before another one, or before three
octal digits. -/
def escapedBytes : Bytes → Option Bytes
  | [] => some []
  | c :: s =>
    if c ≠ backslash then (escapedBytes s).map (c :: ·)
    else
      match s with
      | [] => none
      | d :: s =>
        if d = backslash then (escapedBytes s).map (backslash :: ·)
        else
          match s with
          | e :: f :: s =>
            let isOctal (b : UInt8) : Bool := 48 ≤ b && b ≤ 55
            let value := (d.toNat - 48) * 64 + (e.toNat - 48) * 8 + (f.toNat - 48)
            if isOctal d && isOctal e && isOctal f && value ≤ 255 then
              (escapedBytes s).map (value.toUInt8 :: ·)
            else none
          | _ => none

/-- Append the bytes of a `bytea` value, in either of its two forms. -/
def parseBytea (v : Bytes) (column : String) (out : Bytes) : Except Error Bytes :=
  let decoded :=
    if (ascii "\\x").isPrefixOf v then hexPairs (v.drop 2) else escapedBytes v
  match decoded with
  | some b => .ok (out ++ b)
  | none => .error (bad column "bytea")

end PgDelta.Values
