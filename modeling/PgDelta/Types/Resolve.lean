import PgDelta.Lib.Text

/-!
PostgreSQL type names, as `pg_dump` writes them, to the type model of the
loader. Resolving never fails: a declaration that is not recognised resolves
to text and is reported.
-/

namespace PgDelta.Types

open PgDelta.Lib

/-- The types that the loader distinguishes. Everything else is `text`. -/
inductive PgType
  | smallInt
  | integer
  | bigInt
  | real
  | doublePrecision
  | numeric (precision : Option ℕ) (scale : Option ℤ)
  | boolean
  | date
  | timestamp (tz : Bool)
  | time (tz : Bool)
  | bytea
  | text
  deriving DecidableEq, Repr

structure ResolvedType where
  pg : PgType
  isArray : Bool
  /-- How many array suffixes the declaration carried, as far as a byte counts. -/
  arrayDimensions : ℕ
  recognised : Bool
  source : String
  deriving DecidableEq, Repr

def maxDecimalPrecision : ℕ := 38

/-- The decimal that a too-wide `numeric` maps to when the caller opts in. -/
def wideNumericPrecision : ℕ := maxDecimalPrecision
def wideNumericScale : ℤ := 18

def numericTooWide (precision : Option ℕ) : Bool :=
  precision.all fun p => decide (maxDecimalPrecision < p)

def decimalFits (precision : Option ℕ) (scale : Option ℤ) : Bool :=
  match precision with
  | none => false
  | some p =>
    if 1 ≤ p ∧ p ≤ maxDecimalPrecision then
      scale.all fun s : ℤ => decide (0 ≤ s ∧ s ≤ (p : ℤ))
    else false

/-- Whether a column is written as text, whatever its declaration said. -/
def ResolvedType.isTextual (rt : ResolvedType) : Bool :=
  if rt.isArray || rt.pg = .text then true
  else
    match rt.pg with
    | .numeric precision scale => !decimalFits precision scale
    | _ => false

def textual : List String :=
  ["text", "character varying", "varchar", "character", "char", "bpchar", "name", "uuid", "json",
    "jsonb", "xml", "inet", "cidr", "macaddr", "macaddr8", "interval", "money", "bit",
    "bit varying", "varbit", "tsvector", "tsquery", "point", "line", "lseg", "box", "path",
    "polygon", "circle", "int4range", "int8range", "numrange", "tsrange", "tstzrange",
    "daterange"]

/-- Remove trailing array suffixes such as `[]`, `[3]` or `[][]`, and count
them. -/
def stripArraySuffixLoop : ℕ → Text → ℕ → Text × ℕ
  | 0, s, count => (s, count)
  | fuel + 1, s, count =>
    if s.getLast? = some ']' then
      match rsplitOnce (· = '[') s with
      | none => (s, count)
      | some (before, _, inside) =>
        if inside.dropLast.all isDigitChar then
          stripArraySuffixLoop fuel (trimEnd before) (min (count + 1) 255)
        else (s, count)
    else (s, count)

def stripArraySuffix (s : Text) : Text × ℕ := stripArraySuffixLoop (s.length + 1) (trimEnd s) 0

/-- Split the first parenthesised parameter list out of a type name. -/
def splitParams (s : Text) : Text × Text :=
  match splitOnce '(' s with
  | none => (s, [])
  | some (before, rest) =>
    match splitOnce ')' rest with
    | none => (s, [])
    | some (params, after) => (before ++ ' ' :: after, params)

def normaliseLoop : Bool → Text → Text → Text
  | _, out, [] => out
  | space, out, c :: s =>
    if isWhitespace c then normaliseLoop true out s
    else
      let out := if space && !out.isEmpty then out ++ [' '] else out
      normaliseLoop false (out ++ [toAsciiLower c]) s

/-- Lowercase, and collapse runs of white space to single spaces. The names
that the result is compared with are ASCII, and no other letter of theirs has
a capital outside ASCII, so that only ASCII letters need to be lowered. -/
def normalise (s : Text) : String := String.ofList (normaliseLoop false [] (trim s))

/-- Precision and scale from a `numeric` parameter list. A value that does not
fit is discarded, and without a precision there is no scale. -/
def numericParams (params : Text) : Option ℕ × Option ℤ :=
  let parts := splitAll ',' params
  let precision := parts.head?.bind fun p => parseNat 255 (trim p)
  let scale := parts.tail.head?.bind fun s => parseInt (-128) 127 (trim s)
  match precision with
  | some _ => (precision, some (scale.getD 0))
  | none => (none, none)

/-- The type that a normalised name stands for, unless it is textual. -/
def pgType (name : String) (params : Text) : Option PgType :=
  if name ∈ ["smallint", "int2", "smallserial", "serial2"] then some .smallInt
  else if name ∈ ["integer", "int", "int4", "serial", "serial4"] then some .integer
  else if name ∈ ["bigint", "int8", "bigserial", "serial8"] then some .bigInt
  else if name ∈ ["real", "float4"] then some .real
  else if name ∈ ["double precision", "float8"] then some .doublePrecision
  else if name ∈ ["numeric", "decimal"] then
    some (.numeric (numericParams params).1 (numericParams params).2)
  else if name ∈ ["boolean", "bool"] then some .boolean
  else if name = "date" then some .date
  else if name ∈ ["timestamp", "timestamp without time zone"] then some (.timestamp false)
  else if name ∈ ["timestamptz", "timestamp with time zone"] then some (.timestamp true)
  else if name ∈ ["time", "time without time zone"] then some (.time false)
  else if name ∈ ["timetz", "time with time zone"] then some (.time true)
  else if name = "bytea" then some .bytea
  else none

/-- Resolve the type text of a column. -/
def resolve (sqlType : String) : ResolvedType :=
  let source := trim sqlType.toList
  let (base, arrayDimensions) := stripArraySuffix source
  let (name, params) := splitParams base
  let name := normalise name
  { pg := (pgType name params).getD .text
    isArray := decide (0 < arrayDimensions)
    arrayDimensions := arrayDimensions
    recognised := (pgType name params).isSome || textual.contains name
    source := String.ofList source }

example : (resolve "Timestamp(3)  without time zone").pg = .timestamp false := by decide +kernel

end PgDelta.Types
