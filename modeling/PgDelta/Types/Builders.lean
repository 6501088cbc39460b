import PgDelta.Copy.Decode
import PgDelta.Types.Resolve
import PgDelta.Types.Values

/-!
Resolved PostgreSQL types to Arrow: the schema of a table, the builder of each
column, and the rows accumulated into record batches.

An Arrow builder is the list of what was appended to it. A panic inside a
decode worker is the error that the worker reports for it.
-/

namespace PgDelta.Builders

open PgDelta.Lib PgDelta.Types PgDelta.Values

/-! ### Arrow types and arrays -/

/-- The Arrow types that a column can have. Timestamps and times count
microseconds. -/
inductive DataType
  | boolean
  | int16
  | int32
  | int64
  | float32
  | float64
  | decimal128 (precision : ℕ) (scale : ℤ)
  | date32
  | timestamp (timezone : Option String)
  | time64
  | binary
  | utf8
  | list (item : DataType)
  deriving DecidableEq, Repr

structure Field where
  name : String
  dataType : DataType
  nullable : Bool
  deriving DecidableEq, Repr

abbrev Schema := List Field

/-- A value that is not null and not an array. -/
inductive Value
  | boolean (b : Bool)
  | int (n : ℤ)
  | float32 (x : Float32)
  | float64 (x : Float)
  | bytes (b : Bytes)
  | text (s : Text)
  deriving DecidableEq

/-- What a table shows in one column of one row. -/
inductive Cell
  | null
  | value (v : Value)
  | list (items : List (Option Value))
  deriving DecidableEq

def Cell.ofOption : Option Value → Cell
  | none => .null
  | some v => .value v

abbrev Row := List Cell

/-- An array of values without nesting. -/
structure FlatArray where
  dataType : DataType
  values : List (Option Value)
  deriving DecidableEq

inductive ArrayRef
  | flat (a : FlatArray)
  | list (items : FlatArray) (offsets : List ℕ) (validity : List Bool)
  deriving DecidableEq

def ArrayRef.dataType : ArrayRef → DataType
  | .flat a => a.dataType
  | .list items _ _ => .list items.dataType

/-- The cells of an array of lists: the items between two neighbouring offsets. -/
def listCells (items : List (Option Value)) : List ℕ → List Bool → List Cell
  | a :: b :: offsets, valid :: validity =>
    (if valid then .list (slice items a b) else .null) :: listCells items (b :: offsets) validity
  | _, _ => []

def ArrayRef.cells : ArrayRef → List Cell
  | .flat a => a.values.map Cell.ofOption
  | .list items offsets validity => listCells items.values offsets validity

structure RecordBatch where
  schema : Schema
  columns : List ArrayRef
  numRows : ℕ
  deriving DecidableEq

def rowAt (columns : List (List Cell)) (i : ℕ) : Row :=
  columns.map fun cells => (cells[i]?).getD .null

def RecordBatch.rows (batch : RecordBatch) : List Row :=
  (List.range batch.numRows).map (rowAt (batch.columns.map ArrayRef.cells))

/-- The checks that Arrow makes when a batch is put together. -/
def RecordBatch.tryNew (schema : Schema) (columns : List ArrayRef) : Except Error RecordBatch :=
  if schema.length ≠ columns.length then
    .error (.arrow "number of columns must match number of fields in schema")
  else
    match columns with
    | [] => .error (.arrow "must either specify a row count or at least one column")
    | first :: _ =>
      if (schema.zip columns).any fun (f, c) => !f.nullable && c.cells.contains .null then
        .error (.arrow "column is declared as non-nullable but contains null values")
      else if columns.any fun c => c.cells.length ≠ first.cells.length then
        .error (.arrow "all columns in a record batch must have the same length")
      else if (schema.zip columns).any fun (f, c) => c.dataType ≠ f.dataType then
        .error (.arrow "column types must match schema types")
      else .ok { schema := schema, columns := columns, numRows := first.cells.length }

/-! ### The type of a column -/

/-- The time zone of every timestamp column. -/
def utc : String := "UTC"

/-- The resolved type of an array's elements. -/
def asElement (rt : ResolvedType) : ResolvedType :=
  { rt with isArray := false, arrayDimensions := 0 }

/-- The Arrow type of a column that is no array. -/
def scalarType (rt : ResolvedType) (wideNumericAsDecimal : Bool) : DataType :=
  match rt.pg with
  | .numeric precision scale =>
    if wideNumericAsDecimal && numericTooWide precision then
      .decimal128 wideNumericPrecision wideNumericScale
    else if rt.isTextual then .utf8
    else .decimal128 (precision.getD 38) (scale.getD 0)
  | .smallInt => .int16
  | .integer => .int32
  | .bigInt => .int64
  | .real => .float32
  | .doublePrecision => .float64
  | .boolean => .boolean
  | .date => .date32
  | .timestamp _ => .timestamp (some utc)
  | .time _ => .time64
  | .bytea => .binary
  | .text => .utf8

/-- The Arrow type of an array's elements, for the element types that native
arrays support. -/
def arrayElementType (rt : ResolvedType) (wideNumericAsDecimal : Bool) : Option DataType :=
  let unsupported :=
    match rt.pg with
    | .text => !rt.recognised
    | .numeric precision _ =>
      rt.isTextual && !(wideNumericAsDecimal && numericTooWide precision)
    | _ => false
  if unsupported then none else some (scalarType rt wideNumericAsDecimal)

/-- The Arrow type that a resolved column maps to. -/
def arrowType (rt : ResolvedType) (wideNumericAsDecimal nativeArrays : Bool) : DataType :=
  if rt.isArray then
    if nativeArrays && rt.arrayDimensions == 1 then
      match arrayElementType (asElement rt) wideNumericAsDecimal with
      | some item => .list item
      | none => .utf8
    else .utf8
  else scalarType rt wideNumericAsDecimal

def arrowSchema (columns : List (String × ResolvedType))
    (wideNumericAsDecimal nativeArrays : Bool) : Schema :=
  columns.map fun (name, rt) => ⟨name, arrowType rt wideNumericAsDecimal nativeArrays, true⟩

/-! ### Column builders -/

/-- The builders of columns that are no arrays, by what they parse and store. -/
inductive Kind
  | int16
  | int32
  | int64
  | float32
  | float64
  | decimal (precision : ℕ) (scale : ℤ)
  | boolean
  | date
  | timestamp (tz : Bool)
  | time
  | binary
  | utf8
  deriving DecidableEq, Repr

/-- The type of the arrays that a builder finishes. -/
def Kind.dataType : Kind → DataType
  | .int16 => .int16
  | .int32 => .int32
  | .int64 => .int64
  | .float32 => .float32
  | .float64 => .float64
  | .decimal precision scale => .decimal128 precision scale
  | .boolean => .boolean
  | .date => .date32
  | .timestamp _ => .timestamp (some utc)
  | .time => .time64
  | .binary => .binary
  | .utf8 => .utf8

/-- The parser behind a builder. `none` is a valid value that the type cannot
represent. -/
def Kind.parse (v : Bytes) (column : String) : Kind → Except Error (Option Value)
  | .int16 => (parseI16 v column).map (·.map .int)
  | .int32 => (parseI32 v column).map (·.map .int)
  | .int64 => (parseI64 v column).map (·.map .int)
  | .float32 => (parseF32 v column).map (·.map .float32)
  | .float64 => (parseF64 v column).map (·.map .float64)
  | .decimal precision scale => (parseDecimal v precision scale column).map (·.map .int)
  | .boolean => (parseBool v column).map (·.map .boolean)
  | .date => (parseDate v column).map (·.map .int)
  | .timestamp tz => (parseTimestamp v tz column).map (·.map .int)
  | .time => (parseTime v column).map (·.map .int)
  | .binary => (parseBytea v column []).map fun b => some (.bytes b)
  | .utf8 =>
    match fromUtf8 v with
    | some s => .ok (some (.text s))
    | none => .error (.nonUtf8Text column)

/-- The builders that report a value stored as NULL. -/
def Kind.substitutes : Kind → Bool
  | .decimal _ _ | .date | .timestamp _ => true
  | _ => false

/-- A builder of a column that is no array. -/
structure ScalarBuilder where
  kind : Kind
  values : List (Option Value) := []
  deriving DecidableEq

/-- Append one value, or NULL, and tell whether NULL stands for a value that
was not null. -/
def ScalarBuilder.append (b : ScalarBuilder) (value : Option Bytes) (column : String) :
    Except Error (ScalarBuilder × Bool) :=
  match value with
  | none => .ok ({ b with values := b.values ++ [none] }, false)
  | some v =>
    match b.kind.parse v column with
    | .error e => .error e
    | .ok parsed =>
      .ok ({ b with values := b.values ++ [parsed] }, b.kind.substitutes && parsed.isNone)

def ScalarBuilder.appendAll (column : String) :
    ScalarBuilder → List (Option Bytes) → Bool → Except Error (ScalarBuilder × Bool)
  | b, [], substituted => .ok (b, substituted)
  | b, value :: values, substituted =>
    match b.append value column with
    | .error e => .error e
    | .ok (b, more) => b.appendAll column values (substituted || more)

def ScalarBuilder.finish (b : ScalarBuilder) : FlatArray := ⟨b.kind.dataType, b.values⟩

/-- A builder of one column. A native array keeps its elements in a builder of
their own, with one offset more than it has rows. -/
inductive ColumnBuilder
  | scalar (b : ScalarBuilder)
  | list (element : ScalarBuilder) (offsets : List ℕ) (validity : List Bool)
  deriving DecidableEq

/-- The decimal builder, unless Arrow refuses the precision and scale. -/
def decimalKind (precision : ℕ) (scale : ℤ) : Kind :=
  if 1 ≤ precision ∧ precision ≤ 38 ∧ scale ≤ 38 ∧ scale ≤ (precision : ℤ) then
    .decimal precision scale
  else .utf8

/-- The builder of a column that is no array. -/
def scalarKind (rt : ResolvedType) (wideNumericAsDecimal : Bool) : Kind :=
  match rt.pg with
  | .numeric precision scale =>
    if wideNumericAsDecimal && numericTooWide precision then
      decimalKind wideNumericPrecision wideNumericScale
    else if rt.isTextual then .utf8
    else decimalKind (precision.getD 38) (scale.getD 0)
  | .smallInt => .int16
  | .integer => .int32
  | .bigInt => .int64
  | .real => .float32
  | .doublePrecision => .float64
  | .boolean => .boolean
  | .date => .date
  | .timestamp tz => .timestamp tz
  | .time _ => .time
  | .bytea => .binary
  | .text => .utf8

namespace ColumnBuilder

def new (rt : ResolvedType) (wideNumericAsDecimal nativeArrays : Bool) : ColumnBuilder :=
  if rt.isArray then
    if nativeArrays && rt.arrayDimensions == 1
        && (arrayElementType (asElement rt) wideNumericAsDecimal).isSome then
      .list { kind := scalarKind (asElement rt) wideNumericAsDecimal } [0] []
    else .scalar { kind := .utf8 }
  else .scalar { kind := scalarKind rt wideNumericAsDecimal }

/-- The largest offset of a list array. -/
def maxOffset : ℕ := 2 ^ 31 - 1

/-- Append one value, or NULL. The offsets are never empty, see
`ColumnBuilder.new`. -/
def append (b : ColumnBuilder) (value : Option Bytes) (column : String) :
    Except Error (ColumnBuilder × Bool) :=
  match b with
  | .scalar b =>
    match b.append value column with
    | .error e => .error e
    | .ok (b, substituted) => .ok (.scalar b, substituted)
  | .list element offsets validity =>
    let last := offsets.getLast?.getD 0
    match value with
    | none => .ok (.list element (offsets ++ [last]) (validity ++ [false]), false)
    | some v =>
      match parseArrayElements v column with
      | .error e => .error e
      | .ok elements =>
        match element.appendAll column elements false with
        | .error e => .error e
        | .ok (element, substituted) =>
          if maxOffset < elements.length ∨ maxOffset < last + elements.length then
            .error (.unparsableValue column "array")
          else
            .ok (.list element (offsets ++ [last + elements.length]) (validity ++ [true]),
              substituted)

def panicked : Error := .io "decode worker panicked"

/-- Finish the current batch and reset the builder. Arrow refuses parts of a
list array that do not fit together, which the source turns into a panic. -/
def finish : ColumnBuilder → Except Error (ArrayRef × ColumnBuilder)
  | .scalar b => .ok (.flat b.finish, .scalar { b with values := [] })
  | .list element offsets validity =>
    if offsets.length = validity.length + 1
        ∧ offsets.getLast?.getD 0 ≤ element.values.length then
      .ok (.list element.finish offsets validity, .list { element with values := [] } [0] [])
    else .error panicked

end ColumnBuilder

/-! ### Batches -/

/-- Rows accumulated into a record batch, bounded by their number and by their
bytes. -/
structure BatchBuilder where
  schema : Schema
  names : List String
  columns : List ColumnBuilder
  rows : ℕ
  bytes : ℕ
  maxRows : ℕ
  maxBytes : ℕ
  /-- Per column, how many values were stored as NULL because the type could
  not hold them. -/
  substitutions : List ℕ
  deriving DecidableEq

namespace BatchBuilder

def new (columns : List (String × ResolvedType)) (maxRows maxBytes : ℕ)
    (wideNumericAsDecimal nativeArrays : Bool) : BatchBuilder where
  schema := arrowSchema columns wideNumericAsDecimal nativeArrays
  names := columns.map Prod.fst
  columns := columns.map fun c => ColumnBuilder.new c.2 wideNumericAsDecimal nativeArrays
  rows := 0
  bytes := 0
  maxRows := maxRows
  maxBytes := maxBytes
  substitutions := columns.map fun _ => 0

def isFull (b : BatchBuilder) : Bool :=
  decide (b.maxRows ≤ b.rows) || decide (b.maxBytes ≤ b.bytes)

/-- The loop of `append_row` over the columns, with their names and their
counts of substitutions. -/
def appendCells : List ColumnBuilder → List String → List ℕ → List (Option Bytes) →
    Except Error (List ColumnBuilder × List ℕ)
  | c :: columns, name :: names, count :: counts, value :: values =>
    match c.append value name with
    | .error e => .error e
    | .ok (c, substituted) =>
      match appendCells columns names counts values with
      | .error e => .error e
      | .ok (columns, counts) => .ok (c :: columns, (count + substituted.toNat) :: counts)
  | columns, _, counts, _ => .ok (columns, counts)

def appendSized (b : BatchBuilder) (values : List (Option Bytes)) (size : ℕ) :
    Except Error BatchBuilder :=
  if values.length ≠ b.columns.length then
    .error (.fieldCountMismatch values.length b.columns.length)
  else
    match appendCells b.columns b.names b.substitutions values with
    | .error e => .error e
    | .ok (columns, substitutions) =>
      .ok { b with
        columns := columns, substitutions := substitutions, rows := b.rows + 1
        bytes := b.bytes + size }

def appendRow (b : BatchBuilder) (values : List (Option Bytes)) : Except Error BatchBuilder :=
  b.appendSized values (values.map fun v => (v.map List.length).getD 0).sum

def appendRowRanges (b : BatchBuilder) (scratch : Bytes) (ranges : List (Option Copy.Range)) :
    Except Error BatchBuilder :=
  b.appendSized (Copy.values (scratch, ranges))
    (ranges.map fun r => (r.map fun r => r.stop - r.start).getD 0).sum

def finishColumns : List ColumnBuilder → Except Error (List ArrayRef × List ColumnBuilder)
  | [] => .ok ([], [])
  | c :: columns =>
    match c.finish with
    | .error e => .error e
    | .ok (array, c) =>
      match finishColumns columns with
      | .error e => .error e
      | .ok (arrays, columns) => .ok (array :: arrays, c :: columns)

/-- Make a batch of the rows, if there are any, and reset for reuse. -/
def finish (b : BatchBuilder) : Except Error (Option RecordBatch × BatchBuilder) :=
  if b.rows = 0 then .ok (none, b)
  else
    match finishColumns b.columns with
    | .error e => .error e
    | .ok (arrays, columns) =>
      match RecordBatch.tryNew b.schema arrays with
      | .error e => .error e
      | .ok batch => .ok (some batch, { b with columns := columns, rows := 0, bytes := 0 })

end BatchBuilder

end PgDelta.Builders
