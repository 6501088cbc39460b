import PgDelta.Copy.Decode
import PgDelta.Scan.Lexer

/-!
The streaming scanner: chunks of a dump in, events out.

`Scanner.feed` completes the line left partial by the previous chunk, then
reads statements line by line and the rows of a `COPY` block in bulk, and keeps
what follows the last newline for the next chunk.
-/

namespace PgDelta.Scan

open PgDelta.Lib PgDelta.Copy

/-- Something the scanner recognised. -/
inductive Event
  | dumpVersion (dumpedBy : ℕ) (fromDatabase : Option ℕ)
  | table (definition : TableDef)
  | copyStart (table : TableName) (columns : List String)
  | copyRows (payload : Bytes)
  | copyEnd (table : TableName)
  deriving DecidableEq, Repr

inductive State
  | sql
  | copy
  deriving DecidableEq, Repr

/-- The table definitions recovered so far, each under its qualified name. -/
abbrev Tables := List (String × TableDef)

def Tables.insert (tables : Tables) (name : String) (definition : TableDef) : Tables :=
  (name, definition) :: tables.filter fun entry => entry.1 ≠ name

def Tables.get (tables : Tables) (name : String) : Option TableDef := tables.lookup name

/-- `pending` is the partial line carried into the next chunk and `ddl` the
text of the `CREATE TABLE` being read. While `skippingCreate` is set, the lines
of a `CREATE TABLE` in an excluded schema are passed over. -/
structure Scanner where
  state : State := .sql
  pending : Bytes := []
  ddl : Bytes := []
  inCreate : Bool := false
  skippingCreate : Bool := false
  openTable : Option TableName := none
  dumpedBy : Option ℕ := none
  fromDatabase : Option ℕ := none
  tables : Tables := []
  excludedSchemas : List String := []
  deriving DecidableEq, Repr

namespace Scanner

def new : Scanner := {}

def setExcludedSchemas (s : Scanner) (schemas : List String) : Scanner :=
  { s with excludedSchemas := schemas }

/-- Peek the schema of a `CREATE TABLE` statement's name. A name that cannot
be read counts as not excluded and is left to `parseCreateTable`. -/
def schemaIsExcluded (s : Scanner) (afterCreateTableKw : Bytes) : Bool :=
  if s.excludedSchemas.isEmpty then false
  else
    match takeQualified afterCreateTableKw with
    | some (⟨some schema, _⟩, _) => s.excludedSchemas.contains schema
    | _ => false

def endsCreate (line : Bytes) : Bool := (ascii ");").isSuffixOf (trimAsciiEnd line)

def closeCopy (s : Scanner) : Scanner × List Event :=
  match s.openTable with
  | some table => ({ s with state := .sql, openTable := none }, [.copyEnd table])
  | none => ({ s with state := .sql }, [])

/-- Parse the accumulated text of a `CREATE TABLE` and record the table. -/
def recordTable (s : Scanner) (ddl : Bytes) : Except Error (Scanner × List Event) :=
  match parseCreateTable ddl with
  | .error e => .error e
  | .ok definition =>
    .ok ({ s with tables := s.tables.insert definition.name.qualified definition },
      [.table definition])

/-- A `CREATE TABLE` keyword was read at the start of `line`. -/
def createLine (s : Scanner) (line afterKw : Bytes) : Except Error (Scanner × List Event) :=
  if s.schemaIsExcluded afterKw then
    if endsCreate line then .ok (s, []) else .ok ({ s with skippingCreate := true }, [])
  -- A statement on one line is read at once, any other one is collected.
  else if endsCreate line then { s with ddl := [] }.recordTable line
  else .ok ({ s with ddl := line, inCreate := true }, [])

/-- A `COPY` keyword was read at the start of `line`. -/
def copyLine (s : Scanner) (line : Bytes) : Except Error (Scanner × List Event) :=
  let trimmed := trimAsciiEnd line
  if endsWithCi trimmed (ascii "FROM stdin;") then
    match parseCopyHeader trimmed with
    | .error e => .error e
    | .ok (table, columns) =>
      .ok ({ s with openTable := some table, state := .copy }, [.copyStart table columns])
  else .ok (s, [])

/-- A line outside `COPY` blocks and outside the statement of a `CREATE TABLE`
that began on an earlier line. -/
def topLine (s : Scanner) (line : Bytes) : Except Error (Scanner × List Event) :=
  match stripPrefixCi line (ascii "-- Dumped by pg_dump version ") with
  | some rest =>
    match leadingMajor rest with
    | some major =>
      if major ∈ supportedMajors then
        .ok ({ s with dumpedBy := some major }, [.dumpVersion major s.fromDatabase])
      else .error (.unsupportedDumpVersion major)
    -- no number behind the words, so that the comment is passed over
    | none => .ok (s, [])
  | none =>
    match stripPrefixCi line (ascii "-- Dumped from database version ") with
    -- this version is reported and not checked
    | some rest => .ok ({ s with fromDatabase := leadingMajor rest }, [])
    | none =>
      if (ascii "--").isPrefixOf line then .ok (s, [])
      else
        match stripCreateTable line with
        | some afterKw => s.createLine line afterKw
        | none =>
          if (stripPrefixCi line (ascii "COPY ")).isSome then s.copyLine line else .ok (s, [])

def sqlLine (s : Scanner) (line : Bytes) : Except Error (Scanner × List Event) :=
  if s.skippingCreate then
    -- The text of an excluded table is never parsed.
    if endsCreate line then .ok ({ s with skippingCreate := false }, []) else .ok (s, [])
  else if s.inCreate then
    let ddl := s.ddl ++ newline :: line
    if endsCreate line then { s with ddl := [], inCreate := false }.recordTable ddl
    else .ok ({ s with ddl := ddl }, [])
  else s.topLine line

/-- Scan for the `\.` terminator line: the number of bytes consumed, and the
offset of the terminator when there is one. -/
def findTerminatorLoop : ℕ → ℕ → Bytes → ℕ × Option ℕ
  | 0, pos, _ => (pos, none)
  | fuel + 1, pos, input =>
    match memchr newline input with
    | none => (pos, none)
    | some nl =>
      if isEndOfData (stripCr (input.take nl)) then (pos + nl + 1, some pos)
      else findTerminatorLoop fuel (pos + nl + 1) (input.drop (nl + 1))

def findTerminator (input : Bytes) : ℕ × Option ℕ :=
  findTerminatorLoop (input.length + 1) 0 input

/-- A payload event, unless the payload is empty. -/
def rowsEvent (payload : Bytes) : List Event :=
  if payload.isEmpty then [] else [.copyRows payload]

/-- The loop of `feed` over the lines of a chunk. What is left at the end is
carried over as `pending`. -/
def feedLoop : ℕ → Scanner → Bytes → List Event → Except Error (Scanner × List Event)
  | 0, s, input, events => .ok ({ s with pending := s.pending ++ input }, events)
  | fuel + 1, s, input, events =>
    match s.state with
    | .sql =>
      match memchr newline input with
      | none => .ok ({ s with pending := s.pending ++ input }, events)
      | some nl =>
        match s.sqlLine (stripCr (input.take nl)) with
        | .error e => .error e
        | .ok (s, emitted) => feedLoop fuel s (input.drop (nl + 1)) (events ++ emitted)
    | .copy =>
      match findTerminator input with
      | (consumed, some offset) =>
        let (s, emitted) := s.closeCopy
        feedLoop fuel s (input.drop consumed)
          (events ++ rowsEvent (input.take offset) ++ emitted)
      | (consumed, none) =>
        -- the last line may be the start of the terminator
        .ok ({ s with pending := s.pending ++ input.drop consumed },
          events ++ rowsEvent (input.take consumed))

def pendingLine (s : Scanner) (line : Bytes) : Except Error (Scanner × List Event) :=
  match s.state with
  | .sql => s.sqlLine line
  | .copy =>
    -- A row that was cut goes out on its own, without the carriage return.
    if isEndOfData line then .ok s.closeCopy else .ok (s, [.copyRows (line ++ [newline])])

/-- Consume one chunk and return everything recognised within it. -/
def feed (s : Scanner) (chunk : Bytes) : Except Error (Scanner × List Event) :=
  if s.pending.isEmpty then feedLoop (chunk.length + 1) s chunk []
  else
    match memchr newline chunk with
    | none => .ok ({ s with pending := s.pending ++ chunk }, [])
    | some nl =>
      let line := s.pending ++ chunk.take nl
      match { s with pending := [] }.pendingLine (stripCr line) with
      | .error e => .error e
      | .ok (s, emitted) => feedLoop (chunk.length + 1) s (chunk.drop (nl + 1)) emitted

/-- Assert that the dump ended in a valid state. -/
def finish (s : Scanner) : Except Error Unit :=
  if s.state = .copy then
    .error (.unterminatedCopy ((s.openTable.map TableName.qualified).getD ""))
  else if s.dumpedBy.isNone then .error .missingDumpVersion
  else .ok ()

/-- Feed chunks one after another. -/
def feedAll : Scanner → List Bytes → Except Error (Scanner × List Event)
  | s, [] => .ok (s, [])
  | s, chunk :: chunks =>
    match s.feed chunk with
    | .error e => .error e
    | .ok (s, events) =>
      match s.feedAll chunks with
      | .error e => .error e
      | .ok (s, more) => .ok (s, events ++ more)

end Scanner

end PgDelta.Scan
