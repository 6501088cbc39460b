import PgDelta.Anonymise.Synth
import PgDelta.Copy.Decode
import PgDelta.Scan.Lexer

/-!
The tool that rewrites a dump, line by line.

Lines outside `COPY` blocks are kept, but for what ends them. Of the rows of a
block the first are kept, with their fields replaced. Names are not replaced
here: the tool does so on request only.
-/

namespace PgDelta.Anonymise

open PgDelta.Lib PgDelta.Copy PgDelta.Scan PgDelta.Values

/-- `\s` in a pattern over bytes. -/
def isSpaceByte (c : UInt8) : Bool := c == 32 || (9 ≤ c && c ≤ 13)

/-- `\s+`, as many as there are, and what is behind them. -/
def skipSpaces (s : Bytes) : Option Bytes :=
  if (s.head?.map isSpaceByte).getD false then some (s.dropWhile isSpaceByte) else none

/-- `\s+FROM\s+stdin;\s*$` -/
def endsHeader (s : Bytes) : Bool :=
  ((((skipSpaces s).bind fun s => stripPrefixCi s (ascii "FROM")).bind skipSpaces).bind
    fun s => stripPrefixCi s (ascii "stdin;")).any fun rest => rest.all isSpaceByte

/-- `^COPY\s+(.+?)\s+FROM\s+stdin;\s*$` with letters of both cases: what stands
for the group. The spaces in front of it are as many as can be, and the group is
as short as can be. -/
def copyTarget (line : Bytes) : Option Bytes :=
  (stripPrefixCi line (ascii "COPY")).bind fun rest =>
    (List.range (rest.takeWhile isSpaceByte).length).reverse.findSome? fun spaces =>
      let s := rest.drop (spaces + 1)
      (List.range s.length).findSome? fun n =>
        if endsHeader (s.drop (n + 1)) then some (s.take (n + 1)) else none

/-- `str.isspace`: the separators of ASCII are white space too. -/
def isPythonSpace (c : Char) : Bool :=
  isWhitespace c || (0x1c ≤ c.toNat && c.toNat ≤ 0x1f)

/-- The name in front of the list of columns. -/
def targetTable (target : Bytes) : String :=
  let name := (fromUtf8Lossy target).toList.takeWhile (· ≠ '(')
  String.ofList ((name.dropWhile isPythonSpace).rdropWhile isPythonSpace)

def stripLineEnd (line : Bytes) : Bytes :=
  line.rdropWhile fun c => c == carriageReturn || c == newline

structure Stats where
  tables : ℕ := 0
  rowsIn : ℕ := 0
  rowsOut : ℕ := 0
  fields : ℕ := 0
  deriving DecidableEq, Repr

/-- The variables of `anonymise`. -/
structure Tool where
  inCopy : Bool := false
  table : String := ""
  rowIndex : ℕ := 0
  emitted : ℕ := 0
  stats : Stats := {}
  deriving DecidableEq, Repr

namespace Tool

variable (synth : Synth) (maxRows : Option ℕ)

def rebuild (table : String) (rowIndex index : ℕ) (field : Bytes) : Bytes :=
  if field = nullMarker then field else synth.field table index rowIndex field

def rebuildRow (table : String) (rowIndex : ℕ) (row : Bytes) : Bytes :=
  [tab].intercalate ((row.splitOn tab).mapIdx (rebuild synth table rowIndex))

def outside (t : Tool) (line : Bytes) : Tool :=
  match copyTarget line with
  | some target =>
    { t with
      inCopy := true, rowIndex := 0, emitted := 0, table := targetTable target
      stats := { t.stats with tables := t.stats.tables + 1 } }
  | none => t

/-- A row, and what is written for it. -/
def row (t : Tool) (line : Bytes) : Tool × Option Bytes :=
  let t :=
    { t with
      rowIndex := t.rowIndex + 1, stats := { t.stats with rowsIn := t.stats.rowsIn + 1 } }
  if maxRows.any fun n => decide (n ≤ t.emitted) then (t, none)
  else
    ({ t with
        emitted := t.emitted + 1
        stats := { t.stats with
          rowsOut := t.stats.rowsOut + 1
          fields := t.stats.fields + (line.splitOn tab).length } },
      some (rebuildRow synth t.table t.rowIndex line))

def line (t : Tool) (line : Bytes) : Tool × Option Bytes :=
  if t.inCopy then
    if line = endOfData then ({ t with inCopy := false }, some line)
    else t.row synth maxRows line
  else (t.outside line, some line)

def lines : Tool → List Bytes → Tool × List Bytes
  | t, [] => (t, [])
  | t, l :: ls =>
    let (t, out) := t.line synth maxRows l
    let (t, more) := t.lines ls
    (t, out.toList ++ more)

end Tool

def strippedLines (src : Bytes) : List Bytes := (allLines newline src).map stripLineEnd

/-- Rewrite a dump, and sum up. -/
def anonymise (synth : Synth) (maxRows : Option ℕ) (src : Bytes) : Bytes × Stats :=
  let (t, out) := Tool.lines synth maxRows {} (strippedLines src)
  (unlines newline out, t.stats)

end PgDelta.Anonymise
