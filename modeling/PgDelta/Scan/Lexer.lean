import PgDelta.Error
import PgDelta.Lib.Utf8

/-!
Reading the few SQL statements that a dump needs understood: the name and the
columns of a `CREATE TABLE`, and the header of a `COPY` block.

Each reader takes the bytes that are left and returns what it read with the
bytes behind it. A name is decoded from UTF-8 once it is complete.
-/

namespace PgDelta.Scan

open PgDelta.Lib

def quote : UInt8 := 34
def openParen : UInt8 := 40
def closeParen : UInt8 := 41
def comma : UInt8 := 44
def dot : UInt8 := 46

/-- `pg_dump` major versions this build has been qualified against. -/
def supportedMajors : List ℕ := [16, 17]

/-- A table's name, with the schema kept separate from the table identifier. -/
structure TableName where
  schema : Option String
  table : String
  deriving DecidableEq, Repr

/-- The name as the dump writes it, for statistics, filters and messages. -/
def TableName.qualified (name : TableName) : String :=
  match name.schema with
  | some schema => schema ++ "." ++ name.table
  | none => name.table

structure ColumnDef where
  name : String
  sqlType : String
  deriving DecidableEq, Repr

structure TableDef where
  name : TableName
  columns : List ColumnDef
  deriving DecidableEq, Repr

def stripPrefixCi (line word : Bytes) : Option Bytes :=
  if word.length ≤ line.length ∧ eqIgnoreAsciiCase (line.take word.length) word then
    some (line.drop word.length)
  else none

theorem getElem?_of_stripPrefixCi {s word : Bytes}
    (h : (stripPrefixCi s word).isSome = true) {i : ℕ} (hi : i < word.length) :
    (s[i]?).map toAsciiLowercase = (word[i]?).map toAsciiLowercase := by
  unfold stripPrefixCi at h
  by_cases hword : word.length ≤ s.length ∧ eqIgnoreAsciiCase (s.take word.length) word
  · have heq : (s.take word.length).map toAsciiLowercase = word.map toAsciiLowercase := by
      simpa [eqIgnoreAsciiCase] using hword.2
    have hget := congrArg (fun l : Bytes => l[i]?) heq
    simpa [List.getElem?_map, List.getElem?_take, hi] using hget
  · simp [hword] at h

/-- Two words that differ in a letter do not both start a line. -/
theorem stripPrefixCi_exclusive {line v w : Bytes} (h : (stripPrefixCi line v).isSome = true)
    (i : ℕ) (hv : i < v.length) (hw : i < w.length)
    (hne : (v[i]?).map toAsciiLowercase ≠ (w[i]?).map toAsciiLowercase) :
    stripPrefixCi line w = none := by
  cases hline : stripPrefixCi line w with
  | none => rfl
  | some rest =>
      have hgetv := getElem?_of_stripPrefixCi h hv
      have hgetw := getElem?_of_stripPrefixCi (by rw [hline]; rfl) hw
      exact absurd (hgetv.symm.trans hgetw) hne

def endsWithCi (line suffix : Bytes) : Bool :=
  suffix.length ≤ line.length && eqIgnoreAsciiCase (line.drop (line.length - suffix.length)) suffix

/-- The leading integer of a version string. A value that does not fit the
`u32` it is parsed into is no version. -/
def leadingMajor (s : Bytes) : Option ℕ :=
  let digits := (s.dropWhile isAsciiWhitespace).takeWhile isAsciiDigit
  if digits.isEmpty then none
  else
    let value := digits.foldl (fun n d => 10 * n + (d.toNat - 48)) 0
    if value < 2 ^ 32 then some value else none

/-- The pieces of `s` behind the piece read so far, at a paren depth and inside
or outside a quoted identifier. -/
def splitLoop (sep : UInt8) : ℤ → Bool → Bytes → Bytes → List Bytes
  | _, _, piece, [] => [piece]
  | depth, true, piece, c :: s =>
    if c = quote then
      match s with
      | [] => splitLoop sep depth false (piece ++ [c]) []
      | d :: s =>
        if d = quote then splitLoop sep depth true (piece ++ [c, d]) s
        else splitLoop sep depth false (piece ++ [c]) (d :: s)
    else splitLoop sep depth true (piece ++ [c]) s
  | depth, false, piece, c :: s =>
    if c = quote then splitLoop sep depth true (piece ++ [c]) s
    else if c = openParen then splitLoop sep (depth + 1) false (piece ++ [c]) s
    else if c = closeParen then splitLoop sep (depth - 1) false (piece ++ [c]) s
    else if c = sep ∧ depth = 0 then piece :: splitLoop sep depth false [] s
    else splitLoop sep depth false (piece ++ [c]) s

theorem splitLoop_quoted {c : UInt8} (hc : c ≠ quote) (sep : UInt8) (depth : ℤ)
    (piece s : Bytes) :
    splitLoop sep depth true piece (c :: s) = splitLoop sep depth true (piece ++ [c]) s := by
  cases s <;> simp [splitLoop, hc]

/-- Split on `sep` at paren depth zero, outside double-quoted identifiers. -/
def splitTopLevel (s : Bytes) (sep : UInt8) : List Bytes := splitLoop sep 0 false [] s

def takeQuoted : Bytes → Bytes → Option (Bytes × Bytes)
  | _, [] => none
  | name, c :: s =>
    if c = quote then
      match s with
      -- nothing stands behind the closing quote
      | [] => some (name, [])
      | d :: s => if d = quote then takeQuoted (name ++ [quote]) s else some (name, d :: s)
    else takeQuoted (name ++ [c]) s

theorem takeQuoted_of_ne {c : UInt8} (hc : c ≠ quote) (name s : Bytes) :
    takeQuoted name (c :: s) = takeQuoted (name ++ [c]) s := by
  cases s <;> simp [takeQuoted, hc]

def endsBare (c : UInt8) : Bool := isAsciiWhitespace c || c == openParen || c == comma || c == dot

def takeIdentifier (s : Bytes) : Option (String × Bytes) :=
  match trimAsciiStart s with
  | [] => none
  | c :: s =>
    if c = quote then (takeQuoted [] s).map fun (name, rest) => (fromUtf8Lossy name, rest)
    -- no character stands before the separator
    else if endsBare c then none
    else
      some (fromUtf8Lossy ((c :: s).takeWhile fun c => !endsBare c),
        (c :: s).dropWhile fun c => !endsBare c)

/-- A possibly schema-qualified identifier, and the bytes behind it. -/
def takeQualified (s : Bytes) : Option (TableName × Bytes) :=
  match takeIdentifier s with
  | none => none
  | some (first, rest) =>
    match rest with
    | c :: rest' =>
      if c = dot then
        (takeIdentifier rest').map fun (second, rest) =>
          ({ schema := some first, table := second }, rest)
      else some ({ schema := none, table := first }, rest)
    | [] => some ({ schema := none, table := first }, [])

def stripCreateTable (line : Bytes) : Option Bytes :=
  (stripPrefixCi line (ascii "CREATE TABLE ")).or
    (stripPrefixCi line (ascii "CREATE UNLOGGED TABLE "))

def matchingParenLoop : ℤ → Bool → ℕ → Bytes → Option ℕ
  | _, _, _, [] => none
  | depth, true, i, c :: s =>
    if c = quote then
      match s with
      | [] => none
      | d :: s =>
        if d = quote then matchingParenLoop depth true (i + 2) s
        else matchingParenLoop depth false (i + 1) (d :: s)
    else matchingParenLoop depth true (i + 1) s
  | depth, false, i, c :: s =>
    if c = quote then matchingParenLoop depth true (i + 1) s
    else if c = openParen then matchingParenLoop (depth + 1) false (i + 1) s
    else if c = closeParen then
      if depth - 1 = 0 then some i else matchingParenLoop (depth - 1) false (i + 1) s
    else matchingParenLoop depth false (i + 1) s

theorem matchingParenLoop_quoted {c : UInt8} (hc : c ≠ quote) (depth : ℤ) (i : ℕ) (s : Bytes) :
    matchingParenLoop depth true i (c :: s) = matchingParenLoop depth true (i + 1) s := by
  cases s <;> simp [matchingParenLoop, hc]

/-- Index of the `)` matching the `(` at `start`, outside quoted identifiers. -/
def matchingParen (s : Bytes) (start : ℕ) : Option ℕ :=
  matchingParenLoop 0 false start (s.drop start)

/-- Keywords that end a column's type text. -/
def typeTerminators : List Bytes :=
  [ascii "DEFAULT", ascii "NOT", ascii "NULL", ascii "GENERATED", ascii "COLLATE",
    ascii "CONSTRAINT", ascii "CHECK", ascii "REFERENCES", ascii "PRIMARY", ascii "UNIQUE"]

/-- Keywords that mark a table-level constraint rather than a column. -/
def constraintLeaders : List Bytes :=
  [ascii "CONSTRAINT", ascii "PRIMARY", ascii "UNIQUE", ascii "FOREIGN", ascii "CHECK",
    ascii "EXCLUDE", ascii "LIKE"]

/-- The leading word of `s`, up to white space. -/
def firstWord (s : Bytes) : Bytes := s.takeWhile fun c => !isAsciiWhitespace c

/-- How many of the bytes `s` belong to the type text: those before a
terminating keyword that stands at paren depth zero behind white space. -/
def typeLength : ℤ → Bool → Bytes → ℕ
  | _, _, [] => 0
  | depth, atWord, c :: s =>
    let depth := if c = openParen then depth + 1 else if c = closeParen then depth - 1 else depth
    if depth = 0 ∧ atWord ∧ typeTerminators.any (eqIgnoreAsciiCase (firstWord (c :: s))) then 0
    else typeLength depth (isAsciiWhitespace c) s + 1

/-- The tail of a column definition, cut down to its type text. -/
def takeType (s : Bytes) : String :=
  fromUtf8Lossy (trimAscii ((trimAscii s).take (typeLength 0 true (trimAscii s))))

/-- One item between the parens of a `CREATE TABLE`, when it is a column. -/
def parseColumn (item : Bytes) : Option ColumnDef :=
  let item := trimAscii item
  if item.isEmpty then none
  else if constraintLeaders.any (eqIgnoreAsciiCase (firstWord item)) then none
  else
    match takeIdentifier item with
    | none => none
    | some (col, tail) =>
      if (takeType tail).isEmpty then none else some { name := col, sqlType := takeType tail }

/-- Parse a complete `CREATE TABLE` statement. -/
def parseCreateTable (ddl : Bytes) : Except Error TableDef :=
  match stripCreateTable (trimAsciiStart ddl) with
  | none => .error (.malformedCreateTable "")
  | some afterKw =>
    match takeQualified afterKw with
    | none => .error (.malformedCreateTable "")
    | some (name, rest) =>
      match memchr openParen rest with
      | none => .error (.malformedCreateTable name.qualified)
      | some start =>
        match matchingParen rest start with
        | none => .error (.malformedCreateTable name.qualified)
        | some stop =>
          let items := splitTopLevel (slice rest (start + 1) stop) comma
          .ok { name := name, columns := items.filterMap parseColumn }

/-- Parse `COPY <table> (<cols>) FROM stdin;`. An absent column list yields no
columns, meaning that the table's declaration order applies. -/
def parseCopyHeader (line : Bytes) : Except Error (TableName × List String) :=
  match stripPrefixCi (trimAsciiStart line) (ascii "COPY ") with
  | none => .error (.malformedCopyHeader 0)
  | some afterKw =>
    match takeQualified afterKw with
    | none => .error (.malformedCopyHeader 0)
    | some (table, rest) =>
      match memchr openParen rest with
      | none => .ok (table, [])
      | some start =>
        match matchingParen rest start with
        | none => .ok (table, [])
        | some stop =>
          let items := splitTopLevel (slice rest (start + 1) stop) comma
          .ok (table, items.filterMap fun item => (takeIdentifier item).map Prod.fst)

example : parseCopyHeader (ascii "COPY public.\"odd \"\"name\" (id, \"a,b\") FROM stdin;") =
    .ok ({ schema := some "public", table := "odd \"name" }, ["id", "a,b"]) := by
  decide +kernel

/-! ### Names on one line -/

theorem newline_not_mem_takeQuoted {name s b rest : Bytes} (hname : newline ∉ name)
    (hs : newline ∉ s) (h : takeQuoted name s = some (b, rest)) : newline ∉ b ∧ newline ∉ rest := by
  have hquote : newline ∉ [quote] := by decide
  induction name, s using takeQuoted.induct with
  | case1 name => simp [takeQuoted] at h
  | case2 name =>
    obtain ⟨rfl, rfl⟩ : name = b ∧ [] = rest := by simpa [takeQuoted] using h
    exact ⟨hname, by simp⟩
  | case3 name s ih =>
    have hs : newline ∉ s := fun hmem => hs (by simp [hmem])
    apply ih _ hs
    · simpa [takeQuoted] using h
    · rw [List.mem_append, not_or]
      exact ⟨hname, hquote⟩
  | case4 name d s hd =>
    obtain ⟨rfl, rfl⟩ : name = b ∧ d :: s = rest := by simpa [takeQuoted, hd] using h
    exact ⟨hname, fun hmem => hs (List.mem_cons_of_mem _ hmem)⟩
  | case5 name c s hc ih =>
    obtain ⟨hne, hs⟩ : newline ≠ c ∧ newline ∉ s := by simpa using hs
    rw [takeQuoted_of_ne hc] at h
    apply ih _ hs h
    simpa using ⟨hname, hne⟩

theorem newline_not_mem_takeIdentifier {s rest : Bytes} {name : String} (hs : newline ∉ s)
    (h : takeIdentifier s = some (name, rest)) : '\n' ∉ name.toList ∧ newline ∉ rest := by
  have htrim : newline ∉ trimAsciiStart s := fun hmem =>
    hs ((List.dropWhile_sublist _).subset hmem)
  unfold takeIdentifier at h
  cases hline : trimAsciiStart s with
  | nil => simp [hline] at h
  | cons c s =>
    rw [hline] at htrim
    by_cases hc : c = quote
    · obtain ⟨⟨b, rest'⟩, hquoted, hb⟩ : ∃ r, takeQuoted [] s = some r ∧
          (fromUtf8Lossy r.1, r.2) = (name, rest) := by
        simpa [hline, hc] using h
      obtain ⟨hb', hrest⟩ := newline_not_mem_takeQuoted (by simp)
        (fun hmem => htrim (List.mem_cons_of_mem _ hmem)) hquoted
      obtain ⟨rfl, rfl⟩ := Prod.mk.inj hb
      exact ⟨newline_not_mem_fromUtf8Lossy hb', hrest⟩
    · cases hbare : endsBare c with
      | true => simp [hline, hc, hbare] at h
      | false =>
        simp only [hline, hc, hbare, if_false, Bool.false_eq_true, Option.some.injEq,
          Prod.mk.injEq] at h
        obtain ⟨rfl, rfl⟩ := h
        refine ⟨newline_not_mem_fromUtf8Lossy fun hmem => ?_, fun hmem => ?_⟩
        · exact htrim ((List.takeWhile_sublist _).subset hmem)
        · exact htrim ((List.dropWhile_sublist _).subset hmem)

def headerNames (table : TableName) (columns : List String) : List String :=
  table.schema.toList ++ table.table :: columns

theorem newline_not_mem_takeQualified {s rest : Bytes} {name : TableName} (hs : newline ∉ s)
    (h : takeQualified s = some (name, rest)) :
    (∀ n ∈ headerNames name [], '\n' ∉ n.toList) ∧ newline ∉ rest := by
  unfold takeQualified at h
  cases hfirst : takeIdentifier s with
  | none => simp [hfirst] at h
  | some r =>
    obtain ⟨first, rest₁⟩ := r
    obtain ⟨hname, hrest₁⟩ := newline_not_mem_takeIdentifier hs hfirst
    cases rest₁ with
    | nil =>
      obtain ⟨rfl, rfl⟩ : ⟨none, first⟩ = name ∧ [] = rest := by simpa [hfirst] using h
      simpa [headerNames] using hname
    | cons c rest₂ =>
      by_cases hdot : c = dot
      · obtain ⟨⟨second, rest'⟩, hsecond, hr⟩ : ∃ r, takeIdentifier rest₂ = some r ∧
            (TableName.mk (some first) r.1, r.2) = (name, rest) := by
          simpa [hfirst, hdot] using h
        obtain ⟨rfl, rfl⟩ := Prod.mk.inj hr
        obtain ⟨hname', hrest'⟩ := newline_not_mem_takeIdentifier
          (fun hmem => hrest₁ (List.mem_cons_of_mem _ hmem)) hsecond
        simpa [headerNames] using ⟨⟨hname, hname'⟩, hrest'⟩
      · obtain ⟨rfl, rfl⟩ : ⟨none, first⟩ = name ∧ c :: rest₂ = rest := by
          simpa [hfirst, hdot] using h
        exact ⟨by simpa [headerNames] using hname, hrest₁⟩

theorem newline_not_mem_splitLoop (sep : UInt8) {depth : ℤ} {quoted : Bool} {piece s : Bytes}
    (h : newline ∉ piece ++ s) : ∀ p ∈ splitLoop sep depth quoted piece s, newline ∉ p := by
  induction depth, quoted, piece, s using splitLoop.induct sep with
  | case1 depth quoted piece => simpa [splitLoop] using h
  | case2 depth piece ih =>
    simpa [splitLoop] using ih (by simpa using h)
  | case3 depth piece s ih =>
    simpa [splitLoop] using ih (by simpa using h)
  | case4 depth piece d s hd ih =>
    simpa [splitLoop, hd] using ih (by simpa using h)
  | case5 depth piece c s hc ih =>
    rw [splitLoop_quoted hc]
    exact ih (by simpa using h)
  | case6 depth piece s ih =>
    simpa [splitLoop] using ih (by simpa using h)
  | case7 depth piece s hquote ih =>
    simpa [splitLoop, hquote] using ih (by simpa using h)
  | case8 depth piece s hquote hopen ih =>
    simpa [splitLoop, hquote, hopen] using ih (by simpa using h)
  | case9 depth piece c s hquote hopen hclose hsep ih =>
    obtain ⟨hpiece, -, hs⟩ : newline ∉ piece ∧ newline ≠ c ∧ newline ∉ s := by simpa using h
    rw [splitLoop, if_neg hquote, if_neg hopen, if_neg hclose, if_pos hsep, List.forall_mem_cons]
    exact ⟨hpiece, ih (by simpa using hs)⟩
  | case10 depth piece c s hquote hopen hclose hsep ih =>
    rw [splitLoop, if_neg hquote, if_neg hopen, if_neg hclose, if_neg hsep]
    exact ih (by simpa using h)

/-- The header of a block on one line gives names on one line. -/
theorem newline_not_mem_parseCopyHeader {line : Bytes} {table : TableName} {columns : List String}
    (hline : newline ∉ line) (h : parseCopyHeader line = .ok (table, columns)) :
    ∀ name ∈ headerNames table columns, '\n' ∉ name.toList := by
  unfold parseCopyHeader at h
  cases hkw : stripPrefixCi (trimAsciiStart line) (ascii "COPY ") with
  | none => simp [hkw] at h
  | some afterKw =>
    have hafter : newline ∉ afterKw := by
      unfold stripPrefixCi at hkw
      split_ifs at hkw
      obtain rfl := Option.some.inj hkw
      exact fun hmem => hline ((List.dropWhile_sublist _).subset (List.mem_of_mem_drop hmem))
    cases hqualified : takeQualified afterKw with
    | none => simp [hkw, hqualified] at h
    | some r =>
      obtain ⟨name, rest⟩ := r
      obtain ⟨hname, hrest⟩ := newline_not_mem_takeQualified hafter hqualified
      cases hopen : memchr openParen rest with
      | none =>
        obtain ⟨rfl, rfl⟩ : name = table ∧ [] = columns := by
          simpa [hkw, hqualified, hopen] using h
        exact hname
      | some start =>
        cases hclose : matchingParen rest start with
        | none =>
          obtain ⟨rfl, rfl⟩ : name = table ∧ [] = columns := by
            simpa [hkw, hqualified, hopen, hclose] using h
          exact hname
        | some stop =>
          simp only [hkw, hqualified, hopen, hclose, Except.ok.injEq, Prod.mk.injEq] at h
          obtain ⟨rfl, rfl⟩ := h
          have hslice : newline ∉ slice rest (start + 1) stop := fun hmem =>
            hrest (List.mem_of_mem_take (List.mem_of_mem_drop hmem))
          intro n hn
          rcases List.mem_append.mp hn with hn | hn
          · exact hname n (List.mem_append_left _ hn)
          · rcases List.mem_cons.mp hn with rfl | hn
            · exact hname _ (by simp [headerNames])
            · obtain ⟨item, hitem, hread⟩ := List.mem_filterMap.mp hn
              obtain ⟨⟨column, tail⟩, hcolumn, rfl⟩ := Option.map_eq_some_iff.mp hread
              have hpiece := newline_not_mem_splitLoop comma (by simpa using hslice) item hitem
              exact (newline_not_mem_takeIdentifier hpiece hcolumn).1

end PgDelta.Scan
