import PgDelta.Scan.Payload

/-!
A `COPY` block written by the rules of COPY TEXT is read back by the scanner
and the row decoder as it was, through any chunking.

A `SqlName` carries its name with one of the ways to write it, so that the
header of a block is a matter of writing texts side by side; the readers of
`Lexer` are shown to step over a written name as over one symbol.
-/

namespace PgDelta.Scan

open PgDelta.Lib PgDelta.Copy Scanner

/-! ### Writing -/

/-- A lowercase ASCII word: letters, digits and underscores. -/
def isLowerWord (b : Bytes) : Bool :=
  !b.isEmpty && b.all fun c => (97 ≤ c && c ≤ 122) || c == 95 || isAsciiDigit c

def doubleQuotes (b : Bytes) : Bytes := b.flatMap fun c => if c = quote then [quote, quote] else [c]

/-- The ways to write an identifier: bare, when it is a lowercase word, or in
double quotes. -/
inductive Written : String → Bytes → Prop
  | bare (name : String) (h : isLowerWord (utf8 name) = true) : Written name (utf8 name)
  | quoted (name : String) : Written name (quote :: doubleQuotes (utf8 name) ++ [quote])

structure SqlName where
  name : String
  text : Bytes
  written : Written name text

/-- The name of a table as a statement writes it. -/
def writtenName : Option SqlName → SqlName → Bytes
  | none, table => table.text
  | some schema, table => schema.text ++ dot :: table.text

def givenName (schema : Option SqlName) (table : SqlName) : TableName :=
  { schema := schema.map SqlName.name, table := table.name }

/-- Names, separated by a comma and a space. -/
def columnsText : List SqlName → Bytes
  | [] => []
  | [c] => c.text
  | c :: d :: cs => c.text ++ comma :: 32 :: columnsText (d :: cs)

/-- The header of a `COPY` block with a column list. -/
structure CopyHeader where
  schema : Option SqlName
  table : SqlName
  columns : List SqlName
  columns_ne : columns ≠ []

namespace CopyHeader

def name (h : CopyHeader) : TableName := givenName h.schema h.table

def columnNames (h : CopyHeader) : List String := h.columns.map SqlName.name

def text (h : CopyHeader) : Bytes :=
  ascii "COPY " ++ writtenName h.schema h.table ++ ascii " (" ++ columnsText h.columns ++
    ascii ") FROM stdin;"

end CopyHeader

/-- A name without a newline. -/
structure Identifier extends SqlName where
  oneLine : '\n' ∉ name.toList

/-- A `COPY` block: rows of NULLs and byte strings, one field for each column. -/
structure CopyBlock where
  schema : Option Identifier
  table : Identifier
  columns : List Identifier
  rows : List (List (Option Bytes))
  columns_ne : columns ≠ []
  arity : ∀ row ∈ rows, row.length = columns.length

namespace CopyBlock

def copyHeader (b : CopyBlock) : CopyHeader where
  schema := b.schema.map Identifier.toSqlName
  table := b.table.toSqlName
  columns := b.columns.map Identifier.toSqlName
  columns_ne := fun h => b.columns_ne (List.map_eq_nil_iff.mp h)

def name (b : CopyBlock) : TableName := b.copyHeader.name

def columnNames (b : CopyBlock) : List String := b.copyHeader.columnNames

def header (b : CopyBlock) : Bytes := b.copyHeader.text

def lines (b : CopyBlock) : List Bytes := b.header :: b.rows.map encodeRow ++ [endOfData]

def encode (b : CopyBlock) : Bytes := unlines newline b.lines

end CopyBlock

/-! ### Reading over a written name -/

/-- A byte that every reader takes for part of a name. -/
structure Wordly (c : UInt8) : Prop where
  space : isAsciiWhitespace c = false
  bare : endsBare c = false
  quote : c ≠ quote
  close : c ≠ closeParen
  cr : c ≠ carriageReturn

theorem wordly_of_isLowerWord {b : Bytes} (h : isLowerWord b = true) :
    b ≠ [] ∧ ∀ c ∈ b, Wordly c := by
  obtain ⟨hne, hall⟩ : b ≠ [] ∧ ∀ c ∈ b,
      (97 ≤ c ∧ c ≤ 122) ∨ c = 95 ∨ (48 ≤ c ∧ c ≤ 57) := by
    simpa [isLowerWord, isAsciiDigit, or_assoc] using h
  refine ⟨hne, fun c hc => ?_⟩
  have hbyte := hall c hc
  have hneq : ∀ d : UInt8, ¬((97 ≤ d ∧ d ≤ 122) ∨ d = 95 ∨ (48 ≤ d ∧ d ≤ 57)) → c ≠ d := by
    rintro d hd rfl
    exact hd hbyte
  have hspace : isAsciiWhitespace c = false := by
    simp [isAsciiWhitespace, hneq 32 (by decide), hneq 9 (by decide), hneq 10 (by decide),
      hneq 12 (by decide), hneq 13 (by decide)]
  refine ⟨hspace, ?_, hneq _ (by decide), hneq _ (by decide), hneq _ (by decide)⟩
  simp [endsBare, hspace, hneq openParen (by decide), hneq comma (by decide),
    hneq dot (by decide)]

/-- A written identifier is a word, or the quoted form of its name. -/
theorem Written.word_or_quoted {name : String} {text : Bytes} (h : Written name text) :
    (text = utf8 name ∧ text ≠ [] ∧ ∀ c ∈ text, Wordly c) ∨
      text = quote :: doubleQuotes (utf8 name) ++ [quote] := by
  cases h with
  | quoted => exact .inr rfl
  | bare hword => exact .inl ⟨rfl, wordly_of_isLowerWord hword⟩

theorem takeQuoted_doubleQuotes (b name rest : Bytes) (h : rest.head? ≠ some quote) :
    takeQuoted name (doubleQuotes b ++ quote :: rest) = some (name ++ b, rest) := by
  induction b generalizing name with
  | nil =>
      cases rest with
      | nil => simp [doubleQuotes, takeQuoted]
      | cons d rest =>
          have hd : d ≠ quote := by simpa using h
          simp [doubleQuotes, takeQuoted, hd]
  | cons c b ih =>
      by_cases hc : c = quote
      · subst hc
        have ih := ih (name ++ [quote])
        simpa [doubleQuotes, takeQuoted] using ih
      · have ih := ih (name ++ [c])
        simpa [doubleQuotes, takeQuoted_of_ne hc, hc] using ih

theorem takeWhile_wordly {w : Bytes} (hw : ∀ c ∈ w, Wordly c) {c : UInt8}
    (hc : endsBare c = true) (rest : Bytes) :
    (w ++ c :: rest).takeWhile (fun c => !endsBare c) = w ∧
      (w ++ c :: rest).dropWhile (fun c => !endsBare c) = c :: rest := by
  induction w with
  | nil => simp [hc]
  | cons d w ih =>
      have hd : endsBare d = false := (hw d (by simp)).bare
      have ih := ih (fun e he => hw e (by simp [he]))
      simpa [hd] using ih

/-- An identifier is read back from its text, with or without white space in
front of it. -/
theorem Written.takeIdentifier {name : String} {text : Bytes} (h : Written name text) {c : UInt8}
    (hc : endsBare c = true) (rest : Bytes) :
    takeIdentifier (text ++ c :: rest) = some (name, c :: rest) := by
  have hquote : c ≠ quote := by
    rintro rfl
    exact absurd hc (by decide)
  rcases h.word_or_quoted with ⟨htext, hne, hword⟩ | htext
  · obtain ⟨d, w, hdw⟩ := List.exists_cons_of_ne_nil hne
    have hd : Wordly d := hword d (by simp [hdw])
    have htrim : trimAsciiStart (text ++ c :: rest) = text ++ c :: rest := by
      simp [trimAsciiStart, hdw, hd.space]
    obtain ⟨htake, hdrop⟩ := takeWhile_wordly hword hc rest
    rw [Scan.takeIdentifier, htrim]
    simp only [hdw, List.cons_append] at htake hdrop ⊢
    simp only [hd.quote, hd.bare, htake, hdrop, if_false, Bool.false_eq_true]
    rw [← hdw, htext, fromUtf8Lossy_utf8]
  · have htrim : trimAsciiStart (text ++ c :: rest) = text ++ c :: rest := by
      simp [trimAsciiStart, htext, show isAsciiWhitespace quote = false by decide]
    have htake := takeQuoted_doubleQuotes (utf8 name) [] (c :: rest) (by simpa using hquote)
    rw [Scan.takeIdentifier, htrim]
    simp [htext, htake]

theorem takeIdentifier_space (s : Bytes) : takeIdentifier (32 :: s) = takeIdentifier s := by
  have htrim : trimAsciiStart (32 :: s) = trimAsciiStart s := by
    simp [trimAsciiStart, show isAsciiWhitespace 32 = true by decide]
  rw [takeIdentifier, takeIdentifier, htrim]

/-- An identifier at the end of a text is read back too. -/
theorem Written.takeIdentifier_last {name : String} {text : Bytes} (h : Written name text) :
    Scan.takeIdentifier text = some (name, []) := by
  rcases h.word_or_quoted with ⟨htext, hne, hword⟩ | htext
  · obtain ⟨d, w, hdw⟩ := List.exists_cons_of_ne_nil hne
    have hd : Wordly d := hword d (by simp [hdw])
    have hbare : ∀ e ∈ text, (!endsBare e) = true := fun e he => by simp [(hword e he).bare]
    have htrim : trimAsciiStart text = text := by
      simp [trimAsciiStart, hdw, hd.space]
    have htake := List.takeWhile_eq_self_iff.mpr hbare
    have hdrop := List.dropWhile_eq_nil_iff.mpr hbare
    rw [Scan.takeIdentifier, htrim]
    simp only [hdw] at htake hdrop ⊢
    simp only [hd.quote, hd.bare, htake, hdrop, if_false, Bool.false_eq_true]
    rw [← hdw, htext, fromUtf8Lossy_utf8]
  · have htrim : trimAsciiStart text = text := by
      simp [trimAsciiStart, htext, show isAsciiWhitespace quote = false by decide]
    have htake := takeQuoted_doubleQuotes (utf8 name) [] [] (by simp)
    rw [Scan.takeIdentifier, htrim]
    simp [htext, htake]

/-- A table name in front of a space, with a schema or without one. -/
theorem Written.takeQualified {name : String} {text : Bytes} (h : Written name text)
    (rest : Bytes) :
    takeQualified (text ++ 32 :: rest) = some ({ schema := none, table := name }, 32 :: rest) := by
  rw [Scan.takeQualified, h.takeIdentifier (show endsBare 32 = true by decide)]
  simp [show (32 : UInt8) ≠ dot by decide]

theorem Written.takeQualified_schema {schema table : String} {text text' : Bytes}
    (h : Written schema text) (h' : Written table text') (rest : Bytes) :
    Scan.takeQualified (text ++ dot :: text' ++ 32 :: rest) =
      some ({ schema := some schema, table := table }, 32 :: rest) := by
  rw [Scan.takeQualified, List.append_assoc, List.cons_append,
    h.takeIdentifier (show endsBare dot = true by decide)]
  simp [h'.takeIdentifier (show endsBare 32 = true by decide)]

theorem takeQualified_writtenName (schema : Option SqlName) (table : SqlName) (s : Bytes) :
    takeQualified (writtenName schema table ++ 32 :: s)
      = some (givenName schema table, 32 :: s) := by
  cases schema with
  | none => exact table.written.takeQualified s
  | some schema => exact schema.written.takeQualified_schema table.written s

/-! ### Stepping over a written name -/

theorem splitLoop_doubleQuotes (sep : UInt8) (depth : ℤ) (b piece rest : Bytes)
    (h : rest.head? ≠ some quote) :
    splitLoop sep depth true piece (doubleQuotes b ++ quote :: rest) =
      splitLoop sep depth false (piece ++ doubleQuotes b ++ [quote]) rest := by
  induction b generalizing piece with
  | nil =>
      cases rest with
      | nil => simp [doubleQuotes, splitLoop]
      | cons d rest =>
          have hd : d ≠ quote := by simpa using h
          simp [doubleQuotes, splitLoop, hd]
  | cons c b ih =>
      by_cases hc : c = quote
      · subst hc
        have ih := ih (piece ++ [quote, quote])
        simpa [doubleQuotes, splitLoop] using ih
      · have ih := ih (piece ++ [c])
        simpa [doubleQuotes, splitLoop_quoted hc, hc] using ih

theorem matchingParenLoop_doubleQuotes (depth : ℤ) (i : ℕ) (b rest : Bytes)
    (h : rest.head? ≠ some quote) :
    matchingParenLoop depth true i (doubleQuotes b ++ quote :: rest) =
      matchingParenLoop depth false (i + (doubleQuotes b).length + 1) rest := by
  induction b generalizing i with
  | nil =>
      cases rest with
      | nil => simp [doubleQuotes, matchingParenLoop]
      | cons d rest =>
          have hd : d ≠ quote := by simpa using h
          simp [doubleQuotes, matchingParenLoop, hd]
  | cons c b ih =>
      by_cases hc : c = quote
      · subst hc
        have ih := ih (i + 2)
        simp only [doubleQuotes, List.flatMap_cons, if_true, List.cons_append, List.nil_append,
          List.length_cons, matchingParenLoop] at ih ⊢
        rw [ih]
        congr 1
        omega
      · have ih := ih (i + 1)
        simp only [doubleQuotes, List.flatMap_cons, hc, if_false, List.cons_append,
          List.nil_append, List.length_cons, matchingParenLoop_quoted hc] at ih ⊢
        rw [ih]
        congr 1
        omega

theorem splitLoop_wordly {w : Bytes} (hw : ∀ c ∈ w, Wordly c) (depth : ℤ) (piece rest : Bytes) :
    splitLoop comma depth false piece (w ++ rest) =
      splitLoop comma depth false (piece ++ w) rest := by
  induction w generalizing piece with
  | nil => simp
  | cons c w ih =>
      have hc := hw c (by simp)
      have ih := ih (fun e he => hw e (by simp [he])) (piece ++ [c])
      have hopen : c ≠ openParen := by rintro rfl; exact absurd hc.bare (by decide)
      have hcomma : c ≠ comma := by rintro rfl; exact absurd hc.bare (by decide)
      simpa [splitLoop, hc.quote, hopen, hc.close, hcomma] using ih

theorem matchingParenLoop_wordly {w : Bytes} (hw : ∀ c ∈ w, Wordly c) (depth : ℤ) (i : ℕ)
    (rest : Bytes) :
    matchingParenLoop depth false i (w ++ rest) =
      matchingParenLoop depth false (i + w.length) rest := by
  induction w generalizing i with
  | nil => simp
  | cons c w ih =>
      have hc := hw c (by simp)
      have ih := ih (fun e he => hw e (by simp [he])) (i + 1)
      have hopen : c ≠ openParen := by rintro rfl; exact absurd hc.bare (by decide)
      rw [List.cons_append, matchingParenLoop, if_neg hc.quote, if_neg hopen, if_neg hc.close,
        ih, List.length_cons]
      congr 1
      omega

theorem splitLoop_written (x : SqlName) (depth : ℤ) (piece rest : Bytes)
    (h : rest.head? ≠ some quote) :
    splitLoop comma depth false piece (x.text ++ rest) =
      splitLoop comma depth false (piece ++ x.text) rest := by
  rcases x.written.word_or_quoted with ⟨-, -, hword⟩ | htext
  · exact splitLoop_wordly hword depth piece rest
  · have hquoted := splitLoop_doubleQuotes comma depth (utf8 x.name) (piece ++ [quote]) rest h
    simpa [htext, splitLoop] using hquoted

theorem matchingParenLoop_written (x : SqlName) (depth : ℤ) (i : ℕ) (rest : Bytes)
    (h : rest.head? ≠ some quote) :
    matchingParenLoop depth false i (x.text ++ rest) =
      matchingParenLoop depth false (i + x.text.length) rest := by
  rcases x.written.word_or_quoted with ⟨-, -, hword⟩ | htext
  · exact matchingParenLoop_wordly hword depth i rest
  · have hquoted := matchingParenLoop_doubleQuotes depth (i + 1) (utf8 x.name) rest h
    simp only [htext, List.cons_append, List.append_assoc, List.nil_append, matchingParenLoop,
      if_true, hquoted, List.length_cons, List.length_append, List.length_nil]
    congr 1
    omega

/-- The pieces between the commas of a column list: the first text, and the
others behind a space. -/
theorem splitLoop_columnsText (cs : List SqlName) (x : SqlName) (piece : Bytes) :
    splitLoop comma 0 false piece (columnsText (x :: cs)) =
      (piece ++ x.text) :: cs.map fun c => 32 :: c.text := by
  induction cs generalizing x piece with
  | nil =>
      have hx := splitLoop_written x 0 piece [] (by simp)
      rw [List.append_nil] at hx
      rw [columnsText, hx]
      rfl
  | cons y cs ih =>
      rw [columnsText, splitLoop_written x 0 piece _ (by simp [show comma ≠ quote by decide])]
      have hcomma : ∀ p s, splitLoop comma 0 false p (comma :: 32 :: s) =
          p :: splitLoop comma 0 false [32] s := fun p s => by
        simp [splitLoop, show comma ≠ quote by decide, show comma ≠ openParen by decide,
          show comma ≠ closeParen by decide, show (32 : UInt8) ≠ quote by decide,
          show (32 : UInt8) ≠ openParen by decide, show (32 : UInt8) ≠ closeParen by decide,
          show (32 : UInt8) ≠ comma by decide]
      rw [hcomma, ih]
      simp

theorem matchingParenLoop_columnsText (cs : List SqlName) (x : SqlName) (i : ℕ)
    (rest : Bytes) :
    matchingParenLoop 1 false i (columnsText (x :: cs) ++ closeParen :: rest) =
      some (i + (columnsText (x :: cs)).length) := by
  induction cs generalizing x i with
  | nil =>
      rw [columnsText, matchingParenLoop_written x 1 i _
        (by simp [show closeParen ≠ quote by decide])]
      simp [matchingParenLoop, show closeParen ≠ quote by decide,
        show closeParen ≠ openParen by decide]
  | cons y cs ih =>
      have hstep : ∀ j s, matchingParenLoop 1 false j (comma :: 32 :: s) =
          matchingParenLoop 1 false (j + 2) s := fun j s => by
        simp [matchingParenLoop, show comma ≠ quote by decide, show comma ≠ openParen by decide,
          show comma ≠ closeParen by decide, show (32 : UInt8) ≠ quote by decide,
          show (32 : UInt8) ≠ openParen by decide, show (32 : UInt8) ≠ closeParen by decide]
      rw [columnsText, List.append_assoc,
        matchingParenLoop_written x 1 i _ (by simp [show comma ≠ quote by decide]),
        List.cons_append, List.cons_append, hstep, ih]
      simp only [List.length_append, List.length_cons]
      congr 1
      omega

theorem filterMap_takeIdentifier (cs : List SqlName) :
    (cs.map fun c => 32 :: c.text).filterMap
      (fun item => (takeIdentifier item).map Prod.fst) = cs.map SqlName.name := by
  induction cs with
  | nil => rfl
  | cons c cs ih => simp [takeIdentifier_space, c.written.takeIdentifier_last, ih]

/-! ### The header of a block -/

namespace CopyHeader

/-- What follows the table name in the header of a block. -/
def columnsPart (h : CopyHeader) : Bytes :=
  openParen :: columnsText h.columns ++ closeParen :: ascii " FROM stdin;"

theorem text_eq (h : CopyHeader) :
    h.text = ascii "COPY " ++ (writtenName h.schema h.table ++ 32 :: h.columnsPart) := by
  simp [text, columnsPart, show ascii " (" = [32, openParen] by decide,
    show ascii ") FROM stdin;" = closeParen :: ascii " FROM stdin;" by decide]

theorem text_concat (h : CopyHeader) : ∃ t, h.text = t ++ ascii "FROM stdin" ++ [59] := by
  refine ⟨ascii "COPY " ++ writtenName h.schema h.table ++ ascii " (" ++
    columnsText h.columns ++ ascii ") ", ?_⟩
  simp [text, show ascii ") FROM stdin;" = ascii ") " ++ (ascii "FROM stdin" ++ [59]) by decide]

theorem matchingParen_columnsPart (h : CopyHeader) :
    matchingParen (32 :: h.columnsPart) 1 = some (2 + (columnsText h.columns).length) := by
  obtain ⟨x, cs, hcols⟩ := List.exists_cons_of_ne_nil h.columns_ne
  have hloop := matchingParenLoop_columnsText cs x 2 (ascii " FROM stdin;")
  simpa [matchingParen, columnsPart, hcols, matchingParenLoop,
    show openParen ≠ quote by decide] using hloop

theorem parseCopyHeader_text (h : CopyHeader) :
    parseCopyHeader h.text = .ok (h.name, h.columnNames) := by
  obtain ⟨x, cs, hcols⟩ := List.exists_cons_of_ne_nil h.columns_ne
  have hprefix : ∀ s, stripPrefixCi (trimAsciiStart (ascii "COPY " ++ s)) (ascii "COPY ") =
      some s := fun s => by
    simp [stripPrefixCi, trimAsciiStart, eqIgnoreAsciiCase, isAsciiWhitespace,
      show ascii "COPY " = [67, 79, 80, 89, 32] by decide]
  have hopen : memchr openParen (32 :: h.columnsPart) = some 1 := by
    simp [columnsPart, memchr, show (32 : UInt8) ≠ openParen by decide]
  have hslice : slice (32 :: h.columnsPart) (1 + 1) (2 + (columnsText h.columns).length) =
      columnsText h.columns := by
    simp [slice, columnsPart, Nat.add_comm 2]
  have hitems : splitTopLevel
      (slice (32 :: h.columnsPart) (1 + 1) (2 + (columnsText h.columns).length)) comma =
        x.text :: cs.map fun c => 32 :: c.text := by
    rw [hslice, splitTopLevel, hcols, splitLoop_columnsText, List.nil_append]
  rw [parseCopyHeader, text_eq, hprefix]
  simp only [takeQualified_writtenName, hopen, matchingParen_columnsPart, hitems,
    List.filterMap_cons, x.written.takeIdentifier_last, Option.map_some, filterMap_takeIdentifier]
  simp [name, columnNames, hcols]

theorem trimAsciiEnd_text (h : CopyHeader) : trimAsciiEnd h.text = h.text := by
  obtain ⟨t, ht⟩ := h.text_concat
  rw [ht, trimAsciiEnd, List.rdropWhile_concat_neg _ _ _ (by decide)]

theorem stripCr_text (h : CopyHeader) : stripCr h.text = h.text := by
  obtain ⟨t, ht⟩ := h.text_concat
  rw [stripCr, if_neg]
  rw [ht, List.getLast?_concat]
  decide

theorem isCopyHeader_text (h : CopyHeader) : isCopyHeader h.text = true := by
  obtain ⟨t, ht⟩ := h.text_concat
  have hend : endsWithCi h.text (ascii "FROM stdin;") = true := by
    rw [ht, List.append_assoc, show ascii "FROM stdin" ++ [59] = ascii "FROM stdin;" by decide]
    simp [endsWithCi, eqIgnoreAsciiCase]
  have hcopy : (stripPrefixCi h.text (ascii "COPY ")).isSome = true := by
    rw [text_eq]
    simp [stripPrefixCi, eqIgnoreAsciiCase]
  rw [isCopyHeader, h.trimAsciiEnd_text, hcopy, hend]
  rfl

end CopyHeader

/-! ### Where a newline is -/

theorem newline_mem_name {x : SqlName} (h : newline ∈ x.text) : '\n' ∈ x.name.toList := by
  apply newline_mem_utf8
  rcases x.written.word_or_quoted with ⟨htext, -⟩ | htext
  · rwa [← htext]
  · rw [htext] at h
    simp only [List.cons_append, List.mem_cons, List.mem_append, List.not_mem_nil, or_false,
      show newline ≠ quote by decide, false_or] at h
    obtain ⟨c, hc, hmem⟩ := List.mem_flatMap.mp h
    split_ifs at hmem with hquote
    · simp [show newline ≠ quote by decide] at hmem
    · obtain rfl : newline = c := by simpa using hmem
      exact hc

theorem newline_mem_columnsText {cs : List SqlName} (h : newline ∈ columnsText cs) :
    ∃ c ∈ cs, '\n' ∈ c.name.toList := by
  induction cs using columnsText.induct with
  | case1 => simp [columnsText] at h
  | case2 c => exact ⟨c, by simp, newline_mem_name h⟩
  | case3 c d cs ih =>
    rw [columnsText, List.mem_append] at h
    rcases h with h | h
    · exact ⟨c, by simp, newline_mem_name h⟩
    · obtain ⟨e, he, hmem⟩ := ih (by
        simpa [show newline ≠ comma by decide, show newline ≠ 32 by decide] using h)
      exact ⟨e, List.mem_cons_of_mem _ he, hmem⟩

/-- A newline in the header of a block is one of its names'. -/
theorem CopyHeader.newline_mem_text {h : CopyHeader} (hmem : newline ∈ h.text) :
    ∃ name ∈ headerNames h.name h.columnNames, '\n' ∈ name.toList := by
  rw [text, List.mem_append, List.mem_append, List.mem_append, List.mem_append] at hmem
  rcases hmem with (((hcopy | hname) | hopen) | hcolumns) | hend
  · exact absurd hcopy (by decide)
  · cases hschema : h.schema with
    | none =>
      rw [hschema, writtenName] at hname
      exact ⟨h.table.name, by simp [headerNames, name, givenName], newline_mem_name hname⟩
    | some schema =>
      rw [hschema, writtenName, List.mem_append, List.mem_cons] at hname
      rcases hname with hname | hdot | hname
      · exact ⟨schema.name, by simp [headerNames, name, givenName, hschema],
          newline_mem_name hname⟩
      · exact absurd hdot (by decide)
      · exact ⟨h.table.name, by simp [headerNames, name, givenName], newline_mem_name hname⟩
  · exact absurd hopen (by decide)
  · obtain ⟨c, hc, hmem⟩ := newline_mem_columnsText hcolumns
    exact ⟨c.name, by simp [headerNames, columnNames, List.mem_map_of_mem hc], hmem⟩
  · exact absurd hend (by decide)

namespace CopyBlock

/-- In front of a block, its header opens it. -/
theorem sqlLine_header (b : CopyBlock) {s : Scanner} (hskip : s.skippingCreate = false)
    (hcreate : s.inCreate = false) :
    s.sqlLine b.header = .ok ({ s with openTable := some b.name, state := .copy },
      [.copyStart b.name b.columnNames]) := by
  apply sqlLine_copyHeader hskip hcreate b.copyHeader.isCopyHeader_text
  rw [b.copyHeader.trimAsciiEnd_text, b.copyHeader.parseCopyHeader_text]
  rfl

/-! ### The block as a whole -/

theorem newline_not_mem_header (b : CopyBlock) : newline ∉ b.header := by
  intro hmem
  obtain ⟨name, hname, hnewline⟩ := CopyHeader.newline_mem_text hmem
  have hoption : ∀ o : Option Identifier,
      ∀ n ∈ ((o.map Identifier.toSqlName).map SqlName.name).toList, '\n' ∉ n.toList := by
    intro o n hn
    cases o with
    | none => simp at hn
    | some x =>
      obtain rfl : n = x.name := by simpa using hn
      exact x.oneLine
  rcases List.mem_append.mp hname with hname | hname
  · exact hoption b.schema name hname hnewline
  · rcases List.mem_cons.mp hname with rfl | hname
    · exact b.table.oneLine hnewline
    · obtain ⟨c, hc, rfl⟩ := List.mem_map.mp hname
      obtain ⟨x, -, rfl⟩ := List.mem_map.mp hc
      exact x.oneLine hnewline

theorem newline_not_mem_lines (b : CopyBlock) : ∀ l ∈ b.lines, newline ∉ l := by
  intro l hl
  simp only [lines, List.cons_append, List.mem_cons, List.mem_append, List.mem_map,
    List.not_mem_nil, or_false] at hl
  rcases hl with rfl | ⟨row, -, rfl⟩ | rfl
  · exact b.newline_not_mem_header
  · exact (not_mem_encodeRow row).1
  · decide

theorem lines_encode (b : CopyBlock) : Lib.lines newline b.encode = (b.lines, []) := by
  have h := lines_unlines_append b.newline_not_mem_lines []
  simpa [encode] using h

theorem readRow_encodeRow (cut : Bool) (row : List (Option Bytes)) :
    readRow cut (encodeRow row) = encodeRow row := by
  have hcr := stripCr_of_not_mem (not_mem_encodeRow row).2
  cases cut <;> simp [readRow, hcr]

/-- The lines of a block, wherever they are cut, take the scanner through the
block and back. -/
theorem runLines_lines (b : CopyBlock) {s : Scanner} (hstate : s.state = .sql)
    (hskip : s.skippingCreate = false) (hcreate : s.inCreate = false)
    {ls : List (Bool × Bytes)} (hls : ls.map Prod.snd = b.lines) :
    s.runLines ls = .ok ({ s with openTable := none },
      .event (.copyStart b.name b.columnNames) ::
        ((b.rows.map encodeRow).map .row ++ [.event (.copyEnd b.name)])) := by
  rw [lines, List.cons_append, List.map_eq_cons_iff] at hls
  obtain ⟨⟨cut, _⟩, ls, rfl, rfl, hls⟩ := hls
  obtain ⟨mid, final, rfl, hmid, hfinal⟩ := List.map_eq_append_iff.mp hls
  obtain ⟨⟨cut', _⟩, rfl, rfl⟩ := List.map_eq_singleton_iff.mp hfinal
  have hrows : ∀ l ∈ mid, ∃ row, l.2 = encodeRow row := by
    intro l hl
    have hmem : l.2 ∈ b.rows.map encodeRow := by
      rw [← hmid]
      exact List.mem_map_of_mem hl
    obtain ⟨row, -, hrow⟩ := List.mem_map.mp hmem
    exact ⟨row, hrow.symm⟩
  have hterm : ∀ l ∈ mid, isEndOfData (stripCr l.2) = false := by
    intro l hl
    obtain ⟨row, hrow⟩ := hrows l hl
    rw [hrow, stripCr_of_not_mem (not_mem_encodeRow row).2, isEndOfData, beq_eq_false_iff_ne]
    exact encodeRow_ne_endOfData row
  have hread : mid.map (fun l => Obs.row (readRow l.1 l.2)) = (b.rows.map encodeRow).map .row := by
    rw [← hmid, List.map_map]
    refine List.map_congr_left fun l hl => ?_
    obtain ⟨row, hrow⟩ := hrows l hl
    rw [Function.comp_apply, hrow, readRow_encodeRow]
  have hblock := runLines_rows (s := { s with openTable := some b.name, state := .copy }) rfl mid
    hterm
  simp [runLines, lineStep, hstate,
    show stripCr b.header = b.header from b.copyHeader.stripCr_text, b.sqlLine_header hskip hcreate,
    runLines_append, hblock, hread, closeCopy, observe, Event.observe,
    show isEndOfData (stripCr endOfData) = true by decide]

/-- A block fed to a scanner that stands between two statements, in any
chunks, comes out as its start, its rows and its end, and each row decodes to
the fields it was written from. -/
theorem feedAll_encode (b : CopyBlock) (s : Scanner) (hstate : s.state = .sql)
    (hpending : s.pending = []) (hcreate : s.inCreate = false) (hskip : s.skippingCreate = false)
    (limits : Limits) (hlimits : ∀ row ∈ b.rows, limits.Admit row)
    (chunks : List Bytes) (hchunks : chunks.flatten = b.encode) :
    ∃ (s' : Scanner) (payloads : List Bytes),
      s.feedAll chunks = .ok (s', .copyStart b.name b.columnNames ::
        (payloads.map .copyRows ++ [.copyEnd b.name])) ∧
      (payloads.flatMap Copy.rows).map
          (fun row => (decodeRow row b.columns.length limits).map values) = b.rows.map .ok := by
  have hs : newline ∉ s.pending := by simp [hpending]
  have hs' : { s with pending := [] } = s := by rw [← hpending]
  have hcut : (cutLines newline [] chunks).map Prod.snd = b.lines := by
    rw [map_snd_cutLines _ _ _ (by simp), List.nil_append, hchunks, lines_encode]
  have hobs := s.feedAll_observed hs chunks
  rw [hs', hpending, b.runLines_lines hstate hskip hcreate hcut] at hobs
  cases hfeed : s.feedAll chunks with
  | error e => simp [hfeed] at hobs
  | ok r =>
      obtain ⟨s', events⟩ := r
      simp only [hfeed, observed_ok, resume_ok, List.nil_append, Except.ok.injEq,
        Prod.mk.injEq] at hobs
      have hwhole := feedAll_whole hs hfeed
      obtain ⟨es, rfl, hes⟩ := observe_eq_event_cons hwhole hobs.2
      obtain ⟨payloads, rfl, hpayloads⟩ :=
        observe_eq_rows_concat (fun e he => hwhole e (by simp [he])) hes
      refine ⟨s', payloads, rfl, ?_⟩
      rw [hpayloads, List.map_map]
      refine List.map_congr_left fun row hrow => ?_
      have harity := b.arity row hrow
      have hne : row ≠ [] := by
        rintro rfl
        exact b.columns_ne (List.length_eq_zero_iff.mp harity.symm)
      obtain ⟨decoded, hdecode, hvalues⟩ := decodeRow_encodeRow row hne limits (hlimits row hrow)
      rw [Function.comp_apply, ← harity, hdecode]
      simp [Except.map, hvalues]

/-- `COPY public."a b" (id, "x""y")` with a NULL, an empty string and two
fields that look like the markers. -/
def sample : CopyBlock where
  schema := some ⟨⟨"public", ascii "public", .bare "public" (by decide +kernel)⟩, by decide⟩
  table := ⟨⟨"a b", ascii "\"a b\"", .quoted "a b"⟩, by decide⟩
  columns := [⟨⟨"id", ascii "id", .bare "id" (by decide +kernel)⟩, by decide⟩,
    ⟨⟨"x\"y", ascii "\"x\"\"y\"", .quoted "x\"y"⟩, by decide⟩]
  rows := [[none, some []], [some (ascii "\\N"), some (ascii "\\.")]]
  columns_ne := by simp
  arity := by decide

theorem feedAll_encode_sample :
    ∃ (s' : Scanner) (payloads : List Bytes),
      Scanner.new.feedAll [sample.encode.take 40, sample.encode.drop 40] =
        .ok (s', .copyStart sample.name sample.columnNames ::
          (payloads.map .copyRows ++ [.copyEnd sample.name])) ∧
      (payloads.flatMap Copy.rows).map
          (fun row => (decodeRow row sample.columns.length {}).map values) =
        sample.rows.map .ok :=
  sample.feedAll_encode new rfl rfl rfl rfl {}
    (fun row hrow => by
      have hrows : row = [none, some []] ∨ row = [some (ascii "\\N"), some (ascii "\\.")] := by
        simpa [sample] using hrow
      rcases hrows with rfl | rfl <;> exact ⟨by decide, by decide, by decide⟩)
    _ (by simp)

end CopyBlock

end PgDelta.Scan
