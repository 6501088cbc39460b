import PgDelta.Scan.Chunking

/-!
When a `COPY` block of a dump comes out of the scanner.

A dump is a sequence of items, SQL statements and `COPY` blocks. `Mode` tells
apart where the scanner stands between two lines, and follows from the lines
alone. A block is produced exactly when the lines in front of it leave the
scanner at the top: not inside the text of a `CREATE TABLE`, whose end is only
ever recognised by a line that ends in `);`, and not inside a block that a line
of a statement opened. And its header has to be on one line: where a quoted name
contains a newline, no line of the header gives the names of the block.
-/

namespace PgDelta.Scan

open PgDelta.Lib PgDelta.Copy Scanner

/-! ### Dumps as items -/

/-- The lines of a text that a newline ends. -/
def textLines (text : Bytes) : List Bytes := (lines newline (text ++ [newline])).1

theorem unlines_textLines (text : Bytes) :
    unlines newline (textLines text) = text ++ [newline] := by
  have hrest : (lines newline (text ++ [newline])).2 = [] := by
    rw [lines_append, lines_line (not_mem_lines_rest newline text) []]
    rfl
  have h := unlines_lines newline (text ++ [newline])
  rwa [hrest, List.append_nil] at h

theorem textLines_of_not_mem {text : Bytes} (h : newline ∉ text) : textLines text = [text] := by
  have hline := lines_line h []
  rw [lines_nil] at hline
  rw [textLines, hline]

/-- A part of a dump: a statement by its lines, a block by the text of its
header and the lines behind it, all without their last newline. -/
inductive Item
  | statement (lines : List Bytes)
  | block (header : Bytes) (rows : List Bytes) (terminator : Bytes)

def blockLines (header : Bytes) (rows : List Bytes) (terminator : Bytes) : List Bytes :=
  textLines header ++ (rows ++ [terminator])

def Item.lines : Item → List Bytes
  | .statement lines => lines
  | .block header rows terminator => blockLines header rows terminator

/-- A name in the header of a block contains a newline. -/
def NameSpread (header : Bytes) : Prop :=
  ∃ table columns, parseCopyHeader (trimAsciiEnd (stripCr header)) = .ok (table, columns) ∧
    ∃ name ∈ headerNames table columns, '\n' ∈ name.toList

/-- A statement ends with `;` at the end of its last line. A block starts with
the header of a `COPY`, on one line or spread over several by its names, and its
terminator is the first terminator line. -/
inductive Item.Complete : Item → Prop
  | statement (lines : List Bytes) (last : Bytes) (hlines : ∀ l ∈ lines, newline ∉ l)
      (hlast : lines.getLast? = some last)
      (hend : (trimAsciiEnd last).getLast? = some 59) : Complete (.statement lines)
  | block (header : Bytes) (rows : List Bytes) (terminator : Bytes)
      (hheader : isCopyHeader (stripCr header) = true)
      (hspread : newline ∈ header → NameSpread header)
      (hlines : ∀ l ∈ rows ++ [terminator], newline ∉ l)
      (hrows : ∀ row ∈ rows, isEndOfData (stripCr row) = false)
      (hterm : isEndOfData (stripCr terminator) = true) :
      Complete (.block header rows terminator)

theorem Item.Complete.newline_not_mem {item : Item} (h : item.Complete) :
    ∀ l ∈ item.lines, newline ∉ l := by
  cases h with
  | statement lines last hlines hlast hend => exact hlines
  | block header rows terminator hheader hspread hlines hrows hterm =>
      intro l hl
      rcases List.mem_append.mp hl with hl | hl
      · exact not_mem_of_mem_lines hl
      · exact hlines l hl

theorem blockLines_of_not_mem {header : Bytes} (h : newline ∉ header) (rows : List Bytes)
    (terminator : Bytes) :
    blockLines header rows terminator = header :: (rows ++ [terminator]) := by
  rw [blockLines, textLines_of_not_mem h, List.singleton_append]

def itemLines (items : List Item) : List Bytes := items.flatMap Item.lines

/-- The bytes of a sequence of items. -/
def encodeItems (items : List Item) : Bytes := unlines newline (itemLines items)

/-! ### Where the scanner stands -/

inductive Mode
  | top
  | create
  | copy
  deriving DecidableEq, Repr

/-- Where one line leads. -/
def Mode.step (mode : Mode) (line : Bytes) : Mode :=
  match mode with
  | .top =>
    if isCopyHeader (stripCr line) then .copy
    else if (stripCreateTable (stripCr line)).isSome && !endsCreate (stripCr line) then .create
    else .top
  | .create => if endsCreate (stripCr line) then .top else .create
  | .copy => if isEndOfData (stripCr line) then .top else .copy

def Mode.after (mode : Mode) (lines : List Bytes) : Mode := lines.foldl Mode.step mode

namespace Scanner

def mode (s : Scanner) : Mode :=
  match s.state with
  | .copy => .copy
  | .sql => if s.inCreate || s.skippingCreate then .create else .top

/-- A table is open exactly inside a block, where no `CREATE TABLE` is, and of
a `CREATE TABLE` the lines are either kept or passed over. -/
structure Consistent (s : Scanner) : Prop where
  closed : s.state = .sql → s.openTable = none
  opened : s.state = .copy → s.openTable.isSome = true ∧ s.inCreate = false ∧
    s.skippingCreate = false
  apart : s.inCreate = true → s.skippingCreate = false

theorem consistent_new (schemas : List String) : (new.setExcludedSchemas schemas).Consistent :=
  ⟨fun _ => rfl, (fun h => by cases h), (fun h => by cases h)⟩

theorem mode_top {s : Scanner} (h : s.mode = .top) :
    s.state = .sql ∧ s.inCreate = false ∧ s.skippingCreate = false := by
  unfold mode at h
  cases hstate : s.state with
  | copy => simp [hstate] at h
  | sql => simpa [hstate] using h

theorem stripCreateTable_of_isCopyHeader {line : Bytes} (h : isCopyHeader line = true) :
    stripCreateTable line = none := by
  obtain ⟨hcopy, -⟩ : (stripPrefixCi line (ascii "COPY ")).isSome = true ∧
      endsWithCi (trimAsciiEnd line) (ascii "FROM stdin;") = true := by
    simpa [isCopyHeader] using h
  have hcreate : stripPrefixCi line (ascii "CREATE TABLE ") = none :=
    stripPrefixCi_exclusive hcopy 1 (by decide) (by decide) (by decide)
  have hunlogged : stripPrefixCi line (ascii "CREATE UNLOGGED TABLE ") = none :=
    stripPrefixCi_exclusive hcopy 1 (by decide) (by decide) (by decide)
  simp [stripCreateTable, hcreate, hunlogged]

theorem SqlStep.mode {s s' : Scanner} {line : Bytes} {events : List Event}
    (hs : s.Consistent) (hstate : s.state = .sql) (h : SqlStep s (stripCr line) s' events) :
    s'.Consistent ∧ s'.mode = s.mode.step line := by
  obtain ⟨hclosed, -, hapart⟩ := hs
  have hclosed := hclosed hstate
  have hheader_of_kw : (stripCreateTable (stripCr line)).isSome = true →
      isCopyHeader (stripCr line) = false := by
    intro hkw
    by_contra hheader
    rw [stripCreateTable_of_isCopyHeader (by simpa using hheader)] at hkw
    cases hkw
  cases h with
  | skip hskip =>
      have hcreate : s.inCreate = false := by
        by_contra hcreate
        rw [hapart (by simpa using hcreate)] at hskip
        cases hskip
      refine ⟨⟨fun _ => hclosed, by simp [hstate], by simp [hcreate]⟩, ?_⟩
      cases hend : endsCreate (stripCr line) <;>
        simp [Scanner.mode, hstate, hcreate, hskip, Mode.step, hend]
  | more hskip hcreate hend =>
      refine ⟨⟨fun _ => hclosed, by simp [hstate], fun _ => hskip⟩, ?_⟩
      simp [Scanner.mode, hstate, hcreate, Mode.step, hend]
  | last hskip hcreate hend definition hparse =>
      refine ⟨⟨fun _ => hclosed, by simp [hstate], by simp⟩, ?_⟩
      simp [Scanner.mode, hstate, hcreate, hskip, Mode.step, hend]
  | exclude hskip hcreate hkw =>
      refine ⟨⟨fun _ => hclosed, by simp [hstate], by simp [hcreate]⟩, ?_⟩
      cases hend : endsCreate (stripCr line) <;>
        simp [Scanner.mode, hstate, hcreate, hskip, Mode.step, hend, hkw, hheader_of_kw hkw]
  | first hskip hcreate hkw hend =>
      refine ⟨⟨fun _ => hclosed, by simp [hstate], fun _ => hskip⟩, ?_⟩
      simp [Scanner.mode, hstate, hcreate, hskip, Mode.step, hend, hkw, hheader_of_kw hkw]
  | single hskip hcreate hkw hend definition hparse =>
      refine ⟨⟨fun _ => hclosed, by simp [hstate], by simp [hcreate]⟩, ?_⟩
      simp [Scanner.mode, hstate, hcreate, hskip, Mode.step, hend, hheader_of_kw hkw]
  | header hskip hcreate hheader table columns hparse =>
      refine ⟨⟨by simp, by simp [hcreate, hskip], by simp [hcreate]⟩, ?_⟩
      simp [Scanner.mode, hstate, hcreate, hskip, Mode.step, hheader]
  | other hskip hcreate hkw hheader dumpedBy fromDatabase events hevents hlength =>
      refine ⟨⟨fun _ => hclosed, by simp [hstate], by simp [hcreate]⟩, ?_⟩
      simp [Scanner.mode, hstate, hcreate, hskip, Mode.step, hheader, hkw]

theorem lineStep_mode {s s' : Scanner} {cut : Bool} {line : Bytes} {obs : List Obs}
    (hs : s.Consistent) (h : s.lineStep cut line = .ok (s', obs)) :
    s'.Consistent ∧ s'.mode = s.mode.step line := by
  unfold lineStep at h
  cases hstate : s.state with
  | sql =>
      cases hline : s.sqlLine (stripCr line) with
      | error e => simp [hstate, hline] at h
      | ok r =>
          simp only [hstate, hline, observed, Except.map, Except.ok.injEq, Prod.mk.injEq] at h
          rw [← h.1]
          exact (sqlLine_step hline).mode hs hstate
  | copy =>
      obtain ⟨hopen, hcreate, hskip⟩ := hs.opened hstate
      obtain ⟨table, htable⟩ := Option.isSome_iff_exists.mp hopen
      simp only [hstate] at h
      by_cases hend : isEndOfData (stripCr line) = true
      · simp only [hend, if_true, closeCopy, htable, Except.ok.injEq, Prod.mk.injEq] at h
        rw [← h.1]
        refine ⟨⟨fun _ => rfl, by simp, by simp [hcreate]⟩, ?_⟩
        simp [Scanner.mode, hstate, hcreate, hskip, Mode.step, hend]
      · simp only [if_neg hend, Except.ok.injEq, Prod.mk.injEq] at h
        rw [← h.1]
        refine ⟨hs, ?_⟩
        simp [Scanner.mode, hstate, Mode.step, hend]

theorem runLines_mode {s s' : Scanner} {ls : List (Bool × Bytes)} {obs : List Obs}
    (hs : s.Consistent) (h : s.runLines ls = .ok (s', obs)) :
    s'.Consistent ∧ s'.mode = s.mode.after (ls.map Prod.snd) := by
  induction ls generalizing s obs with
  | nil =>
      obtain ⟨rfl, -⟩ := Prod.mk.inj (Except.ok.inj h)
      exact ⟨hs, rfl⟩
  | cons l ls ih =>
      obtain ⟨cut, line⟩ := l
      rw [runLines] at h
      cases hstep : s.lineStep cut line with
      | error e => simp [hstep] at h
      | ok r =>
          obtain ⟨s₁, obs₁⟩ := r
          obtain ⟨hs₁, hmode⟩ := lineStep_mode hs hstep
          cases hrun : s₁.runLines ls with
          | error e => simp [hstep, hrun] at h
          | ok r =>
              simp only [hstep, hrun, Except.ok.injEq, Prod.mk.injEq] at h
              obtain ⟨rfl, -⟩ := h
              obtain ⟨hs', hmode'⟩ := ih hs₁ hrun
              exact ⟨hs', by rw [hmode', hmode]; rfl⟩

/-! ### Runs up to the carriage returns at the end of a row -/

def trimCr (line : Bytes) : Bytes := line.rdropWhile (· == carriageReturn)

theorem trimCr_stripCr (line : Bytes) : trimCr (stripCr line) = trimCr line := by
  by_cases hlast : line.getLast? = some carriageReturn
  · obtain ⟨l, rfl⟩ := List.getLast?_eq_some_iff.mp hlast
    simp [stripCr, trimCr]
  · simp [stripCr, hlast]

theorem trimCr_readRow (cut : Bool) (line : Bytes) : trimCr (readRow cut line) = trimCr line := by
  cases cut <;> simp [readRow, trimCr_stripCr]

/-- A row without the carriage returns at its end. -/
def trim : Obs → Obs
  | .row r => .row (trimCr r)
  | o => o

theorem trim_event (e : Event) : trim (.event e) = .event e := rfl

theorem lineStep_flag {s s' : Scanner} {c : Bool} {line : Bytes} {obs : List Obs} (d : Bool)
    (h : s.lineStep c line = .ok (s', obs)) :
    ∃ obs', s.lineStep d line = .ok (s', obs') ∧ obs'.map trim = obs.map trim := by
  unfold lineStep at h ⊢
  cases hstate : s.state with
  | sql => exact ⟨obs, by simpa [hstate] using h, rfl⟩
  | copy =>
      simp only [hstate] at h
      by_cases hend : isEndOfData (stripCr line) = true
      · exact ⟨obs, by simpa [hend] using h, rfl⟩
      · simp only [if_neg hend, Except.ok.injEq, Prod.mk.injEq] at h ⊢
        obtain ⟨rfl, rfl⟩ := h
        exact ⟨_, ⟨rfl, rfl⟩, by simp [trim, trimCr_readRow]⟩

/-- Where lines are cut changes neither whether a run succeeds nor, up to
carriage returns at the end of a row, what it shows. -/
theorem runLines_flags {s s' : Scanner} {ls ms : List (Bool × Bytes)} {obs : List Obs}
    (hlines : ls.map Prod.snd = ms.map Prod.snd) (h : s.runLines ls = .ok (s', obs)) :
    ∃ obs', s.runLines ms = .ok (s', obs') ∧ obs'.map trim = obs.map trim := by
  induction ls generalizing s ms obs with
  | nil =>
      obtain rfl : ms = [] := by simpa using hlines
      exact ⟨obs, h, rfl⟩
  | cons l ls ih =>
      obtain ⟨c, line⟩ := l
      cases ms with
      | nil => simp at hlines
      | cons m ms =>
          obtain ⟨d, line'⟩ := m
          obtain ⟨rfl, htail⟩ : line = line' ∧ ls.map Prod.snd = ms.map Prod.snd := by
            simpa using hlines
          rw [runLines] at h
          cases hstep : s.lineStep c line with
          | error e => simp [hstep] at h
          | ok r =>
              obtain ⟨s₁, obs₁⟩ := r
              obtain ⟨obs₁', hstep', htrim₁⟩ := lineStep_flag d hstep
              cases hrun : s₁.runLines ls with
              | error e => simp [hstep, hrun] at h
              | ok r =>
                  obtain ⟨s₂, obs₂⟩ := r
                  simp only [hstep, hrun, Except.ok.injEq, Prod.mk.injEq] at h
                  obtain ⟨rfl, rfl⟩ := h
                  obtain ⟨obs₂', hrun', htrim₂⟩ := ih htail hrun
                  exact ⟨obs₁' ++ obs₂', by simp [runLines, hstep', hrun'],
                    by simp [htrim₁, htrim₂]⟩

theorem lineStep_length {s s' : Scanner} {cut : Bool} {line : Bytes} {obs : List Obs}
    (h : s.lineStep cut line = .ok (s', obs)) : obs.length ≤ 1 := by
  unfold lineStep at h
  cases hstate : s.state with
  | sql =>
      cases hline : s.sqlLine (stripCr line) with
      | error e => simp [hstate, hline] at h
      | ok r =>
          obtain ⟨hlength, hrows⟩ := (sqlLine_step hline).events
          simp only [hstate, hline, observed, Except.map, Except.ok.injEq, Prod.mk.injEq] at h
          rw [← h.2, observe_eq_map hrows, List.length_map]
          exact hlength
  | copy =>
      simp only [hstate] at h
      by_cases hend : isEndOfData (stripCr line) = true
      · simp only [hend, if_true, closeCopy, Except.ok.injEq, Prod.mk.injEq] at h
        rw [← h.2]
        cases s.openTable <;> simp [observe, Event.observe]
      · simp only [if_neg hend, Except.ok.injEq, Prod.mk.injEq] at h
        simp [← h.2]

theorem runLines_length {s s' : Scanner} {ls : List (Bool × Bytes)} {obs : List Obs}
    (h : s.runLines ls = .ok (s', obs)) : obs.length ≤ ls.length := by
  induction ls generalizing s obs with
  | nil =>
      obtain ⟨-, rfl⟩ := Prod.mk.inj (Except.ok.inj h)
      simp
  | cons l ls ih =>
      obtain ⟨cut, line⟩ := l
      rw [runLines] at h
      cases hstep : s.lineStep cut line with
      | error e => simp [hstep] at h
      | ok r =>
          obtain ⟨s₁, obs₁⟩ := r
          have hlength := lineStep_length hstep
          cases hrun : s₁.runLines ls with
          | error e => simp [hstep, hrun] at h
          | ok r =>
              obtain ⟨s₂, obs₂⟩ := r
              simp only [hstep, hrun, Except.ok.injEq, Prod.mk.injEq] at h
              obtain ⟨rfl, rfl⟩ := h
              have ih := ih hrun
              simp only [List.length_append, List.length_cons]
              omega

/-! ### One block -/

/-- What a block shows when it is read as a block. -/
def blockObs (table : TableName) (columns : List String) (rows : List Bytes) : List Obs :=
  .event (.copyStart table columns) ::
    ((rows.map fun row => .row (stripCr row)) ++ [.event (.copyEnd table)])

def uncut (ls : List Bytes) : List (Bool × Bytes) := ls.map fun l => (false, l)

/-- At the top, the header of a block opens it. -/
theorem SqlStep.of_isCopyHeader {s s' : Scanner} {line : Bytes} {events : List Event}
    (hcreate : s.inCreate = false) (hskip : s.skippingCreate = false)
    (hheader : isCopyHeader line = true) (h : SqlStep s line s' events) :
    ∃ table columns, parseCopyHeader (trimAsciiEnd line) = .ok (table, columns) ∧
      s' = { s with openTable := some table, state := .copy } ∧
      events = [.copyStart table columns] := by
  have hkw : (stripCreateTable line).isSome = false := by
    simp [stripCreateTable_of_isCopyHeader hheader]
  cases h with
  | header hskip' hcreate' hheader' table columns hparse => exact ⟨table, columns, hparse, rfl, rfl⟩
  | _ => simp_all

/-- At the top, a block is read as a block and leaves no trace. -/
theorem runLines_block_top {s s' : Scanner} {header terminator : Bytes} {rows : List Bytes}
    {obs : List Obs} (hs : s.Consistent) (hmode : s.mode = .top) (hline : newline ∉ header)
    (hitem : (Item.block header rows terminator).Complete)
    (h : s.runLines (uncut (blockLines header rows terminator)) = .ok (s', obs)) :
    s' = s ∧ ∃ table columns,
      parseCopyHeader (trimAsciiEnd (stripCr header)) = .ok (table, columns) ∧
        obs = blockObs table columns rows := by
  obtain ⟨hstate, hcreate, hskip⟩ := mode_top hmode
  have hclosed := hs.closed hstate
  cases hitem with
  | block _ _ _ hheader hspread hlines hrows hterm =>
      simp only [uncut, blockLines_of_not_mem hline, List.map_cons, List.map_append, List.map_nil,
        runLines, lineStep, hstate] at h
      cases hline : s.sqlLine (stripCr header) with
      | error e => simp [hline] at h
      | ok r =>
          obtain ⟨s₁, events⟩ := r
          obtain ⟨table, columns, hparse, rfl, rfl⟩ :=
            (sqlLine_step hline).of_isCopyHeader hcreate hskip hheader
          have hrun := runLines_rows_uncut (s := { s with openTable := some table, state := .copy })
            rfl hrows
          simp only [hline, observed_ok, runLines_append, hrun, runLines, lineStep, hterm, if_true,
            Except.ok.injEq, Prod.mk.injEq] at h
          obtain ⟨rfl, rfl⟩ := h
          refine ⟨?_, table, columns, hparse, ?_⟩
          · obtain ⟨⟩ := s
            simp_all [closeCopy]
          · simp [closeCopy, blockObs, observe, Event.observe]

/-- Elsewhere, what looks like a header opens nothing. -/
theorem lineStep_header_elsewhere {s s' : Scanner} {line : Bytes} {obs : List Obs}
    (hmode : s.mode ≠ .top) (h : s.lineStep false line = .ok (s', obs))
    (table : TableName) (columns : List String) :
    .event (.copyStart table columns) ∉ obs := by
  unfold lineStep at h
  cases hstate : s.state with
  | sql =>
      have hinside : s.inCreate = true ∨ s.skippingCreate = true := by
        by_contra hnot
        rw [not_or] at hnot
        simp [Scanner.mode, hstate, hnot] at hmode
      cases hline : s.sqlLine (stripCr line) with
      | error e => simp [hstate, hline] at h
      | ok r =>
          obtain ⟨s₁, events⟩ := r
          simp only [hstate, hline, observed_ok, Except.ok.injEq, Prod.mk.injEq] at h
          obtain ⟨-, rfl⟩ := h
          cases sqlLine_step hline with
          | skip hskip => simp
          | more hskip hcreate hend => simp
          | last hskip hcreate hend definition hparse => simp [observe, Event.observe]
          | _ => simp_all
  | copy =>
      simp only [hstate] at h
      by_cases hend : isEndOfData (stripCr line) = true
      · simp only [hend, if_true, closeCopy, Except.ok.injEq, Prod.mk.injEq] at h
        rw [← h.2]
        cases s.openTable <;> simp [observe, Event.observe]
      · simp only [if_neg hend, Except.ok.injEq, Prod.mk.injEq] at h
        simp [← h.2]

/-- A block that the scanner meets anywhere but at the top does not come out:
its header shows nothing that starts a block, and if it shows nothing at all
the rest of the lines is too short to make up for it. -/
theorem runLines_block_elsewhere {s s' : Scanner} {header terminator : Bytes} {rows : List Bytes}
    {obs : List Obs} (hmode : s.mode ≠ .top) (hline : newline ∉ header)
    (h : s.runLines (uncut (blockLines header rows terminator)) = .ok (s', obs))
    (table : TableName) (columns : List String) : obs ≠ blockObs table columns rows := by
  rintro rfl
  rw [uncut, blockLines_of_not_mem hline, List.map_cons, runLines] at h
  cases hstep : s.lineStep false header with
  | error e => simp [hstep] at h
  | ok r =>
      obtain ⟨s₁, obs₁⟩ := r
      have hstart := lineStep_header_elsewhere hmode hstep table columns
      simp only [hstep] at h
      cases hrun : s₁.runLines ((rows ++ [terminator]).map fun l => (false, l)) with
      | error e =>
          simp only [hrun] at h
          cases h
      | ok r =>
          obtain ⟨s₂, obs₂⟩ := r
          have hlength := runLines_length hrun
          simp only [hrun, Except.ok.injEq, Prod.mk.injEq, blockObs] at h
          cases obs₁ with
          | nil =>
              have htotal := congrArg List.length h.2
              simp only [List.nil_append, List.length_cons, List.length_append, List.length_map,
                List.length_nil] at htotal hlength
              omega
          | cons o obs₁ =>
              have ho : o = .event (.copyStart table columns) := by
                simpa using congrArg List.head? h.2
              exact hstart (by simp [ho])

theorem lineStep_copyStart {s s' : Scanner} {cut : Bool} {line : Bytes} {obs : List Obs}
    (hline : newline ∉ line) (h : s.lineStep cut line = .ok (s', obs)) {table : TableName}
    {columns : List String} (hstart : .event (.copyStart table columns) ∈ obs) :
    ∀ name ∈ headerNames table columns, '\n' ∉ name.toList := by
  unfold lineStep at h
  cases hstate : s.state with
  | sql =>
      cases hsql : s.sqlLine (stripCr line) with
      | error e => simp [hstate, hsql] at h
      | ok r =>
          obtain ⟨s₁, events⟩ := r
          simp only [hstate, hsql, observed_ok, Except.ok.injEq, Prod.mk.injEq] at h
          obtain ⟨-, rfl⟩ := h
          have hstep := sqlLine_step hsql
          have hevent : .copyStart table columns ∈ events := by
            rw [observe_eq_map hstep.events.2] at hstart
            simpa using hstart
          cases hstep with
          | header hskip hcreate hheader table' columns' hparse =>
              obtain ⟨rfl, rfl⟩ : table = table' ∧ columns = columns' := by simpa using hevent
              apply newline_not_mem_parseCopyHeader _ hparse
              intro hmem
              exact newline_not_mem_stripCr hline ((List.rdropWhile_prefix _ _).subset hmem)
          | other hskip hcreate hkw hheader dumpedBy fromDatabase events hevents hlength =>
              obtain ⟨v, w, he⟩ := hevents _ hevent
              cases he
          | _ => simp at hevent
  | copy =>
      simp only [hstate] at h
      by_cases hend : isEndOfData (stripCr line) = true
      · simp only [hend, if_true, closeCopy, Except.ok.injEq, Prod.mk.injEq] at h
        rw [← h.2] at hstart
        cases htable : s.openTable <;> simp [htable, observe, Event.observe] at hstart
      · simp only [if_neg hend, Except.ok.injEq, Prod.mk.injEq] at h
        simp [← h.2] at hstart

theorem runLines_copyStart {s s' : Scanner} {ls : List (Bool × Bytes)} {obs : List Obs}
    (hls : ∀ l ∈ ls, newline ∉ l.2) (h : s.runLines ls = .ok (s', obs)) {table : TableName}
    {columns : List String} (hstart : .event (.copyStart table columns) ∈ obs) :
    ∀ name ∈ headerNames table columns, '\n' ∉ name.toList := by
  induction ls generalizing s obs with
  | nil =>
      obtain ⟨-, rfl⟩ := Prod.mk.inj (Except.ok.inj h)
      cases hstart
  | cons l ls ih =>
      obtain ⟨cut, line⟩ := l
      rw [runLines] at h
      cases hstep : s.lineStep cut line with
      | error e => simp [hstep] at h
      | ok r =>
          obtain ⟨s₁, obs₁⟩ := r
          cases hrun : s₁.runLines ls with
          | error e => simp [hstep, hrun] at h
          | ok r =>
              simp only [hstep, hrun, Except.ok.injEq, Prod.mk.injEq] at h
              obtain ⟨rfl, rfl⟩ := h
              rcases List.mem_append.mp hstart with hstart | hstart
              · exact lineStep_copyStart (hls _ List.mem_cons_self) hstep hstart
              · exact ih (fun l hl => hls l (List.mem_cons_of_mem _ hl)) hrun hstart

/-! ### All blocks of a dump -/

/-- A block comes out of the scanner: fed behind the items in front of it, it
emits its start, all of its rows and its end, and leaves the scanner as it
was, so that no line of it went into the text of a `CREATE TABLE`; and the
events of the whole dump show this behind what the items in front show, up to
carriage returns at the end of a row. -/
def Produced (s : Scanner) (before : List Item) (header : Bytes) (rows : List Bytes)
    (terminator : Bytes) (events : List Event) : Prop :=
  ∃ s₁ e₁ e₂ table columns rest,
    s.feed (encodeItems before) = .ok (s₁, e₁) ∧
    s₁.feed (encodeItems [.block header rows terminator]) = .ok (s₁, e₂) ∧
    parseCopyHeader (trimAsciiEnd (stripCr header)) = .ok (table, columns) ∧
    observe e₂ = blockObs table columns rows ∧
    (observe events).map trim = (observe (e₁ ++ e₂)).map trim ++ rest

/-- Feeding whole lines at once, with nothing carried over. -/
theorem feed_unlines {s : Scanner} (hs : s.pending = []) {ls : List Bytes}
    (hls : ∀ l ∈ ls, newline ∉ l) :
    observed (s.feed (unlines newline ls)) = s.runLines (uncut ls) := by
  have hlines := lines_unlines_append hls []
  have hs' : { s with pending := [] } = s := by rw [← hs]
  rw [List.append_nil, lines_nil, List.append_nil] at hlines
  rw [s.feed_observed (by simp [hs]), hs', hs, List.nil_append, hlines]
  simp only [List.isEmpty_nil, Bool.not_true, markFirst_false]
  cases hrun : s.runLines (uncut ls) with
  | error e =>
      rw [uncut] at hrun
      rw [hrun]
      rfl
  | ok r =>
      have hpending : r.1.pending = [] := (runLines_frame hrun).1.trans hs
      have hr : { r.1 with pending := [] } = r.1 := by rw [← hpending]
      rw [uncut] at hrun
      simp [hrun, hr]

theorem feed_ok_of_observed {s s' : Scanner} {chunk : Bytes} {obs : List Obs}
    (h : observed (s.feed chunk) = .ok (s', obs)) :
    ∃ events, s.feed chunk = .ok (s', events) ∧ observe events = obs := by
  cases hfeed : s.feed chunk with
  | error e => simp [hfeed] at h
  | ok r =>
      simp only [hfeed, observed, Except.map, Except.ok.injEq, Prod.mk.injEq] at h
      exact ⟨r.2, by rw [← h.1], h.2⟩

theorem newline_not_mem_itemLines {items : List Item} (h : ∀ item ∈ items, item.Complete) :
    ∀ l ∈ itemLines items, newline ∉ l := by
  intro l hl
  obtain ⟨item, hitem, hmem⟩ := List.mem_flatMap.mp hl
  exact (h item hitem).newline_not_mem l hmem

theorem newline_not_mem_uncut {ls : List Bytes} (h : ∀ l ∈ ls, newline ∉ l) :
    ∀ l ∈ uncut ls, newline ∉ l.2 := by
  intro l hl
  obtain ⟨line, hmem, rfl⟩ := List.mem_map.mp hl
  exact h line hmem

@[simp] theorem map_snd_uncut (ls : List Bytes) : (uncut ls).map Prod.snd = ls := by
  simp [uncut, Function.comp_def]

theorem encodeItems_block (header : Bytes) (rows : List Bytes) (terminator : Bytes) :
    encodeItems [.block header rows terminator] =
      unlines newline (blockLines header rows terminator) := by
  simp [encodeItems, itemLines, Item.lines]

/-- A run that succeeds succeeds on both parts of its lines. -/
theorem runLines_append_ok {s s' : Scanner} {ls ms : List (Bool × Bytes)} {obs : List Obs}
    (h : s.runLines (ls ++ ms) = .ok (s', obs)) :
    ∃ s₁ obs₁ obs₂, s.runLines ls = .ok (s₁, obs₁) ∧ s₁.runLines ms = .ok (s', obs₂) ∧
      obs = obs₁ ++ obs₂ := by
  rw [runLines_append] at h
  cases hls : s.runLines ls with
  | error e => simp [hls] at h
  | ok r =>
      obtain ⟨s₁, obs₁⟩ := r
      cases hms : s₁.runLines ms with
      | error e => simp [hls, hms] at h
      | ok r =>
          simp only [hls, hms, Except.ok.injEq, Prod.mk.injEq] at h
          exact ⟨s₁, obs₁, r.2, rfl, by rw [hms, ← h.1], h.2.symm⟩

/-- A block that comes out was met at the top, with its header on one line. -/
theorem mode_of_produced {schemas : List String} {before : List Item}
    (hbefore : ∀ item ∈ before, item.Complete) {header terminator : Bytes} {rows : List Bytes}
    (hitem : (Item.block header rows terminator).Complete) {events : List Event}
    (h : Produced (new.setExcludedSchemas schemas) before header rows terminator events) :
    newline ∉ header ∧ Mode.top.after (itemLines before) = .top := by
  obtain ⟨s₁, e₁, e₂, table, columns, rest, hfeed₁, hfeed₂, hparse, hobs, -⟩ := h
  have hrun₁ := feed_unlines (s := new.setExcludedSchemas schemas) rfl
    (newline_not_mem_itemLines hbefore)
  rw [← encodeItems, hfeed₁, observed_ok] at hrun₁
  obtain ⟨hs₁, hmode⟩ := runLines_mode (consistent_new schemas) hrun₁.symm
  have hpending : s₁.pending = [] := (runLines_frame hrun₁.symm).1
  have hfree := hitem.newline_not_mem
  have hrun₂ := feed_unlines hpending hfree
  rw [encodeItems_block] at hfeed₂
  rw [Item.lines, hfeed₂, observed_ok, hobs] at hrun₂
  have hline : newline ∉ header := by
    intro hnewline
    cases hitem with
    | block _ _ _ hheader hspread hlines hrows hterm =>
      obtain ⟨table', columns', hparse', name, hname, hmem⟩ := hspread hnewline
      obtain ⟨rfl, rfl⟩ : table' = table ∧ columns' = columns := by
        simpa [hparse'] using hparse
      exact runLines_copyStart (newline_not_mem_uncut hfree) hrun₂.symm List.mem_cons_self
        name hname hmem
  have htop : s₁.mode = .top := by
    by_contra hmode
    exact runLines_block_elsewhere hmode hline hrun₂.symm table columns rfl
  rw [map_snd_uncut, htop] at hmode
  exact ⟨hline, hmode.symm⟩

/-- In a load that succeeds, a block that is met at the top comes out when its
header is on one line. -/
theorem produced_of_mode {schemas : List String} {items : List Item}
    (hitems : ∀ item ∈ items, item.Complete) {chunks : List Bytes}
    (hchunks : chunks.flatten = encodeItems items) {s : Scanner} {events : List Event}
    (hfeed : (new.setExcludedSchemas schemas).feedAll chunks = .ok (s, events))
    {before after : List Item} {header terminator : Bytes} {rows : List Bytes}
    (hsplit : items = before ++ .block header rows terminator :: after)
    (hline : newline ∉ header) (hmode : Mode.top.after (itemLines before) = .top) :
    Produced (new.setExcludedSchemas schemas) before header rows terminator events := by
  have hbefore : ∀ item ∈ before, item.Complete := fun item hmem =>
    hitems item (by simp [hsplit, hmem])
  have hitem : (Item.block header rows terminator).Complete := hitems _ (by simp [hsplit])
  have hlines := lines_unlines_append (newline_not_mem_itemLines hitems) []
  obtain ⟨t, hrun, -⟩ := feedAll_new hfeed
  have hcut : (cutLines newline [] chunks).map Prod.snd = (uncut (itemLines before ++
      (blockLines header rows terminator ++ itemLines after))).map Prod.snd := by
    rw [map_snd_cutLines _ _ _ (by simp), List.nil_append, hchunks, encodeItems, map_snd_uncut]
    rw [List.append_nil, lines_nil, List.append_nil] at hlines
    rw [hlines, hsplit]
    simp [itemLines, Item.lines]
  -- The run over the whole dump, cut at no line, in its three parts.
  obtain ⟨obs, hwhole, htrim⟩ := runLines_flags hcut hrun
  simp only [uncut, List.map_append] at hwhole
  obtain ⟨s₁, obs₁, obs', hrun₁, hrest, rfl⟩ := runLines_append_ok hwhole
  obtain ⟨s₂, obs₂, obs₃, hrun₂, -, rfl⟩ := runLines_append_ok hrest
  have hpending : s₁.pending = [] := (runLines_frame hrun₁).1
  have hobs₁ := feed_unlines (s := new.setExcludedSchemas schemas) rfl
    (newline_not_mem_itemLines hbefore)
  rw [uncut, hrun₁] at hobs₁
  obtain ⟨e₁, hfeed₁, rfl⟩ := feed_ok_of_observed hobs₁
  have hobs₂ := feed_unlines hpending hitem.newline_not_mem
  rw [uncut, Item.lines, hrun₂] at hobs₂
  obtain ⟨e₂, hfeed₂, rfl⟩ := feed_ok_of_observed hobs₂
  obtain ⟨hs₁, hmode₁⟩ := runLines_mode (consistent_new schemas) hrun₁
  have htop : s₁.mode = .top := by
    rw [hmode₁, ← hmode]
    simp [Function.comp_def]
    rfl
  obtain ⟨rfl, table, columns, hparse, hobs⟩ := runLines_block_top hs₁ htop hline hitem hrun₂
  refine ⟨s₂, e₁, e₂, table, columns, obs₃.map trim, hfeed₁, ?_, hparse, hobs, ?_⟩
  · rw [encodeItems_block]
    exact hfeed₂
  · rw [← htrim]
    simp

/-- In a load that succeeds, every block comes out exactly when every block is
met at the top and has its header on one line. -/
theorem feedAll_complete_iff (schemas : List String) (items : List Item)
    (hitems : ∀ item ∈ items, item.Complete) (chunks : List Bytes)
    (hchunks : chunks.flatten = encodeItems items) (s : Scanner) (events : List Event)
    (hfeed : (new.setExcludedSchemas schemas).feedAll chunks = .ok (s, events))
    (_hfinish : s.finish = .ok ()) :
    (∀ before header rows terminator after,
        items = before ++ .block header rows terminator :: after →
        Produced (new.setExcludedSchemas schemas) before header rows terminator events) ↔
      ∀ before header rows terminator after,
        items = before ++ .block header rows terminator :: after →
        newline ∉ header ∧ Mode.top.after (itemLines before) = .top := by
  constructor
  · intro hproduced before header rows terminator after hsplit
    have hbefore : ∀ item ∈ before, item.Complete := fun item hmem =>
      hitems item (by simp [hsplit, hmem])
    exact mode_of_produced hbefore (hitems _ (by simp [hsplit]))
      (hproduced before header rows terminator after hsplit)
  · intro hmodes before header rows terminator after hsplit
    obtain ⟨hline, hmode⟩ := hmodes before header rows terminator after hsplit
    exact produced_of_mode hitems hchunks hfeed hsplit hline hmode

/-- A preamble, a typed table without a column list, and its rows. -/
def typedTable : List Item :=
  [.statement [ascii "-- Dumped by pg_dump version 17.2", ascii "SET lock_timeout = 0;"],
    .statement [ascii "CREATE TABLE s.t OF s.ty;"],
    .block (ascii "COPY s.t (a) FROM stdin;") [ascii "1"] endOfData]

theorem typedTable_complete : ∀ item ∈ typedTable, item.Complete := by
  intro item hitem
  simp only [typedTable, List.mem_cons, List.not_mem_nil, or_false] at hitem
  rcases hitem with rfl | rfl | rfl
  · exact .statement _ (ascii "SET lock_timeout = 0;") (by decide) rfl (by decide +kernel)
  · exact .statement _ (ascii "CREATE TABLE s.t OF s.ty;") (by decide) rfl (by decide +kernel)
  · exact .block _ _ _ (by decide +kernel) (fun h => absurd h (by decide)) (by decide) (by decide)
      (by decide)

theorem feedAll_complete_counterexample :
    ¬ ∀ (schemas : List String) (items : List Item), (∀ item ∈ items, item.Complete) →
      ∀ chunks : List Bytes, chunks.flatten = encodeItems items →
      ∀ (s : Scanner) (events : List Event),
      (new.setExcludedSchemas schemas).feedAll chunks = .ok (s, events) → s.finish = .ok () →
      ∀ before header rows terminator after,
        items = before ++ .block header rows terminator :: after →
        Produced (new.setExcludedSchemas schemas) before header rows terminator events := by
  intro h
  have hproduced := h [] typedTable typedTable_complete [encodeItems typedTable] (by simp)
    { ddl := ascii "CREATE TABLE s.t OF s.ty;\nCOPY s.t (a) FROM stdin;\n1\n\\.", inCreate := true,
      dumpedBy := some 17 }
    [.dumpVersion 17 none] (by decide +kernel) (by decide +kernel)
    (typedTable.take 2) _ _ _ [] rfl
  have hmode := mode_of_produced
    (fun item hitem => typedTable_complete item (List.mem_of_mem_take hitem))
    (typedTable_complete _ (by simp [typedTable])) hproduced
  exact absurd hmode.2 (by decide +kernel)

/-- With a column list, the table's rows come out. -/
theorem feedAll_complete_columns :
    (∀ before header rows terminator after,
        [.statement [ascii "-- Dumped by pg_dump version 17.2", ascii "CREATE TABLE s.t (a int);"],
          .block (ascii "COPY s.t (a) FROM stdin;") [ascii "1"] endOfData] =
            before ++ .block header rows terminator :: after →
        Produced (new.setExcludedSchemas []) before header rows terminator
          [.dumpVersion 17 none, .table ⟨⟨some "s", "t"⟩, [⟨"a", "int"⟩]⟩,
            .copyStart ⟨some "s", "t"⟩ ["a"], .copyRows (ascii "1\n"), .copyEnd ⟨some "s", "t"⟩]) ↔
      ∀ before header rows terminator after,
        [.statement [ascii "-- Dumped by pg_dump version 17.2", ascii "CREATE TABLE s.t (a int);"],
          .block (ascii "COPY s.t (a) FROM stdin;") [ascii "1"] endOfData] =
            before ++ .block header rows terminator :: after →
        newline ∉ header ∧ Mode.top.after (itemLines before) = .top :=
  feedAll_complete_iff [] _
    (by
      intro item hitem
      simp only [List.mem_cons, List.not_mem_nil, or_false] at hitem
      rcases hitem with rfl | rfl
      · exact .statement _ (ascii "CREATE TABLE s.t (a int);") (by decide) rfl (by decide +kernel)
      · exact .block _ _ _ (by decide +kernel) (fun h => absurd h (by decide)) (by decide)
          (by decide) (by decide))
    [unlines newline [ascii "-- Dumped by pg_dump version 17.2",
      ascii "CREATE TABLE s.t (a int);", ascii "COPY s.t (a) FROM stdin;", ascii "1", endOfData]]
    (by decide +kernel)
    { dumpedBy := some 17, tables := [("s.t", ⟨⟨some "s", "t"⟩, [⟨"a", "int"⟩]⟩)] }
    _ (by decide +kernel) (by decide +kernel)

end Scanner

end PgDelta.Scan
