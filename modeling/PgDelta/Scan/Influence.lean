import PgDelta.Scan.Blocks
import PgDelta.Scan.Ending
import PgDelta.Scan.RoundTrip

/-!
What the rows of a dump can do to its structure.

A dump is read in parts: text of SQL, and `COPY` blocks whose header names
tables and columns by quoted identifiers. Rows that are written by the rules of
COPY TEXT pass through unread as long as the scanner stands inside a block when
they come. It does not where an identifier contains a newline, since the header
is then spread over lines none of which is the header of a block.
-/

namespace PgDelta.Scan

open PgDelta.Lib PgDelta.Copy Scanner

/-! ### Dumps as parts -/

def quotedText (name : String) : Bytes := quote :: doubleQuotes (utf8 name) ++ [quote]

/-- The names in the header of a block. -/
structure BlockNames where
  schema : Option String
  table : String
  column : String
  columns : List String := []
  deriving DecidableEq

def BlockNames.header (names : BlockNames) : Bytes :=
  ascii "COPY " ++ ((names.schema.map fun schema => quotedText schema ++ [dot]).getD []) ++
    quotedText names.table ++ ascii " (" ++ quotedText names.column ++
    (names.columns.flatMap fun column => ascii ", " ++ quotedText column) ++
    ascii ") FROM stdin;"

def quotedName (name : String) : SqlName where
  name := name
  text := quotedText name
  written := .quoted name

def BlockNames.copyHeader (names : BlockNames) : CopyHeader where
  schema := names.schema.map quotedName
  table := quotedName names.table
  columns := quotedName names.column :: names.columns.map quotedName
  columns_ne := List.cons_ne_nil _ _

theorem columnsText_cons (c : SqlName) (cs : List SqlName) :
    columnsText (c :: cs) = c.text ++ cs.flatMap fun d => ascii ", " ++ d.text := by
  induction cs generalizing c with
  | nil => simp [columnsText]
  | cons d cs ih =>
    rw [columnsText, ih d, List.flatMap_cons]
    simp [show ascii ", " = [comma, 32] by decide]

theorem BlockNames.header_eq (names : BlockNames) : names.header = names.copyHeader.text := by
  rw [CopyHeader.text, copyHeader, columnsText_cons, BlockNames.header, List.flatMap_map]
  cases names.schema with
  | none => simp [writtenName, quotedName]
  | some schema => simp [writtenName, quotedName]

/-- Text of SQL without its last newline, or a block with rows of one field for
each column. -/
inductive Part
  | sql (text : Bytes)
  | block (names : BlockNames) (rows : List (List (Option Bytes)))

namespace Part

def text : Part → Bytes
  | .sql text => text ++ [newline]
  | .block names rows =>
    names.header ++ newline :: unlines newline (rows.map encodeRow ++ [endOfData])

def lines : Part → List Bytes
  | .sql text => textLines text
  | .block names rows => textLines names.header ++ (rows.map encodeRow ++ [endOfData])

/-- A part without its rows. -/
def bare : Part → Part
  | .sql text => .sql text
  | .block names _ => .block names []

def Fits : Part → Prop
  | .sql _ => True
  | .block names rows => ∀ row ∈ rows, row.length = names.columns.length + 1

theorem unlines_lines (p : Part) : unlines newline p.lines = p.text := by
  cases p with
  | sql text => exact unlines_textLines text
  | block names rows => simp [lines, Part.text, unlines_textLines]

theorem newline_not_mem_lines (p : Part) : ∀ l ∈ p.lines, newline ∉ l := by
  intro l hl
  cases p with
  | sql text => exact not_mem_of_mem_lines hl
  | block names rows =>
    simp only [lines, List.mem_append, List.mem_map, List.mem_singleton] at hl
    rcases hl with hl | ⟨row, -, rfl⟩ | rfl
    · exact not_mem_of_mem_lines hl
    · exact (not_mem_encodeRow row).1
    · decide

theorem lines_block_nil (names : BlockNames) :
    (Part.block names []).lines = textLines names.header ++ [endOfData] := rfl

theorem bare_bare (p : Part) : p.bare.bare = p.bare := by cases p <;> rfl

theorem map_bare_bare (parts : List Part) : (parts.map bare).map bare = parts.map bare := by
  rw [List.map_map]
  exact List.map_congr_left fun p _ => p.bare_bare

theorem fits_bare (p : Part) : p.bare.Fits := by cases p <;> simp [bare, Fits]

end Part

def dumpText (parts : List Part) : Bytes := parts.flatMap Part.text

def dumpLines (parts : List Part) : List Bytes := parts.flatMap Part.lines

theorem lines_dumpText (parts : List Part) :
    lines newline (dumpText parts) = (dumpLines parts, []) := by
  have htext : dumpText parts = unlines newline (dumpLines parts) := by
    induction parts with
    | nil => rfl
    | cons p parts ih =>
      simp only [dumpText, dumpLines, List.flatMap_cons, unlines_append, p.unlines_lines] at ih ⊢
      rw [ih]
  have hfree : ∀ l ∈ dumpLines parts, newline ∉ l := by
    intro l hl
    obtain ⟨p, -, hmem⟩ := List.mem_flatMap.mp hl
    exact p.newline_not_mem_lines l hmem
  have hlines := lines_unlines_append hfree []
  rw [htext]
  simpa using hlines

/-- Read from the top, the header of every block leaves the scanner inside a
block. -/
def Enclosed (mode : Mode) : List Part → Prop
  | [] => True
  | .sql text :: parts => Enclosed (mode.after (textLines text)) parts
  | .block names _ :: parts =>
    mode.after (textLines names.header) = .copy ∧ Enclosed .top parts

/-- A header on one line does so where the scanner stands at the top. -/
theorem Mode.after_header (names : BlockNames) (h : newline ∉ names.header) :
    Mode.top.after (textLines names.header) = .copy := by
  have hlines := textLines_of_not_mem h
  have hheader : isCopyHeader (stripCr names.header) = true := by
    rw [names.header_eq, CopyHeader.stripCr_text, CopyHeader.isCopyHeader_text]
  simp [hlines, Mode.after, Mode.step, hheader]

/-! ### Rows inside blocks -/

/-- Events other than rows. -/
def isStructure : Obs → Bool
  | .event _ => true
  | .row _ => false

@[simp] theorem isStructure_event (e : Event) : isStructure (.event e) = true := rfl

@[simp] theorem isStructure_row (r : Bytes) : isStructure (.row r) = false := rfl

/-- A result without its rows. -/
def frameObs (result : Except Error (Scanner × List Obs)) : Except Error (Scanner × List Obs) :=
  result.map fun r => (r.1, r.2.filter isStructure)

@[simp] theorem frameObs_ok (r : Scanner × List Obs) :
    frameObs (.ok r) = .ok (r.1, r.2.filter isStructure) := rfl

@[simp] theorem frameObs_error (e : Error) : frameObs (.error e) = .error e := rfl

/-- The events of a result, without the rows. -/
def frameEvents (result : Except Error (Scanner × List Event)) : Except Error (List Event) :=
  result.map fun r => r.2.filter fun e => !e.isRows

namespace Scanner

/-- Runs that differ behind a common part differ there. -/
theorem frameObs_append {s : Scanner} {ls ms₁ ms₂ : List (Bool × Bytes)}
    (h : ∀ s₁ obs, s.runLines ls = .ok (s₁, obs) →
      frameObs (s₁.runLines ms₁) = frameObs (s₁.runLines ms₂)) :
    frameObs (s.runLines (ls ++ ms₁)) = frameObs (s.runLines (ls ++ ms₂)) := by
  rw [runLines_append, runLines_append]
  cases hls : s.runLines ls with
  | error e => rfl
  | ok r =>
    obtain ⟨s₁, obs⟩ := r
    have h := h s₁ obs hls
    cases h₁ : s₁.runLines ms₁ with
    | error e =>
      cases h₂ : s₁.runLines ms₂ with
      | error e' => simpa [h₁, h₂] using h
      | ok r => simp [h₁, h₂] at h
    | ok r =>
      cases h₂ : s₁.runLines ms₂ with
      | error e' => simp [h₁, h₂] at h
      | ok r' =>
        obtain ⟨hs, hobs⟩ : r.1 = r'.1 ∧ r.2.filter isStructure = r'.2.filter isStructure := by
          simpa [h₁, h₂] using h
        simp [hs, hobs, h₁, h₂]

theorem mode_copy {s : Scanner} (h : s.mode = .copy) : s.state = .copy := by
  unfold mode at h
  cases hstate : s.state with
  | copy => rfl
  | sql =>
    rw [hstate] at h
    cases hcreate : s.inCreate || s.skippingCreate <;> simp [hcreate] at h

theorem not_isEndOfData_encodeRow (row : List (Option Bytes)) :
    isEndOfData (stripCr (encodeRow row)) = false := by
  rw [stripCr_of_not_mem (not_mem_encodeRow row).2, isEndOfData, beq_eq_false_iff_ne]
  exact encodeRow_ne_endOfData row

theorem complete_block (names : BlockNames) (rows : List (List (Option Bytes))) :
    (Item.block names.header (rows.map encodeRow) endOfData).Complete := by
  rw [names.header_eq]
  apply Item.Complete.block
  · rw [CopyHeader.stripCr_text, CopyHeader.isCopyHeader_text]
  · intro hnewline
    have hparse := names.copyHeader.parseCopyHeader_text
    exact ⟨_, _, by rw [CopyHeader.stripCr_text, CopyHeader.trimAsciiEnd_text, hparse],
      CopyHeader.newline_mem_text hnewline⟩
  · intro l hl
    rcases List.mem_append.mp hl with hl | hl
    · obtain ⟨row, -, rfl⟩ := List.mem_map.mp hl
      exact (not_mem_encodeRow row).1
    · rw [List.mem_singleton.mp hl]
      decide
  · intro l hl
    obtain ⟨row, -, rfl⟩ := List.mem_map.mp hl
    exact not_isEndOfData_encodeRow row
  · decide

theorem frameObs_rows {s : Scanner} (hs : s.state = .copy) (rows : List (List (Option Bytes)))
    (ms : List (Bool × Bytes)) :
    frameObs (s.runLines (uncut (rows.map encodeRow) ++ ms)) = frameObs (s.runLines ms) := by
  have hrows : ∀ l ∈ rows.map encodeRow, isEndOfData (stripCr l) = false := by
    intro l hl
    obtain ⟨row, -, rfl⟩ := List.mem_map.mp hl
    exact not_isEndOfData_encodeRow row
  have hskip : (List.map (fun l => Obs.row (stripCr l)) (rows.map encodeRow)).filter isStructure =
      [] := by
    rw [List.filter_eq_nil_iff]
    intro o ho
    obtain ⟨l, -, rfl⟩ := List.mem_map.mp ho
    simp
  rw [runLines_append, uncut, runLines_rows_uncut hs hrows]
  cases hms : s.runLines ms with
  | error e => simp only [hms, frameObs_error]
  | ok r => simp only [hms, frameObs_ok, List.filter_append, hskip, List.nil_append]

/-- Where every header opens a block, the rows of a dump do not show in its
structure. -/
theorem frameObs_dumpLines {s : Scanner} (hs : s.Consistent) {parts : List Part}
    (hframed : Enclosed s.mode parts) :
    frameObs (s.runLines (uncut (dumpLines parts))) =
      frameObs (s.runLines (uncut (dumpLines (parts.map Part.bare)))) := by
  induction parts generalizing s with
  | nil => rfl
  | cons p parts ih =>
    cases p with
    | sql text =>
      simp only [dumpLines, List.flatMap_cons, List.map_cons, Part.bare, Part.lines,
        uncut_append] at ih ⊢
      apply frameObs_append
      intro s₁ obs hrun
      obtain ⟨hs₁, hmode⟩ := runLines_mode hs hrun
      rw [map_snd_uncut] at hmode
      exact ih hs₁ (by rw [hmode]; exact hframed)
    | block names rows =>
      obtain ⟨hcopy, hrest⟩ := hframed
      simp only [dumpLines, List.flatMap_cons, List.map_cons, Part.bare, Part.lines,
        uncut_append, List.append_assoc, List.map_nil] at ih ⊢
      apply frameObs_append
      intro s₁ obs hrun
      obtain ⟨hs₁, hmode⟩ := runLines_mode hs hrun
      rw [map_snd_uncut, hcopy] at hmode
      rw [frameObs_rows (mode_copy hmode)]
      apply frameObs_append
      intro s₂ obs₂ hrun₂
      obtain ⟨hs₂, hmode₂⟩ := runLines_mode hs₁ hrun₂
      rw [map_snd_uncut, hmode] at hmode₂
      have htop : Mode.copy.after [endOfData] = .top := by decide
      exact ih hs₂ (by rw [hmode₂, htop]; exact hrest)

/-! ### Rows outside blocks -/

/-- A row whose first field is given and whose other fields are empty. -/
def padded (v : Bytes) (k : ℕ) : List (Option Bytes) := some v :: List.replicate k (some [])

theorem encodeRow_padded (v : Bytes) (k : ℕ) :
    encodeRow (padded v k) = encodeValue v ++ List.replicate k tab := by
  induction k generalizing v with
  | zero => simp [padded, encodeRow, encodeField]
  | succ k ih =>
    have hempty := ih []
    simp only [padded] at hempty
    rw [padded, List.replicate_succ, encodeRow, hempty, List.replicate_succ]
    simp [encodeField]

/-- A row that ends the text of a `CREATE TABLE`. -/
def closingRow (k : ℕ) : List (Option Bytes) := padded (ascii ");") k

/-- A row that reads as the comment of a dump that is not supported. -/
def versionRow (k : ℕ) : List (Option Bytes) :=
  padded (ascii "-- Dumped by pg_dump version 9") k

theorem encodeRow_closingRow (k : ℕ) :
    encodeRow (closingRow k) = ascii ");" ++ List.replicate k tab := by
  rw [closingRow, encodeRow_padded, show encodeValue (ascii ");") = ascii ");" by decide]

theorem encodeRow_versionRow (k : ℕ) :
    encodeRow (versionRow k) =
      ascii "-- Dumped by pg_dump version " ++ (57 :: List.replicate k tab) := by
  rw [versionRow, encodeRow_padded,
    show encodeValue (ascii "-- Dumped by pg_dump version 9") =
      ascii "-- Dumped by pg_dump version " ++ [57] by decide +kernel, List.append_assoc]
  rfl

theorem endsCreate_closingRow (k : ℕ) : endsCreate (encodeRow (closingRow k)) = true := by
  have htrim : trimAsciiEnd (ascii ");" ++ List.replicate k tab) = ascii ");" := by
    induction k with
    | zero => decide
    | succ k ih =>
      rw [List.replicate_succ', ← List.append_assoc, trimAsciiEnd,
        List.rdropWhile_concat_pos _ _ _ (by decide)]
      exact ih
  rw [encodeRow_closingRow, endsCreate, htrim]
  decide

/-- Outside a block, this row leads to the top. -/
theorem Mode.step_closingRow {mode : Mode} (h : mode ≠ .copy) (k : ℕ) :
    mode.step (encodeRow (closingRow k)) = .top := by
  have hcr := stripCr_of_not_mem (not_mem_encodeRow (closingRow k)).2
  have hend := endsCreate_closingRow k
  have hfirst : (stripPrefixCi (encodeRow (closingRow k)) (ascii ");")).isSome = true := by
    rw [encodeRow_closingRow]
    simp [stripPrefixCi, eqIgnoreAsciiCase]
  have hcopy : stripPrefixCi (encodeRow (closingRow k)) (ascii "COPY ") = none :=
    stripPrefixCi_exclusive hfirst 0 (by decide) (by decide) (by decide)
  cases mode with
  | top => simp [Mode.step, hcr, hend, isCopyHeader, hcopy]
  | create => simp [Mode.step, hcr, hend]
  | copy => exact absurd rfl h

/-- At the top, this row stops the load. -/
theorem lineStep_versionRow {s : Scanner} (hmode : s.mode = .top) (k : ℕ) :
    s.lineStep false (encodeRow (versionRow k)) = .error (.unsupportedDumpVersion 9) := by
  obtain ⟨hstate, hcreate, hskip⟩ := mode_top hmode
  have hcr := stripCr_of_not_mem (not_mem_encodeRow (versionRow k)).2
  have hversion : stripPrefixCi (encodeRow (versionRow k))
      (ascii "-- Dumped by pg_dump version ") = some (57 :: List.replicate k tab) := by
    rw [encodeRow_versionRow]
    simp [stripPrefixCi, eqIgnoreAsciiCase]
  have hdigits : (List.replicate k tab).takeWhile isAsciiDigit = [] := by
    cases k with
    | zero => rfl
    | succ k => simp [List.replicate_succ, show isAsciiDigit tab = false by decide]
  have hmajor : leadingMajor (57 :: List.replicate k tab) = some 9 := by
    simp [leadingMajor, hdigits, show isAsciiWhitespace 57 = false by decide,
      show isAsciiDigit 57 = true by decide, show UInt8.toNat 57 = 57 by decide]
  simp only [lineStep, hstate, hcr, sqlLine, hskip, hcreate, Bool.false_eq_true, if_false, topLine,
    hversion, hmajor]
  rfl

/-- Where a header leaves the scanner outside a block, some rows of the block
stop the load. -/
theorem exists_refused {s : Scanner} (hs : s.Consistent) {parts : List Part}
    (hframed : ¬ Enclosed s.mode parts) {r : Scanner × List Obs}
    (hok : s.runLines (uncut (dumpLines (parts.map Part.bare))) = .ok r) :
    ∃ dump : List Part, dump.map Part.bare = parts.map Part.bare ∧ (∀ p ∈ dump, p.Fits) ∧
      ∃ e, s.runLines (uncut (dumpLines dump)) = .error e := by
  induction parts generalizing s r with
  | nil => exact absurd trivial hframed
  | cons p parts ih =>
    simp only [dumpLines, List.map_cons, List.flatMap_cons, uncut_append] at ih hok ⊢
    cases p with
    | sql text =>
      simp only [Part.bare, Part.lines] at hok ⊢
      obtain ⟨s₁, obs₁, obs₂, hfirst, hrest, -⟩ := runLines_append_ok hok
      obtain ⟨hs₁, hmode⟩ := runLines_mode hs hfirst
      rw [map_snd_uncut] at hmode
      obtain ⟨dump, hbare, hfits, e, hrun⟩ := ih hs₁ (by rw [hmode]; exact hframed) hrest
      refine ⟨.sql text :: dump, by simp [hbare, Part.bare], ?_, e, ?_⟩
      · intro p hp
        rcases List.mem_cons.mp hp with rfl | hp
        · trivial
        · exact hfits p hp
      · rw [List.flatMap_cons, uncut_append, runLines_append]
        simp [Part.lines, hfirst, hrun]
    | block names rows =>
      simp only [Part.bare, Part.lines_block_nil, uncut_append, List.append_assoc] at hok ⊢
      obtain ⟨s₁, obs₁, obs₂, hheader, hrest, -⟩ := runLines_append_ok hok
      obtain ⟨hs₁, hmode⟩ := runLines_mode hs hheader
      rw [map_snd_uncut] at hmode
      by_cases hcopy : s.mode.after (textLines names.header) = .copy
      · -- The rows of this block are rows: another block is the one.
        obtain ⟨s₂, obs₃, obs₄, hterm, hparts, -⟩ := runLines_append_ok hrest
        obtain ⟨hs₂, hmode₂⟩ := runLines_mode hs₁ hterm
        rw [map_snd_uncut, hmode, hcopy] at hmode₂
        have htop : Mode.copy.after [endOfData] = .top := by decide
        have hframed' : ¬ Enclosed s₂.mode parts := by
          rw [hmode₂, htop]
          exact fun h => hframed ⟨hcopy, h⟩
        obtain ⟨dump, hbare, hfits, e, hrun⟩ := ih hs₂ hframed' hparts
        refine ⟨.block names [] :: dump, by simp [hbare, Part.bare], ?_, e, ?_⟩
        · intro p hp
          rcases List.mem_cons.mp hp with rfl | hp
          · simp [Part.Fits]
          · exact hfits p hp
        · rw [List.flatMap_cons, Part.lines_block_nil, uncut_append, uncut_append,
            List.append_assoc, runLines_append, hheader]
          simp only [runLines_append, hterm, hrun]
      -- One row ends any statement that is open, and the next is a version the scanner refuses.
      · refine ⟨.block names [closingRow names.columns.length, versionRow names.columns.length] ::
          parts.map Part.bare, ?_, ?_, ?_⟩
        · rw [List.map_cons, Part.map_bare_bare]
          rfl
        · intro p hp
          rcases List.mem_cons.mp hp with rfl | hp
          · simp [Part.Fits, closingRow, versionRow, padded]
          · obtain ⟨q, -, rfl⟩ := List.mem_map.mp hp
            exact q.fits_bare
        · rw [List.flatMap_cons, Part.lines, uncut_append, uncut_append, List.append_assoc,
            runLines_append, hheader]
          simp only [List.map_cons, uncut, List.cons_append, runLines]
          cases hclosing : s₁.lineStep false (encodeRow (closingRow names.columns.length)) with
          | error e => exact ⟨e, rfl⟩
          | ok r₂ =>
            obtain ⟨s₂, obs₃⟩ := r₂
            obtain ⟨-, hmode₂⟩ := lineStep_mode hs₁ hclosing
            rw [hmode, Mode.step_closingRow hcopy] at hmode₂
            simp only [lineStep_versionRow hmode₂]
            exact ⟨_, rfl⟩

/-! ### Whole dumps -/

theorem frameObs_trimmed (result : Except Error (Scanner × List Obs)) :
    frameObs (trimmed result) = frameObs result := by
  cases result with
  | error e => rfl
  | ok r =>
    have hfilter : (r.2.map trim).filter isStructure = r.2.filter isStructure := by
      induction r.2 with
      | nil => rfl
      | cons o obs ih =>
        rw [List.map_cons]
        cases o with
        | event e => rw [trim_event, List.filter_cons_of_pos rfl, List.filter_cons_of_pos rfl, ih]
        | row r =>
          rw [trim, List.filter_cons_of_neg (by simp), List.filter_cons_of_neg (by simp), ih]
    simp [hfilter]

theorem filter_observe (events : List Event) :
    (observe events).filter isStructure =
      (events.filter fun e => !e.isRows).map .event := by
  induction events with
  | nil => rfl
  | cons e events ih =>
    have hcons : observe (e :: events) = e.observe ++ observe events := rfl
    rw [hcons, List.filter_append, ih]
    cases e with
    | copyRows payload =>
      have hrows : ((rows payload).map Obs.row).filter isStructure = [] := by
        simp [List.filter_eq_nil_iff]
      rw [Event.observe, hrows, List.nil_append, List.filter_cons_of_neg (by simp [Event.isRows])]
    | _ => rw [List.filter_cons_of_pos rfl]; rfl

/-- What is seen of two results without their rows decides their events without
the rows. -/
theorem frameEvents_eq {r₁ r₂ : Except Error (Scanner × List Event)}
    (h : frameObs (observed r₁) = frameObs (observed r₂)) : frameEvents r₁ = frameEvents r₂ := by
  cases r₁ with
  | error e =>
    cases r₂ with
    | error e' => simpa [frameEvents, Except.map] using h
    | ok r => simp [observed, Except.map, frameObs] at h
  | ok r =>
    cases r₂ with
    | error e' => simp [observed, Except.map, frameObs] at h
    | ok r' =>
      have hobs : (observe r.2).filter isStructure = (observe r'.2).filter isStructure := by
        simp only [observed, Except.map, frameObs, Except.ok.injEq, Prod.mk.injEq] at h
        exact h.2
      rw [filter_observe, filter_observe] at hobs
      have hevents := List.map_injective_iff.mpr (fun _ _ h => Obs.event.inj h) hobs
      simp [frameEvents, Except.map, hevents]

theorem feedAll_dump (schemas : List String) {chunks : List Bytes} {parts : List Part}
    (h : chunks.flatten = dumpText parts) :
    frameObs (observed ((new.setExcludedSchemas schemas).feedAll chunks)) =
      frameObs ((new.setExcludedSchemas schemas).runLines (uncut (dumpLines parts))) := by
  rw [← frameObs_trimmed, feedAll_trimmed, frameObs_trimmed, h, lines_dumpText]
  cases hrun : (new.setExcludedSchemas schemas).runLines (uncut (dumpLines parts)) with
  | error e => rfl
  | ok r =>
    have hpending : r.1.pending = [] := (runLines_frame hrun).1
    have hr : { r.1 with pending := [] } = r.1 := by rw [← hpending]
    simp [hr]

/-- Any two ways of filling the blocks of a dump with rows, in any chunks, show
the same versions, tables, starts and ends of blocks, or the same error. -/
def RowsInert (schemas : List String) (skeleton : List Part) : Prop :=
  ∀ d₁ d₂ : List Part, d₁.map Part.bare = skeleton.map Part.bare →
    d₂.map Part.bare = skeleton.map Part.bare → (∀ p ∈ d₁, p.Fits) → (∀ p ∈ d₂, p.Fits) →
    ∀ c₁ c₂ : List Bytes, c₁.flatten = dumpText d₁ → c₂.flatten = dumpText d₂ →
      frameEvents ((new.setExcludedSchemas schemas).feedAll c₁) =
        frameEvents ((new.setExcludedSchemas schemas).feedAll c₂)

theorem enclosed_of_bare {mode : Mode} {d parts : List Part} (h : Enclosed mode parts)
    (hbare : d.map Part.bare = parts.map Part.bare) : Enclosed mode d := by
  induction parts generalizing mode d with
  | nil =>
    obtain rfl : d = [] := by simpa using hbare
    trivial
  | cons p parts ih =>
    cases d with
    | nil => simp at hbare
    | cons q d =>
      obtain ⟨hpart, hrest⟩ : q.bare = p.bare ∧ d.map Part.bare = parts.map Part.bare := by
        simpa using hbare
      cases p with
      | sql text =>
        cases q with
        | sql text' =>
          obtain rfl := Part.sql.inj hpart
          have hd : Enclosed (mode.after (textLines text')) d := ih h hrest
          exact hd
        | block names rows => cases hpart
      | block names rows =>
        cases q with
        | sql text => cases hpart
        | block names' rows' =>
          obtain ⟨rfl, -⟩ := Part.block.inj hpart
          exact ⟨h.1, ih h.2 hrest⟩

/-- The rows of a dump cannot show in its structure where the header of every
block leaves the scanner inside a block; and this is the only way, in a dump
that is accepted without its rows. -/
theorem rows_inert_iff (schemas : List String) (skeleton : List Part) :
    (Enclosed .top skeleton → RowsInert schemas skeleton) ∧
      ((∃ r, (new.setExcludedSchemas schemas).feedAll [dumpText (skeleton.map Part.bare)] =
        .ok r) → RowsInert schemas skeleton → Enclosed .top skeleton) := by
  have hconsistent := consistent_new schemas
  constructor
  · intro hframed d₁ d₂ hd₁ hd₂ _ _ c₁ c₂ hc₁ hc₂
    have hsame : ∀ {d : List Part}, d.map Part.bare = skeleton.map Part.bare →
        frameObs ((new.setExcludedSchemas schemas).runLines (uncut (dumpLines d))) =
          frameObs ((new.setExcludedSchemas schemas).runLines
            (uncut (dumpLines (skeleton.map Part.bare)))) := by
      intro d hd
      rw [← hd]
      exact frameObs_dumpLines hconsistent (enclosed_of_bare hframed hd)
    apply frameEvents_eq
    rw [feedAll_dump schemas hc₁, feedAll_dump schemas hc₂, hsame hd₁, hsame hd₂]
  · rintro ⟨r, haccepted⟩ hinert
    by_contra hframed
    have hbare := feedAll_dump schemas (show [dumpText (skeleton.map Part.bare)].flatten
      = dumpText (skeleton.map Part.bare) from List.flatten_singleton)
    cases hrun : (new.setExcludedSchemas schemas).runLines
        (uncut (dumpLines (skeleton.map Part.bare))) with
    | error e => simp [haccepted, hrun, observed, Except.map, frameObs] at hbare
    | ok r' =>
      obtain ⟨dump, hdump, hfits, e, hrefused⟩ := exists_refused hconsistent hframed hrun
      have hdumped := feedAll_dump schemas
        (show [dumpText dump].flatten = dumpText dump from List.flatten_singleton)
      have hequal := hinert (skeleton.map Part.bare) dump (Part.map_bare_bare skeleton) hdump
        (fun p hp => by
          obtain ⟨q, -, rfl⟩ := List.mem_map.mp hp
          exact q.fits_bare) hfits _ _ List.flatten_singleton List.flatten_singleton
      cases hfeed : (new.setExcludedSchemas schemas).feedAll [dumpText dump] with
      | error e' => simp [haccepted, hfeed, frameEvents, Except.map] at hequal
      | ok r'' => simp [hfeed, hrefused, observed, Except.map, frameObs] at hdumped

/-- A block of one column, behind the comment that states the version. -/
def namedSkeleton (table : String) (rows : List (List (Option Bytes))) : List Part :=
  [.sql (ascii "-- Dumped by pg_dump version 17.2"), .block ⟨none, table, "x", []⟩ rows]

/-- The row of a table whose name contains a newline declares a table of its
own. -/
theorem rows_inert_counterexample :
    ¬ ∀ (schemas : List String) (skeleton : List Part), RowsInert schemas skeleton := by
  intro hclaim
  have hfits : ∀ rows ∈ [[], [[some (ascii "CREATE TABLE hidden (x int);")]]],
      ∀ p ∈ namedSkeleton "a\nb" rows, p.Fits := by
    intro rows hrows p hp
    simp only [List.mem_cons, List.not_mem_nil, or_false] at hrows
    simp only [namedSkeleton, List.mem_cons, List.not_mem_nil, or_false] at hp
    rcases hp with rfl | rfl
    · trivial
    · rcases hrows with rfl | rfl <;> simp [Part.Fits]
  have hequal := hclaim [] (namedSkeleton "a\nb" []) (namedSkeleton "a\nb" [])
    (namedSkeleton "a\nb" [[some (ascii "CREATE TABLE hidden (x int);")]]) rfl rfl
    (hfits _ (by simp)) (hfits _ (by simp)) _ _ List.flatten_singleton List.flatten_singleton
  exact absurd hequal (by decide +kernel)

/-- A table whose name is on one line. -/
theorem rows_inert_space :
    RowsInert [] (namedSkeleton "a b" []) ∧ Enclosed .top (namedSkeleton "a b" []) := by
  have hheader : newline ∉ (BlockNames.mk none "a b" "x" []).header := by decide +kernel
  have htop : Mode.top.after (textLines (ascii "-- Dumped by pg_dump version 17.2")) = .top := by
    decide +kernel
  have henclosed : Enclosed .top (namedSkeleton "a b" []) := by
    refine ⟨?_, trivial⟩
    rw [htop]
    exact Mode.after_header _ hheader
  have haccepted : ∃ r, (new.setExcludedSchemas []).feedAll
      [dumpText ((namedSkeleton "a b" []).map Part.bare)] = .ok r :=
    ⟨({ dumpedBy := some 17 }, [.dumpVersion 17 none, .copyStart ⟨none, "a b"⟩ ["x"],
      .copyEnd ⟨none, "a b"⟩]), by decide +kernel⟩
  obtain ⟨hinert, hconverse⟩ := rows_inert_iff [] (namedSkeleton "a b" [])
  exact ⟨hinert henclosed, hconverse haccepted (hinert henclosed)⟩

end Scanner

end PgDelta.Scan
