import PgDelta.Scan.Influence

/-!
What excluding a schema does to the events of a dump.

A `CREATE TABLE` of an excluded schema is passed over from its first line to
the first line that ends in `);`. `passed` says when this leaves no trace; a
dump whose excluded statements are all passed in this sense shows the same
events as the dump without them.
-/

namespace PgDelta.Scan

open PgDelta.Lib PgDelta.Copy Scanner

/-- A line that is read as the first one of a `CREATE TABLE` in an excluded
schema. -/
def startsExcluded (schemas : List String) (line : Bytes) : Bool :=
  match stripCreateTable line with
  | some afterKw => (new.setExcludedSchemas schemas).schemaIsExcluded afterKw
  | none => false

/-- A line that leaves a scanner at the top as it is. -/
def silent (line : Bytes) : Bool :=
  match stripPrefixCi line (ascii "-- Dumped by pg_dump version ") with
  | some rest => (leadingMajor rest).isNone
  | none =>
    (stripPrefixCi line (ascii "-- Dumped from database version ")).isNone &&
      (stripCreateTable line).isNone && !isCopyHeader line

/-- The lines of a statement leave no trace: of every `CREATE TABLE` of an
excluded schema in them a line ends in `);`, and the lines outside these are
silent. -/
def passed (schemas : List String) : Bool → List Bytes → Bool
  | skipping, [] => !skipping
  | true, line :: lines => passed schemas (!endsCreate (stripCr line)) lines
  | false, line :: lines =>
    if startsExcluded schemas (stripCr line) then
      passed schemas (!endsCreate (stripCr line)) lines
    else silent (stripCr line) && passed schemas false lines

namespace Scanner

variable {schemas : List String} {s s' : Scanner} {line : Bytes}

/-- Outside blocks and statements. -/
structure AtTop (s : Scanner) : Prop where
  state : s.state = .sql
  create : s.inCreate = false
  skipping : s.skippingCreate = false

theorem schemaIsExcluded_eq (hs : s.excludedSchemas = schemas) (afterKw : Bytes) :
    s.schemaIsExcluded afterKw = (new.setExcludedSchemas schemas).schemaIsExcluded afterKw := by
  simp [schemaIsExcluded, hs, setExcludedSchemas]

theorem AtTop.sqlLine (h : s.AtTop) (line : Bytes) : s.sqlLine line = s.topLine line := by
  simp [Scanner.sqlLine, h.create, h.skipping]

theorem not_isPrefixOf_of_stripCreateTable (h : (stripCreateTable line).isSome = true) :
    (ascii "--").isPrefixOf line = false := by
  by_contra hdash
  rw [(dash_line_of_isPrefixOf (by simpa using hdash)).1] at h
  cases h

theorem topLine_silent (s : Scanner) (h : silent line = true) :
    s.topLine line = .ok (s, []) := by
  cases hversion : stripPrefixCi line (ascii "-- Dumped by pg_dump version ") with
  | some rest =>
    have hmajor : leadingMajor rest = none := by simpa [silent, hversion] using h
    simp [topLine, hversion, hmajor]
  | none =>
    obtain ⟨⟨hdatabase, hkw⟩, hheader⟩ :
        (stripPrefixCi line (ascii "-- Dumped from database version ") = none ∧
          stripCreateTable line = none) ∧ isCopyHeader line = false := by
      simpa [silent, hversion] using h
    simp only [topLine, hversion, hdatabase, hkw]
    split
    · rfl
    · split
      next hcopy =>
        have hend : endsWithCi (trimAsciiEnd line) (ascii "FROM stdin;") = false := by
          simpa [isCopyHeader, hcopy] using hheader
        simp [copyLine, hend]
      next => rfl

theorem topLine_startsExcluded (hs : s.excludedSchemas = schemas) (hskip : s.skippingCreate = false)
    (h : startsExcluded schemas line = true) :
    s.topLine line = .ok ({ s with skippingCreate := !endsCreate line }, []) := by
  unfold startsExcluded at h
  split at h
  next afterKw hkw =>
    have hcreate : (stripCreateTable line).isSome = true := by simp [hkw]
    have hdash := not_isPrefixOf_of_stripCreateTable hcreate
    have hversion : stripPrefixCi line (ascii "-- Dumped by pg_dump version ") = none := by
      by_contra hsome
      have hdumped := (dash_line (w := ascii "- Dumped by pg_dump version ")
        (Option.isSome_iff_ne_none.mpr hsome)).1
      rw [hcreate] at hdumped
      cases hdumped
    have hdatabase : stripPrefixCi line (ascii "-- Dumped from database version ") = none := by
      by_contra hsome
      have hdumped := (dash_line (w := ascii "- Dumped from database version ")
        (Option.isSome_iff_ne_none.mpr hsome)).1
      rw [hcreate] at hdumped
      cases hdumped
    have hexcluded : s.schemaIsExcluded afterKw = true := by rw [schemaIsExcluded_eq hs, h]
    simp only [topLine, hversion, hdatabase, hdash, hkw, createLine, hexcluded, if_true,
      Bool.false_eq_true, if_false]
    cases hend : endsCreate line with
    | true =>
      simp only [if_true, Bool.not_true, Except.ok.injEq, Prod.mk.injEq, and_true]
      rw [← hskip]
    | false => simp
  next => cases h

theorem sqlLine_skipping (h : s.skippingCreate = true) (line : Bytes) :
    s.sqlLine line = .ok ({ s with skippingCreate := !endsCreate line }, []) := by
  unfold Scanner.sqlLine
  rw [if_pos h]
  cases endsCreate line with
  | true => rfl
  | false =>
    simp only [Bool.false_eq_true, if_false, Bool.not_false, Except.ok.injEq, Prod.mk.injEq,
      and_true]
    rw [← h]

theorem runLines_hidden (hstate : s.state = .sql)
    (h : s.sqlLine (stripCr line) = .ok (s', [])) (ls : List Bytes) :
    s.runLines (uncut (line :: ls)) = s'.runLines (uncut ls) := by
  rw [uncut, List.map_cons, runLines, lineStep]
  simp only [hstate, h, observed_ok, observe_nil]
  cases hrun : s'.runLines (ls.map fun l => (false, l)) with
  | error e => simp [uncut, hrun]
  | ok r => simp [uncut, hrun]

/-- Statements that are passed leave the scanner as it was, and show
nothing. -/
theorem runLines_passed (hs : s.excludedSchemas = schemas) (hstate : s.state = .sql)
    (hcreate : s.inCreate = false) {ls : List Bytes}
    (h : passed schemas s.skippingCreate ls = true) :
    s.runLines (uncut ls) = .ok ({ s with skippingCreate := false }, []) := by
  induction ls generalizing s with
  | nil =>
    have hskip : s.skippingCreate = false := by simpa [passed] using h
    rw [← hskip]
    rfl
  | cons line ls ih =>
    cases hskip : s.skippingCreate with
    | true =>
      rw [hskip, passed] at h
      rw [runLines_hidden hstate (sqlLine_skipping hskip _)]
      exact ih hs hstate hcreate h
    | false =>
      have htop : s.AtTop := ⟨hstate, hcreate, hskip⟩
      rw [hskip, passed] at h
      split at h
      next hexcluded =>
        rw [runLines_hidden hstate
          ((htop.sqlLine _).trans (topLine_startsExcluded hs hskip hexcluded))]
        exact ih hs hstate hcreate h
      next =>
        obtain ⟨hsilent, hpassed⟩ := (Bool.and_eq_true _ _).mp h
        rw [runLines_hidden hstate ((htop.sqlLine _).trans (topLine_silent s hsilent))]
        exact ih hs hstate hcreate (by rw [hskip]; exact hpassed)

/-! ### Lines that no exclusion concerns -/

end Scanner

/-- No line that is met at the top starts a `CREATE TABLE` of an excluded
schema. -/
def noneExcluded (schemas : List String) : Mode → List Bytes → Bool
  | _, [] => true
  | mode, line :: lines =>
    (mode != .top || !startsExcluded schemas (stripCr line)) &&
      noneExcluded schemas (mode.step line) lines

namespace Scanner

variable {schemas : List String} {s s' : Scanner} {line : Bytes}

def excluding {α : Type} (schemas : List String) (result : Except Error (Scanner × α)) :
    Except Error (Scanner × α) :=
  result.map fun r => (r.1.setExcludedSchemas schemas, r.2)

@[simp] theorem excluding_ok {α : Type} (schemas : List String) (r : Scanner × α) :
    excluding schemas (.ok r) = .ok (r.1.setExcludedSchemas schemas, r.2) := rfl

@[simp] theorem excluding_error {α : Type} (schemas : List String) (e : Error) :
    excluding (α := α) schemas (.error e) = .error e := rfl

theorem recordTable_excluding (s : Scanner) (ddl : Bytes) :
    (s.setExcludedSchemas schemas).recordTable ddl = excluding schemas (s.recordTable ddl) := by
  unfold recordTable
  cases parseCreateTable ddl <;> rfl

theorem createLine_excluding (hs : s.excludedSchemas = []) {afterKw : Bytes}
    (hkw : stripCreateTable line = some afterKw) (h : startsExcluded schemas line = false) :
    (s.setExcludedSchemas schemas).createLine line afterKw =
      excluding schemas (s.createLine line afterKw) := by
  have hnone : s.schemaIsExcluded afterKw = false := by simp [schemaIsExcluded, hs]
  have hexcluded : (s.setExcludedSchemas schemas).schemaIsExcluded afterKw = false := by
    have hname : (new.setExcludedSchemas schemas).schemaIsExcluded afterKw = false := by
      simpa [startsExcluded, hkw] using h
    rw [schemaIsExcluded_eq rfl]
    exact hname
  unfold createLine
  simp only [hnone, hexcluded, Bool.false_eq_true, if_false]
  split
  · exact recordTable_excluding { s with ddl := [] } line
  · rfl

theorem topLine_excluding (hs : s.excludedSchemas = []) (h : startsExcluded schemas line = false) :
    (s.setExcludedSchemas schemas).topLine line = excluding schemas (s.topLine line) := by
  unfold topLine
  split
  · split
    · split <;> rfl
    · rfl
  · split
    · rfl
    · split
      · rfl
      · split
        next afterKw hkw => exact createLine_excluding hs hkw h
        next =>
          split
          · unfold copyLine
            simp only
            split
            · split <;> rfl
            · rfl
          · rfl

theorem sqlLine_excluding (hs : s.excludedSchemas = [])
    (h : s.AtTop → startsExcluded schemas line = false) (hstate : s.state = .sql) :
    (s.setExcludedSchemas schemas).sqlLine line = excluding schemas (s.sqlLine line) := by
  cases hskip : s.skippingCreate with
  | true =>
    have hskip' : (s.setExcludedSchemas schemas).skippingCreate = true := hskip
    rw [sqlLine_skipping hskip, sqlLine_skipping hskip']
    rfl
  | false =>
    cases hcreate : s.inCreate with
    | true =>
      simp only [Scanner.sqlLine, setExcludedSchemas, hskip, hcreate, Bool.false_eq_true, if_false,
        if_true]
      split
      · exact recordTable_excluding
          { s with ddl := [], inCreate := false, skippingCreate := false } _
      · rfl
    | false =>
      have htop : s.AtTop := ⟨hstate, hcreate, hskip⟩
      have htop' : (s.setExcludedSchemas schemas).AtTop := ⟨hstate, hcreate, hskip⟩
      rw [htop.sqlLine, htop'.sqlLine]
      exact topLine_excluding hs (h htop)

theorem lineStep_excluding (hs : s.excludedSchemas = [])
    (h : s.AtTop → startsExcluded schemas (stripCr line) = false) (cut : Bool) :
    (s.setExcludedSchemas schemas).lineStep cut line = excluding schemas (s.lineStep cut line) := by
  cases hstate : s.state with
  | sql =>
    have hstate' : (s.setExcludedSchemas schemas).state = .sql := hstate
    simp only [lineStep, hstate, hstate', sqlLine_excluding hs h hstate]
    cases s.sqlLine (stripCr line) <;> rfl
  | copy =>
    have hstate' : (s.setExcludedSchemas schemas).state = .copy := hstate
    simp only [lineStep, hstate, hstate']
    split
    · have hclose : (s.setExcludedSchemas schemas).closeCopy =
          (s.closeCopy.1.setExcludedSchemas schemas, s.closeCopy.2) := by
        simp only [closeCopy, setExcludedSchemas]
        cases s.openTable <;> rfl
      rw [hclose]
      rfl
    · rfl

theorem AtTop.mode (h : s.AtTop) : s.mode = .top := by
  simp [Scanner.mode, h.state, h.create, h.skipping]

/-- Lines without a `CREATE TABLE` of an excluded schema are read as if nothing
were excluded. -/
theorem runLines_excluding (hconsistent : s.Consistent) (hs : s.excludedSchemas = [])
    {ls : List Bytes} (h : noneExcluded schemas s.mode ls = true) :
    (s.setExcludedSchemas schemas).runLines (uncut ls) =
      excluding schemas (s.runLines (uncut ls)) := by
  induction ls generalizing s with
  | nil => rfl
  | cons line ls ih =>
    obtain ⟨hline, hls⟩ := (Bool.and_eq_true _ _).mp h
    have hstart : s.AtTop → startsExcluded schemas (stripCr line) = false := by
      intro htop
      simpa [htop.mode] using hline
    rw [uncut, List.map_cons, runLines, runLines, lineStep_excluding hs hstart]
    cases hstep : s.lineStep false line with
    | error e => rfl
    | ok r =>
      obtain ⟨s₁, obs⟩ := r
      obtain ⟨hconsistent₁, hmode⟩ := lineStep_mode hconsistent hstep
      have hs₁ : s₁.excludedSchemas = [] := (lineStep_frame hstep).2.trans hs
      have hrest := ih hconsistent₁ hs₁ (by rw [hmode]; exact hls)
      rw [uncut] at hrest
      simp only [excluding_ok, hrest]
      cases s₁.runLines (ls.map fun l => (false, l)) <;> rfl

/-! ### Dumps with excluded statements -/

end Scanner

/-- A part of a dump, without its last newline: a `CREATE TABLE` statement of a
table in an excluded schema, or anything else. -/
inductive Piece
  | excluded (text : Bytes)
  | other (text : Bytes)

def Piece.text : Piece → Bytes
  | .excluded text | .other text => text

def Piece.isOther : Piece → Bool
  | .excluded _ => false
  | .other _ => true

def piecesText (pieces : List Piece) : Bytes := pieces.flatMap fun p => p.text ++ [newline]

def piecesLines (pieces : List Piece) : List Bytes := pieces.flatMap fun p => textLines p.text

/-- The dump with the excluded statements deleted. -/
def kept (pieces : List Piece) : List Piece := pieces.filter Piece.isOther

theorem lines_piecesText (pieces : List Piece) :
    lines newline (piecesText pieces) = (piecesLines pieces, []) := by
  have htext : piecesText pieces = unlines newline (piecesLines pieces) := by
    induction pieces with
    | nil => rfl
    | cons p pieces ih =>
      simp only [piecesText, piecesLines, List.flatMap_cons, unlines_append,
        unlines_textLines] at ih ⊢
      rw [ih]
  have hfree : ∀ l ∈ piecesLines pieces, newline ∉ l := by
    intro l hl
    obtain ⟨p, -, hmem⟩ := List.mem_flatMap.mp hl
    exact not_mem_of_mem_lines hmem
  have hlines := lines_unlines_append hfree []
  rw [htext]
  simpa using hlines

/-- Each excluded statement is met at the top and passed, and outside them no
line at the top starts one. -/
def Apart (schemas : List String) : Mode → List Piece → Prop
  | _, [] => True
  | mode, .other text :: pieces =>
    noneExcluded schemas mode (textLines text) = true ∧
      Apart schemas (mode.after (textLines text)) pieces
  | mode, .excluded text :: pieces =>
    mode = .top ∧ passed schemas false (textLines text) = true ∧ Apart schemas .top pieces

namespace Scanner

variable {schemas : List String} {s s' : Scanner} {line : Bytes}

theorem runLines_pieces (hconsistent : s.Consistent) (hs : s.excludedSchemas = [])
    {pieces : List Piece} (h : Apart schemas s.mode pieces) :
    (s.setExcludedSchemas schemas).runLines (uncut (piecesLines pieces)) =
      excluding schemas (s.runLines (uncut (piecesLines (kept pieces)))) := by
  induction pieces generalizing s with
  | nil => rfl
  | cons p pieces ih =>
    cases p with
    | other text =>
      obtain ⟨hnone, hrest⟩ := h
      have hfirst := runLines_excluding hconsistent hs hnone
      have hlines : ∀ ps, piecesLines (.other text :: ps) = textLines text ++ piecesLines ps :=
        fun ps => rfl
      have hkept : kept (.other text :: pieces) = .other text :: kept pieces := rfl
      rw [hkept, hlines, hlines, uncut_append, uncut_append, runLines_append, runLines_append,
        hfirst]
      cases hrun : s.runLines (uncut (textLines text)) with
      | error e => rfl
      | ok r =>
        obtain ⟨s₁, obs⟩ := r
        obtain ⟨hconsistent₁, hmode⟩ := runLines_mode hconsistent hrun
        rw [map_snd_uncut] at hmode
        have hs₁ : s₁.excludedSchemas = [] := (runLines_frame hrun).2.trans hs
        have hih := ih hconsistent₁ hs₁ (by rw [hmode]; exact hrest)
        simp only [excluding_ok, hih]
        cases s₁.runLines (uncut (piecesLines (kept pieces))) <;> rfl
    | excluded text =>
      obtain ⟨hmode, hpassed, hrest⟩ := h
      obtain ⟨hstate, hcreate, hskip⟩ := mode_top hmode
      have hskip' : (s.setExcludedSchemas schemas).skippingCreate = false := hskip
      have hfirst : (s.setExcludedSchemas schemas).runLines (uncut (textLines text)) =
          .ok ({ s.setExcludedSchemas schemas with skippingCreate := false }, []) :=
        runLines_passed (s := s.setExcludedSchemas schemas) rfl hstate hcreate
          (by rw [hskip']; exact hpassed)
      have hsame : { s.setExcludedSchemas schemas with skippingCreate := false } =
          s.setExcludedSchemas schemas := by
        rw [← hskip]
        rfl
      have hlines : piecesLines (.excluded text :: pieces) =
          textLines text ++ piecesLines pieces := rfl
      have hkept : kept (.excluded text :: pieces) = kept pieces := rfl
      have hih := ih hconsistent hs (by rw [hmode]; exact hrest)
      rw [hkept, ← hih, hlines, uncut_append, runLines_append, hfirst, hsame]
      cases hrun : (s.setExcludedSchemas schemas).runLines (uncut (piecesLines pieces)) with
      | error e => simp [hrun]
      | ok r => simp [hrun]

/-! ### Statements that are not passed -/

theorem hidden_of_runLines (hstate : s.state = .sql) {ls : List Bytes}
    (h : s.runLines (uncut (line :: ls)) = .ok (s', [])) :
    ∃ s₁, s.sqlLine (stripCr line) = .ok (s₁, []) ∧ s₁.runLines (uncut ls) = .ok (s', []) := by
  rw [uncut, List.map_cons, runLines, lineStep] at h
  simp only [hstate] at h
  cases hline : s.sqlLine (stripCr line) with
  | error e => simp [hline] at h
  | ok r =>
    obtain ⟨s₁, events⟩ := r
    cases hrest : s₁.runLines (ls.map fun l => (false, l)) with
    | error e => simp [hline, hrest] at h
    | ok r' =>
      simp only [hline, observed_ok, hrest, Except.ok.injEq, Prod.mk.injEq,
        List.append_eq_nil_iff] at h
      obtain ⟨rfl, hevents, hmore⟩ := h
      rw [observe_eq_map (sqlLine_step hline).events.2, List.map_eq_nil_iff] at hevents
      rw [hevents]
      exact ⟨s₁, rfl, by rw [uncut, hrest, ← hmore]⟩

/-- The text of a `CREATE TABLE` that shows nothing does not end. -/
theorem inCreate_of_hidden (hstate : s.state = .sql) (hcreate : s.inCreate = true)
    (hskip : s.skippingCreate = false) {ls : List Bytes}
    (h : s.runLines (uncut ls) = .ok (s', [])) : s'.mode ≠ .top := by
  induction ls generalizing s with
  | nil =>
    obtain ⟨rfl, -⟩ := Prod.mk.inj (Except.ok.inj h)
    simp [Scanner.mode, hstate, hcreate]
  | cons line ls ih =>
    obtain ⟨s₁, hline, hrest⟩ := hidden_of_runLines hstate h
    have hstep := sqlLine_step hline
    generalize stripCr line = l at hstep
    cases hstep with
    | more hskip hcreate hend =>
      exact ih (s := { s with ddl := s.ddl ++ newline :: l }) hstate hcreate hskip hrest
    | _ => simp_all

/-- At the top, a line that is neither silent nor the first one of an excluded
statement shows something, starts a `CREATE TABLE`, or states the version of the
database. -/
theorem topLine_loud (hs : s.excludedSchemas = schemas) (htop : s.AtTop)
    (hstart : startsExcluded schemas line = false) (hloud : silent line = false)
    (h : s.topLine line = .ok (s', [])) :
    (s'.state = .sql ∧ s'.inCreate = true ∧ s'.skippingCreate = false) ∨
      ∃ v, ∀ t : Scanner, t.topLine line = .ok ({ t with fromDatabase := v }, []) := by
  cases hversion : stripPrefixCi line (ascii "-- Dumped by pg_dump version ") with
  | some rest =>
    cases hmajor : leadingMajor rest with
    | none => simp [silent, hversion, hmajor] at hloud
    | some major =>
      by_cases hsupported : major ∈ supportedMajors
      · simp [topLine, hversion, hmajor, hsupported] at h
      · simp [topLine, hversion, hmajor, hsupported] at h
  | none =>
    cases hdatabase : stripPrefixCi line (ascii "-- Dumped from database version ") with
    | some rest => exact .inr ⟨leadingMajor rest, fun t => by simp [topLine, hversion, hdatabase]⟩
    | none =>
      cases hdash : (ascii "--").isPrefixOf line with
      | true =>
        obtain ⟨hkw, hheader⟩ := dash_line_of_isPrefixOf hdash
        have hkw : stripCreateTable line = none := by simpa using hkw
        simp [silent, hversion, hdatabase, hkw, hheader] at hloud
      | false =>
        cases hkw : stripCreateTable line with
        | some afterKw =>
          have hexcluded : s.schemaIsExcluded afterKw = false := by
            rw [schemaIsExcluded_eq hs]
            simpa [startsExcluded, hkw] using hstart
          simp only [topLine, hversion, hdatabase, hdash, hkw, createLine, hexcluded,
            Bool.false_eq_true, if_false] at h
          split at h
          · obtain ⟨definition, -, -, hevents⟩ := recordTable_ok h
            cases hevents
          · obtain ⟨rfl, -⟩ := Prod.mk.inj (Except.ok.inj h)
            exact .inl ⟨htop.state, rfl, htop.skipping⟩
        | none =>
          have hheader : isCopyHeader line = true := by
            simpa [silent, hversion, hdatabase, hkw] using hloud
          obtain ⟨hcopy, hend⟩ : (stripPrefixCi line (ascii "COPY ")).isSome = true ∧
              endsWithCi (trimAsciiEnd line) (ascii "FROM stdin;") = true := by
            simpa [isCopyHeader] using hheader
          simp only [topLine, hversion, hdatabase, hdash, hkw, hcopy, copyLine, hend,
            Bool.false_eq_true, if_false, if_true] at h
          split at h <;> simp at h

/-- Lines that leave no trace, whatever version of the database was stated
before them, are passed. -/
theorem passed_of_runs {ls : List Bytes} {d : Option ℕ} {t' : Scanner}
    (hs : s.excludedSchemas = schemas) (hstate : s.state = .sql) (hcreate : s.inCreate = false)
    (hne : d ≠ s.fromDatabase) (hrun : s.runLines (uncut ls) = .ok (s', []))
    (hrun' : { s with fromDatabase := d }.runLines (uncut ls) = .ok (t', []))
    (hmode : s'.mode = .top) (hkeep : s'.fromDatabase = s.fromDatabase)
    (hkeep' : t'.fromDatabase = d) : passed schemas s.skippingCreate ls = true := by
  induction ls generalizing s with
  | nil =>
    obtain ⟨rfl, -⟩ := Prod.mk.inj (Except.ok.inj hrun)
    simp [passed, (mode_top hmode).2.2]
  | cons line ls ih =>
    obtain ⟨s₁, hline, hrest⟩ := hidden_of_runLines hstate hrun
    cases hskip : s.skippingCreate with
    | true =>
      have hskip' : { s with fromDatabase := d }.skippingCreate = true := hskip
      rw [runLines_hidden hstate (sqlLine_skipping hskip _)] at hrun
      rw [runLines_hidden (s := { s with fromDatabase := d }) hstate
        (sqlLine_skipping hskip' _)] at hrun'
      rw [passed]
      exact ih (s := { s with skippingCreate := !endsCreate (stripCr line) }) hs hstate hcreate
        hne hrun hrun' hkeep
    | false =>
      have htop : s.AtTop := ⟨hstate, hcreate, hskip⟩
      have htop' : { s with fromDatabase := d }.AtTop := ⟨hstate, hcreate, hskip⟩
      rw [passed]
      split
      next hstart =>
        rw [runLines_hidden hstate
          ((htop.sqlLine _).trans (topLine_startsExcluded hs hskip hstart))] at hrun
        rw [runLines_hidden (s := { s with fromDatabase := d }) hstate ((htop'.sqlLine _).trans
          (topLine_startsExcluded (s := { s with fromDatabase := d }) hs hskip hstart))] at hrun'
        exact ih (s := { s with skippingCreate := !endsCreate (stripCr line) }) hs hstate hcreate
          hne hrun hrun' hkeep
      next hstart =>
        rw [Bool.and_eq_true]
        cases hsilent : silent (stripCr line) with
        | true =>
          rw [runLines_hidden hstate ((htop.sqlLine _).trans (topLine_silent _ hsilent))] at hrun
          rw [runLines_hidden (s := { s with fromDatabase := d }) hstate
            ((htop'.sqlLine _).trans (topLine_silent _ hsilent))] at hrun'
          have hpassed := ih hs hstate hcreate hne hrun hrun' hkeep
          rw [hskip] at hpassed
          exact ⟨rfl, hpassed⟩
        | false =>
          rw [htop.sqlLine] at hline
          rcases topLine_loud hs htop (by simpa using hstart) hsilent hline with
            ⟨hstate₁, hcreate₁, hskip₁⟩ | ⟨v, hversion⟩
          · exact absurd hmode (inCreate_of_hidden hstate₁ hcreate₁ hskip₁ hrest)
          · -- Both runs go on alike, so that one of the versions is lost.
            rw [runLines_hidden hstate ((htop.sqlLine _).trans (hversion _))] at hrun
            rw [runLines_hidden (s := { s with fromDatabase := d }) hstate
              ((htop'.sqlLine _).trans (hversion _)), hrun] at hrun'
            obtain ⟨rfl, -⟩ := Prod.mk.inj (Except.ok.inj hrun')
            exact absurd (hkeep'.symm.trans hkeep) hne

/-! ### Whole dumps -/

/-- What a load shows: its events, with rows up to the carriage returns at
their end, and whether the dump ended well; or the error that stopped it. -/
def shown (result : Except Error (Scanner × List Event)) :
    Except Error (List Obs × Except Error Unit) :=
  (trimmed (observed result)).map fun r => (r.2, r.1.finish)

/-- A scanner that excludes schemas shows of a dump what a scanner that
excludes nothing shows of the dump without the excluded statements. -/
def Excludes (schemas : List String) (pieces : List Piece) : Prop :=
  ∀ c₁ c₂ : List Bytes, c₁.flatten = piecesText pieces → c₂.flatten = piecesText (kept pieces) →
    shown ((new.setExcludedSchemas schemas).feedAll c₁) = shown (new.feedAll c₂)

/-- A whole `CREATE TABLE` statement of a table in an excluded schema. -/
def CreatesExcluded (schemas : List String) (text : Bytes) : Prop :=
  (∃ afterKw schema table rest, stripCreateTable text = some afterKw ∧
    takeQualified afterKw = some (⟨some schema, table⟩, rest) ∧ schema ∈ schemas) ∧
    (trimAsciiEnd text).getLast? = some 59

theorem shown_feedAll (schemas : List String) {chunks : List Bytes} {pieces : List Piece}
    (h : chunks.flatten = piecesText pieces) :
    shown ((new.setExcludedSchemas schemas).feedAll chunks) =
      (trimmed ((new.setExcludedSchemas schemas).runLines (uncut (piecesLines pieces)))).map
        fun r => (r.2, r.1.finish) := by
  rw [shown, feedAll_trimmed, h, lines_piecesText]
  cases (new.setExcludedSchemas schemas).runLines (uncut (piecesLines pieces)) <;> rfl

def databaseComment (digit : UInt8) : Bytes :=
  ascii "-- Dumped from database version 1" ++ [digit]

def dumpComment : Bytes := ascii "-- Dumped by pg_dump version 17"

/-- A line that shows the version of the database stands behind lines that kept
it. -/
theorem keep_of_dumpComment {r : Scanner × List Obs} {v : Option ℕ}
    (hrun : s.runLines (uncut [dumpComment]) = .ok r)
    (hobs : r.2.map trim = [.event (.dumpVersion 17 v)]) :
    s.mode = .top ∧ s.fromDatabase = v := by
  rw [uncut, List.map_cons, List.map_nil, runLines] at hrun
  have hcr : stripCr dumpComment = dumpComment := by decide +kernel
  have hends : endsCreate dumpComment = false := by decide +kernel
  cases hstate : s.state with
  | copy =>
    have hterm : isEndOfData dumpComment = false := by decide +kernel
    simp only [lineStep, hstate, hcr, hterm, Bool.false_eq_true, if_false, runLines,
      Except.ok.injEq] at hrun
    rw [← hrun] at hobs
    simp [trim] at hobs
  | sql =>
    cases hskip : s.skippingCreate with
    | true =>
      simp only [lineStep, hstate, hcr, sqlLine_skipping hskip, observed_ok, observe_nil, runLines,
        Except.ok.injEq] at hrun
      rw [← hrun] at hobs
      simp at hobs
    | false =>
      cases hcreate : s.inCreate with
      | true =>
        simp only [lineStep, hstate, hcr, Scanner.sqlLine, hskip, hcreate, hends, if_true,
          Bool.false_eq_true, if_false, observed_ok, observe_nil, runLines,
          Except.ok.injEq] at hrun
        rw [← hrun] at hobs
        simp at hobs
      | false =>
        have htop : s.AtTop := ⟨hstate, hcreate, hskip⟩
        have hversion : stripPrefixCi dumpComment (ascii "-- Dumped by pg_dump version ") =
            some (ascii "17") := by decide +kernel
        have hmajor : leadingMajor (ascii "17") = some 17 := by decide +kernel
        simp only [lineStep, hstate, hcr, htop.sqlLine, topLine, hversion, hmajor,
          show (17 : ℕ) ∈ supportedMajors by decide, if_true, observed_ok, runLines,
          Except.ok.injEq] at hrun
        rw [← hrun] at hobs
        refine ⟨htop.mode, ?_⟩
        simpa [observe, Event.observe, trim] using hobs

theorem run_of_excludes {pieces : List Piece} (h : Excludes schemas pieces) {t : Scanner}
    {obs : List Obs} (hkept : new.runLines (uncut (piecesLines (kept pieces))) = .ok (t, obs)) :
    ∃ r, (new.setExcludedSchemas schemas).runLines (uncut (piecesLines pieces)) = .ok r ∧
      r.2.map trim = obs.map trim := by
  have hshown := h [piecesText pieces] [piecesText (kept pieces)] List.flatten_singleton
    List.flatten_singleton
  have hnew : new.setExcludedSchemas [] = new := rfl
  have hright := shown_feedAll []
    (show [piecesText (kept pieces)].flatten = piecesText (kept pieces) from List.flatten_singleton)
  rw [hnew, hkept] at hright
  rw [shown_feedAll schemas List.flatten_singleton, hright] at hshown
  cases hrun : (new.setExcludedSchemas schemas).runLines (uncut (piecesLines pieces)) with
  | error e => simp [hrun, Except.map] at hshown
  | ok r =>
    simp only [hrun, trimmed_ok, Except.map, Except.ok.injEq, Prod.mk.injEq] at hshown
    exact ⟨r, rfl, hshown.1⟩

/-- Behind a comment with the version of the database, a statement whose
exclusion does not show leaves no trace. -/
theorem hidden_of_excludes (schemas : List String) (before text : Bytes) (v : ℕ) {t u : Scanner}
    (hbefore : new.runLines (uncut (textLines before)) =
      .ok ({ new with fromDatabase := some v }, []))
    (hnone : noneExcluded schemas .top (textLines before) = true)
    (hsilent : new.runLines (uncut (piecesLines [.other before, .other []])) = .ok (t, []))
    (hversion : new.runLines (uncut (piecesLines [.other before, .other dumpComment])) =
      .ok (u, [.event (.dumpVersion 17 (some v))]))
    (hexcludes : ∀ after ∈ [[], dumpComment],
      Excludes schemas [.other before, .excluded text, .other after]) :
    ∃ s', { new.setExcludedSchemas schemas with fromDatabase := some v }.runLines
        (uncut (textLines text)) = .ok (s', []) ∧ s'.mode = .top ∧ s'.fromDatabase = some v := by
  have hfirst : (new.setExcludedSchemas schemas).runLines (uncut (textLines before)) =
      .ok ({ new.setExcludedSchemas schemas with fromDatabase := some v }, []) := by
    rw [runLines_excluding (s := new) (consistent_new []) rfl hnone, hbefore]
    rfl
  have hlines : ∀ after, piecesLines [.other before, .excluded text, .other after] =
      textLines before ++ (textLines text ++ textLines after) := by
    intro after
    simp [piecesLines, Piece.text]
  -- Behind the statement a silent line and the version of the dump tell what it left.
  obtain ⟨r, hrun, hobs⟩ := run_of_excludes (hexcludes [] (by simp)) hsilent
  obtain ⟨r', hrun', hobs'⟩ := run_of_excludes (hexcludes dumpComment (by simp)) hversion
  rw [hlines, uncut_append, uncut_append, runLines_append, hfirst] at hrun hrun'
  cases hrest : { new.setExcludedSchemas schemas with fromDatabase := some v }.runLines
      (uncut (textLines text) ++ uncut (textLines [])) with
  | error e => simp [hrest] at hrun
  | ok q =>
    simp only [hrest, List.nil_append, Except.ok.injEq] at hrun
    obtain ⟨s', obs₁, obs₂, htext, -, hsplit⟩ := runLines_append_ok hrest
    rw [← hrun] at hobs
    have hnil : obs₁ = [] := by
      have hq : q.2 = [] := by simpa using hobs
      rw [hq] at hsplit
      exact (List.append_eq_nil_iff.mp hsplit.symm).1
    subst hnil
    refine ⟨s', htext, ?_⟩
    simp only [runLines_append, htext, textLines_of_not_mem
      (show newline ∉ dumpComment by decide +kernel)] at hrun'
    cases hlast : s'.runLines (uncut [dumpComment]) with
    | error e => simp [hlast] at hrun'
    | ok q' =>
      simp only [hlast, List.nil_append, Except.ok.injEq] at hrun'
      rw [← hrun'] at hobs'
      exact keep_of_dumpComment hlast (by simpa [trim] using hobs')

theorem noneExcluded_textLines (hline : newline ∉ line)
    (hkw : stripCreateTable (stripCr line) = none) :
    noneExcluded schemas .top (textLines line) = true := by
  simp [textLines_of_not_mem hline, noneExcluded, startsExcluded, hkw]

/-- Excluding schemas is deleting the statements of their tables, in every dump
that keeps these apart from the rest of it; and for a statement of an excluded
schema this is so in every dump around it exactly when the statement is
passed. -/
theorem exclusion_iff (schemas : List String) :
    (∀ pieces, Apart schemas .top pieces → Excludes schemas pieces) ∧
      ∀ text, CreatesExcluded schemas text →
        ((∀ before after, noneExcluded schemas .top (textLines before) = true →
          Mode.top.after (textLines before) = .top →
          noneExcluded schemas .top (textLines after) = true →
            Excludes schemas [.other before, .excluded text, .other after]) ↔
          passed schemas false (textLines text) = true) := by
  have hsufficient : ∀ pieces, Apart schemas .top pieces → Excludes schemas pieces := by
    intro pieces hapart c₁ c₂ h₁ h₂
    have hrun := runLines_pieces (consistent_new []) rfl hapart
    have hright := shown_feedAll [] h₂
    have hnew : new.setExcludedSchemas [] = new := rfl
    rw [hnew] at hright hrun
    rw [shown_feedAll schemas h₁, hright, hrun]
    cases new.runLines (uncut (piecesLines (kept pieces))) <;> rfl
  have hafters : ∀ after ∈ [[], dumpComment],
      noneExcluded schemas .top (textLines after) = true := by
    intro after hafter
    simp only [List.mem_cons, List.not_mem_nil, or_false] at hafter
    rcases hafter with rfl | rfl <;>
      exact noneExcluded_textLines (by decide +kernel) (by decide +kernel)
  refine ⟨hsufficient, fun text _ => ⟨fun hexcludes => ?_, fun hpassed => ?_⟩⟩
  · obtain ⟨s', hrun, hmode, hkeep⟩ := hidden_of_excludes schemas (databaseComment 54) text 16
      (by decide +kernel)
      (noneExcluded_textLines (by decide +kernel) (by decide +kernel))
      (t := { new with fromDatabase := some 16 }) (by decide +kernel)
      (u := { new with fromDatabase := some 16, dumpedBy := some 17 }) (by decide +kernel)
      fun after hafter => hexcludes _ after
        (noneExcluded_textLines (by decide +kernel) (by decide +kernel)) (by decide +kernel)
        (hafters after hafter)
    obtain ⟨t', hrun', -, hkeep'⟩ := hidden_of_excludes schemas (databaseComment 55) text 17
      (by decide +kernel)
      (noneExcluded_textLines (by decide +kernel) (by decide +kernel))
      (t := { new with fromDatabase := some 17 }) (by decide +kernel)
      (u := { new with fromDatabase := some 17, dumpedBy := some 17 }) (by decide +kernel)
      fun after hafter => hexcludes _ after
        (noneExcluded_textLines (by decide +kernel) (by decide +kernel)) (by decide +kernel)
        (hafters after hafter)
    exact passed_of_runs (s := { new.setExcludedSchemas schemas with fromDatabase := some 16 })
      (d := some 17) rfl rfl rfl (by simp) hrun hrun' hmode hkeep hkeep'
  · intro before after hbefore htop hafter
    apply hsufficient
    refine ⟨hbefore, htop, hpassed, hafter, trivial⟩

/-- A dump with one statement of an excluded schema in it. -/
def excludedDump (statement : Bytes) : List Piece :=
  [.other (ascii "-- Dumped by pg_dump version 17.2"), .excluded statement,
    .other (ascii "CREATE TABLE s.u (a int);\nCOPY s.u (a) FROM stdin;\n1\n\\.")]

def excludedTyped : Bytes := ascii "CREATE TABLE x.t OF x.ty;"

def excludedColumns : Bytes := ascii "CREATE TABLE x.t (a int);"

theorem excludedTyped_creates : CreatesExcluded ["x"] excludedTyped :=
  ⟨⟨ascii "x.t OF x.ty;", "x", "t", ascii " OF x.ty;", by decide +kernel, by decide +kernel,
    by simp⟩, by decide +kernel⟩

theorem excludedColumns_creates : CreatesExcluded ["x"] excludedColumns :=
  ⟨⟨ascii "x.t (a int);", "x", "t", ascii " (a int);", by decide +kernel, by decide +kernel,
    by simp⟩, by decide +kernel⟩

/-- A typed table hides the `CREATE TABLE` behind it. -/
theorem exclusion_counterexample :
    ¬ ∀ (schemas : List String) (pieces : List Piece),
      (∀ text, .excluded text ∈ pieces → CreatesExcluded schemas text) →
      (∀ text, .other text ∈ pieces → noneExcluded schemas .top (textLines text) = true) →
        Excludes schemas pieces := by
  intro hclaim
  have hexcludes := hclaim ["x"] (excludedDump excludedTyped)
    (by
      intro text htext
      simp only [excludedDump, List.mem_cons, Piece.excluded.injEq, reduceCtorEq, false_or,
        List.not_mem_nil, or_false] at htext
      rw [htext]
      exact excludedTyped_creates)
    (by
      intro text htext
      simp only [excludedDump, List.mem_cons, Piece.other.injEq, reduceCtorEq, false_or,
        List.not_mem_nil, or_false] at htext
      rcases htext with rfl | rfl <;> decide +kernel)
  have hshown := hexcludes [piecesText (excludedDump excludedTyped)]
    [piecesText (kept (excludedDump excludedTyped))] List.flatten_singleton List.flatten_singleton
  exact absurd hshown (by decide +kernel)

/-- A table with a column list is passed over as a whole. -/
theorem exclusion_columns :
    Excludes ["x"] (excludedDump excludedColumns) ∧
      ∀ before after, noneExcluded ["x"] .top (textLines before) = true →
        Mode.top.after (textLines before) = .top →
        noneExcluded ["x"] .top (textLines after) = true →
          Excludes ["x"] [.other before, .excluded excludedColumns, .other after] := by
  have hpassed : passed ["x"] false (textLines excludedColumns) = true := by decide +kernel
  obtain ⟨hall, hone⟩ := exclusion_iff ["x"]
  refine ⟨hall _ ⟨by decide +kernel, by decide +kernel, hpassed, by decide +kernel, trivial⟩, ?_⟩
  exact (hone excludedColumns excludedColumns_creates).mpr hpassed

end Scanner

end PgDelta.Scan
