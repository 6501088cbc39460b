import PgDelta.Scan.Completeness

/-!
What `finish` knows of the end of a dump.

It sees a `COPY` block that is open, and nothing else of where the stream
stopped. A cut inside a block is noticed under the name of the table whose
header the scanner took for the block's; a cut inside a `CREATE TABLE`, or
inside a line, is not noticed at all.
-/

namespace PgDelta.Scan

open PgDelta.Lib PgDelta.Copy Scanner

namespace Scanner

/-! ### Runs over the lines of a stream -/

def trimmed (result : Except Error (Scanner × List Obs)) : Except Error (Scanner × List Obs) :=
  result.map fun r => (r.1, r.2.map trim)

@[simp] theorem trimmed_ok (r : Scanner × List Obs) :
    trimmed (.ok r) = .ok (r.1, r.2.map trim) := rfl

@[simp] theorem trimmed_error (e : Error) : trimmed (.error e) = .error e := rfl

theorem lineStep_trimmed (s : Scanner) (c d : Bool) (line : Bytes) :
    trimmed (s.lineStep c line) = trimmed (s.lineStep d line) := by
  unfold lineStep
  cases hstate : s.state with
  | sql => rfl
  | copy =>
    by_cases hend : isEndOfData (stripCr line) = true
    · simp [hend]
    · simp [hend, trim, trimCr_readRow]

/-- Where lines are cut changes a run in the carriage returns of its rows
only. -/
theorem runLines_trimmed (s : Scanner) {ls ms : List (Bool × Bytes)}
    (h : ls.map Prod.snd = ms.map Prod.snd) :
    trimmed (s.runLines ls) = trimmed (s.runLines ms) := by
  induction ls generalizing s ms with
  | nil =>
    obtain rfl : ms = [] := by simpa using h
    rfl
  | cons l ls ih =>
    obtain ⟨c, line⟩ := l
    cases ms with
    | nil => simp at h
    | cons m ms =>
      obtain ⟨d, line'⟩ := m
      obtain ⟨rfl, htail⟩ : line = line' ∧ ls.map Prod.snd = ms.map Prod.snd := by simpa using h
      have hstep := s.lineStep_trimmed c d line
      rw [runLines, runLines]
      cases hc : s.lineStep c line with
      | error e =>
        cases hd : s.lineStep d line with
        | error e' => simpa [hc, hd] using hstep
        | ok r => simp [hc, hd] at hstep
      | ok r =>
        cases hd : s.lineStep d line with
        | error e' => simp [hc, hd] at hstep
        | ok r' =>
          obtain ⟨s₁, obs₁⟩ := r
          obtain ⟨s₂, obs₂⟩ := r'
          obtain ⟨rfl, hobs⟩ : s₁ = s₂ ∧ obs₁.map trim = obs₂.map trim := by
            simpa [hc, hd] using hstep
          have hrest := ih s₁ htail
          cases hls : s₁.runLines ls with
          | error e =>
            cases hms : s₁.runLines ms with
            | error e' => simpa [hls, hms] using hrest
            | ok r => simp [hls, hms] at hrest
          | ok r =>
            cases hms : s₁.runLines ms with
            | error e' => simp [hls, hms] at hrest
            | ok r' =>
              obtain ⟨hs, hobs'⟩ : r.1 = r'.1 ∧ r.2.map trim = r'.2.map trim := by
                simpa [hls, hms] using hrest
              simp [hls, hms, hs, hobs, hobs']

/-- Feeding chunks, whatever their boundaries, runs the line machine over the
complete lines of the stream and keeps what follows the last newline. -/
theorem feedAll_trimmed (schemas : List String) (chunks : List Bytes) :
    trimmed (observed ((new.setExcludedSchemas schemas).feedAll chunks)) =
      trimmed (resume (lines newline chunks.flatten).2 []
        ((new.setExcludedSchemas schemas).runLines (uncut (lines newline chunks.flatten).1))) := by
  have hobs := (new.setExcludedSchemas schemas).feedAll_observed
    (by simp [new, setExcludedSchemas]) chunks
  have hnew : ({ new.setExcludedSchemas schemas with pending := [] } : Scanner) =
      new.setExcludedSchemas schemas := rfl
  have hpending : (new.setExcludedSchemas schemas).pending = [] := rfl
  have hlines : (cutLines newline [] chunks).map Prod.snd =
      (uncut (lines newline chunks.flatten).1).map Prod.snd := by
    rw [map_snd_cutLines _ _ _ (by simp), map_snd_uncut, List.nil_append]
  have hflags := (new.setExcludedSchemas schemas).runLines_trimmed hlines
  rw [hobs, hnew, hpending, List.nil_append]
  cases hcut : (new.setExcludedSchemas schemas).runLines (cutLines newline [] chunks) with
  | error e =>
    cases huncut : (new.setExcludedSchemas schemas).runLines
        (uncut (lines newline chunks.flatten).1) with
    | error e' => simpa [hcut, huncut] using hflags
    | ok r => simp [hcut, huncut] at hflags
  | ok r =>
    cases huncut : (new.setExcludedSchemas schemas).runLines
        (uncut (lines newline chunks.flatten).1) with
    | error e' => simp [hcut, huncut] at hflags
    | ok r' =>
      obtain ⟨hs, hobs'⟩ : r.1 = r'.1 ∧ r.2.map trim = r'.2.map trim := by
        simpa [hcut, huncut] using hflags
      simp [hs, hobs']

theorem runLines_of_feedAll {schemas : List String} {chunks : List Bytes} {s : Scanner}
    {events : List Event} (h : (new.setExcludedSchemas schemas).feedAll chunks = .ok (s, events)) :
    ∃ t obs, (new.setExcludedSchemas schemas).runLines (uncut (lines newline chunks.flatten).1) =
        .ok (t, obs) ∧
      s = { t with pending := (lines newline chunks.flatten).2 } := by
  have htrimmed := feedAll_trimmed schemas chunks
  cases hrun : (new.setExcludedSchemas schemas).runLines
      (uncut (lines newline chunks.flatten).1) with
  | error e => simp [h, hrun] at htrimmed
  | ok r =>
    refine ⟨r.1, r.2, rfl, ?_⟩
    simp only [h, hrun, observed_ok, trimmed_ok, resume_ok, Except.ok.injEq,
      Prod.mk.injEq] at htrimmed
    exact htrimmed.1

theorem feedAll_of_runLines {schemas : List String} {chunks : List Bytes} {t : Scanner}
    {obs : List Obs}
    (h : (new.setExcludedSchemas schemas).runLines (uncut (lines newline chunks.flatten).1) =
      .ok (t, obs)) :
    ∃ events, (new.setExcludedSchemas schemas).feedAll chunks =
      .ok ({ t with pending := (lines newline chunks.flatten).2 }, events) := by
  have htrimmed := feedAll_trimmed schemas chunks
  cases hfeed : (new.setExcludedSchemas schemas).feedAll chunks with
  | error e => simp [hfeed, h] at htrimmed
  | ok r =>
    simp only [hfeed, h, observed, Except.map, trimmed_ok, resume_ok, Except.ok.injEq,
      Prod.mk.injEq] at htrimmed
    exact ⟨r.2, by rw [← htrimmed.1]⟩

/-! ### The end at a statement boundary -/

/-- Bytes that may be the beginning of a line that starts a `CREATE TABLE` or a
`COPY` block. -/
def BeginsStatement (rest : Bytes) : Prop :=
  rest ≠ [] ∧ ∃ tail, newline ∉ tail ∧
    ((stripCreateTable (rest ++ tail)).isSome = true ∨ isCopyHeader (rest ++ tail) = true)

theorem mode_eq_top_of_finish {s : Scanner} (h : s.finish = .ok ()) :
    s.mode = .top ↔ s.inCreate = false ∧ s.skippingCreate = false := by
  have hstate : s.state = .sql := by
    cases hstate : s.state with
    | sql => rfl
    | copy => simp [finish, hstate] at h
  simp [mode, hstate]

/-- A dump that `finish` accepts ended at a statement boundary exactly when its
lines close every `CREATE TABLE` that they start, and what follows the last
newline starts no statement. -/
theorem finish_boundary_iff (schemas : List String) (chunks : List Bytes) (s : Scanner)
    (events : List Event)
    (hfeed : (new.setExcludedSchemas schemas).feedAll chunks = .ok (s, events))
    (hfinish : s.finish = .ok ()) :
    (s.inCreate = false ∧ s.skippingCreate = false ∧ ¬ BeginsStatement s.pending) ↔
      Mode.top.after (lines newline chunks.flatten).1 = .top ∧
        ¬ BeginsStatement (lines newline chunks.flatten).2 := by
  obtain ⟨t, obs, hrun, rfl⟩ := runLines_of_feedAll hfeed
  obtain ⟨-, hmode⟩ := runLines_mode (consistent_new schemas) hrun
  rw [map_snd_uncut] at hmode
  rw [← and_assoc, ← mode_eq_top_of_finish hfinish]
  have htop : ({ t with pending := (lines newline chunks.flatten).2 } : Scanner).mode =
      Mode.top.after (lines newline chunks.flatten).1 := hmode
  rw [htop]

/-- A stream that stops inside a `CREATE TABLE`. -/
def cutCreate : Bytes := ascii "-- Dumped by pg_dump version 17.2\nCREATE TABLE t (\n    a int"

/-- A dump of one table with one row. -/
def wholeTable : List Bytes :=
  [ascii "-- Dumped by pg_dump version 17.2", ascii "CREATE TABLE s.t (", ascii "    a int",
    ascii ");", ascii "COPY s.t (a) FROM stdin;", ascii "1", endOfData]

theorem finish_boundary_counterexample :
    ¬ ∀ (schemas : List String) (chunks : List Bytes) (s : Scanner) (events : List Event),
      (new.setExcludedSchemas schemas).feedAll chunks = .ok (s, events) → s.finish = .ok () →
        s.inCreate = false ∧ s.skippingCreate = false ∧ ¬ BeginsStatement s.pending := by
  intro hclaim
  have hfeed : (new.setExcludedSchemas []).feedAll [cutCreate] =
      .ok ({ dumpedBy := some 17, inCreate := true, ddl := ascii "CREATE TABLE t (",
             pending := ascii "    a int" }, [.dumpVersion 17 none]) := by decide +kernel
  have hboundary := (hclaim _ _ _ _ hfeed (by decide)).1
  cases hboundary

/-- A dump with a table and its block ends at a statement boundary. -/
theorem finish_boundary_table :
    (({ dumpedBy := some 17, tables := [("s.t", ⟨⟨some "s", "t"⟩, [⟨"a", "int"⟩]⟩)] } :
        Scanner).inCreate = false ∧
      ({ dumpedBy := some 17, tables := [("s.t", ⟨⟨some "s", "t"⟩, [⟨"a", "int"⟩]⟩)] } :
        Scanner).skippingCreate = false ∧ ¬ BeginsStatement []) ↔
      Mode.top.after (lines newline [unlines newline wholeTable].flatten).1 = .top ∧
        ¬ BeginsStatement (lines newline [unlines newline wholeTable].flatten).2 :=
  finish_boundary_iff [] [unlines newline wholeTable]
    { dumpedBy := some 17, tables := [("s.t", ⟨⟨some "s", "t"⟩, [⟨"a", "int"⟩]⟩)] }
    [.dumpVersion 17 none, .table ⟨⟨some "s", "t"⟩, [⟨"a", "int"⟩]⟩,
      .copyStart ⟨some "s", "t"⟩ ["a"], .copyRows (ascii "1\n"), .copyEnd ⟨some "s", "t"⟩]
    (by decide +kernel) (by decide)

/-! ### The end inside a block -/

/-- The table that the header of a block names. -/
def headerName (line : Bytes) : Option String :=
  match parseCopyHeader (trimAsciiEnd (stripCr line)) with
  | .ok (table, _) => some table.qualified
  | .error _ => none

/-- The lines end inside a block, and the line that the scanner takes for its
header names this table. -/
def OpenedBy (ls : List Bytes) (name : String) : Prop :=
  ∃ before header rows, ls = before ++ header :: rows ∧ Mode.top.after before = .top ∧
    isCopyHeader (stripCr header) = true ∧ headerName header = some name ∧
    ∀ row ∈ rows, isEndOfData (stripCr row) = false

def openName (s : Scanner) : Option String :=
  match s.state with
  | .copy => some ((s.openTable.map TableName.qualified).getD "")
  | .sql => none

theorem finish_eq_unterminated_iff {s : Scanner} {name : String} :
    s.finish = .error (.unterminatedCopy name) ↔ s.openName = some name := by
  unfold finish openName
  cases hstate : s.state with
  | copy => simp
  | sql =>
    cases hversion : s.dumpedBy <;> simp

theorem lineStep_header {s s' : Scanner} {cut : Bool} {header : Bytes} {obs : List Obs}
    (hmode : s.mode = .top) (hheader : isCopyHeader (stripCr header) = true)
    (h : s.lineStep cut header = .ok (s', obs)) :
    s'.state = .copy ∧ s'.openName = headerName header := by
  obtain ⟨hstate, hcreate, hskip⟩ := mode_top hmode
  cases hline : s.sqlLine (stripCr header) with
  | error e => simp [lineStep, hstate, hline] at h
  | ok r =>
    obtain ⟨s₁, events⟩ := r
    obtain ⟨table, columns, hparse, rfl, -⟩ :=
      (sqlLine_step hline).of_isCopyHeader hcreate hskip hheader
    simp only [lineStep, hstate, hline, observed_ok, Except.ok.injEq, Prod.mk.injEq] at h
    obtain ⟨rfl, -⟩ := h
    exact ⟨rfl, by simp [openName, headerName, hparse]⟩

theorem uncut_append (ls ms : List Bytes) : uncut (ls ++ ms) = uncut ls ++ uncut ms := by
  simp [uncut]

theorem OpenedBy.openName {s s' : Scanner} (hs : s.Consistent) (hmode : s.mode = .top)
    {ls : List Bytes} {obs : List Obs} {name : String} (h : OpenedBy ls name)
    (hrun : s.runLines (uncut ls) = .ok (s', obs)) : s'.openName = some name := by
  obtain ⟨before, header, rows, rfl, htop, hheader, hname, hrows⟩ := h
  rw [uncut_append] at hrun
  obtain ⟨s₁, obs₁, obs₂, hbefore, hblock, -⟩ := runLines_append_ok hrun
  obtain ⟨hs₁, hmode₁⟩ := runLines_mode hs hbefore
  rw [map_snd_uncut, hmode, htop] at hmode₁
  rw [uncut, List.map_cons, runLines] at hblock
  cases hstep : s₁.lineStep false header with
  | error e => simp [hstep] at hblock
  | ok r =>
    obtain ⟨hstate, hopen⟩ := lineStep_header hmode₁ hheader hstep
    simp only [hstep, runLines_rows_uncut hstate hrows, Except.ok.injEq,
      Prod.mk.injEq] at hblock
    rw [← hblock.1, hopen, hname]

theorem lineStep_openName {s s' : Scanner} {cut : Bool} {line : Bytes} {obs : List Obs}
    {name : String} (h : s.lineStep cut line = .ok (s', obs)) (hopen : s'.openName = some name) :
    (s.mode = .top ∧ isCopyHeader (stripCr line) = true ∧ headerName line = some name) ∨
      s.openName = some name ∧ isEndOfData (stripCr line) = false := by
  cases hstate : s.state with
  | copy =>
    simp only [lineStep, hstate] at h
    by_cases hend : isEndOfData (stripCr line) = true
    · simp only [hend, if_true, Except.ok.injEq, Prod.mk.injEq] at h
      rw [← h.1] at hopen
      cases htable : s.openTable <;> simp [openName, closeCopy, htable] at hopen
    · simp only [if_neg hend, Except.ok.injEq, Prod.mk.injEq] at h
      rw [← h.1] at hopen
      exact .inr ⟨hopen, by simpa using hend⟩
  | sql =>
    cases hline : s.sqlLine (stripCr line) with
    | error e => simp [lineStep, hstate, hline] at h
    | ok r =>
      obtain ⟨s₁, events⟩ := r
      have hcopy := h
      simp only [lineStep, hstate, hline, observed_ok, Except.ok.injEq, Prod.mk.injEq] at hcopy
      obtain ⟨rfl, -⟩ := hcopy
      cases sqlLine_step hline with
      | header hskip hcreate hheader table columns hparse =>
        have hmode : s.mode = .top := by simp [mode, hstate, hcreate, hskip]
        obtain ⟨-, hname⟩ := lineStep_header hmode hheader h
        exact .inl ⟨hmode, hheader, by rw [← hname, hopen]⟩
      | _ => simp [openName, hstate] at hopen

theorem openedBy_of_openName {s s' : Scanner} (hs : s.Consistent) (hmode : s.mode = .top)
    {ls : List Bytes} {obs : List Obs} {name : String}
    (hrun : s.runLines (uncut ls) = .ok (s', obs)) (hopen : s'.openName = some name) :
    OpenedBy ls name := by
  induction ls using List.reverseRecOn generalizing s' obs with
  | nil =>
    obtain ⟨rfl, -⟩ := Prod.mk.inj (Except.ok.inj hrun)
    simp [Scanner.openName, (mode_top hmode).1] at hopen
  | append_singleton ls line ih =>
    rw [uncut_append] at hrun
    obtain ⟨s₁, obs₁, obs₂, hbefore, hlast, -⟩ := runLines_append_ok hrun
    obtain ⟨hs₁, hmode₁⟩ := runLines_mode hs hbefore
    rw [map_snd_uncut, hmode] at hmode₁
    cases hstep : s₁.lineStep false line with
    | error e => simp [uncut, runLines, hstep] at hlast
    | ok r =>
      obtain ⟨s₂, obs₃⟩ := r
      simp only [uncut, List.map_cons, List.map_nil, runLines, hstep, Except.ok.injEq,
        Prod.mk.injEq] at hlast
      obtain ⟨rfl, -⟩ := hlast
      rcases lineStep_openName hstep hopen with ⟨htop, hheader, hname⟩ | ⟨hopen', hrow⟩
      · exact ⟨ls, line, [], rfl, by rw [← hmode₁, htop], hheader, hname, by simp⟩
      · obtain ⟨before, header, rows, rfl, htop, hheader, hname, hrows⟩ := ih hbefore hopen'
        refine ⟨before, header, rows ++ [line], by simp, htop, hheader, hname, ?_⟩
        intro row hmem
        rcases List.mem_append.mp hmem with hmem | hmem
        · exact hrows row hmem
        · rwa [List.mem_singleton.mp hmem]

/-- In a dump that loads, a block whose transfer stops inside it is noticed
under its name, wherever it stops and however it is cut, exactly when the line
that the scanner takes for its header names its table: its own header, read at
the top, or a line in front of it, or of its header, that looks like one. -/
theorem truncation_detected_iff (schemas : List String) (before : List Bytes)
    (hbefore : ∀ l ∈ before, newline ∉ l) (header : Bytes) (rows : List Bytes)
    (terminator : Bytes) (hblock : (Item.block header rows terminator).Complete) (rest : Bytes)
    (chunks : List Bytes)
    (hchunks : chunks.flatten =
      unlines newline (before ++ blockLines header rows terminator) ++ rest)
    (s : Scanner) (events : List Event)
    (hfeed : (new.setExcludedSchemas schemas).feedAll chunks = .ok (s, events))
    (_hfinish : s.finish = .ok ()) (name : String) (_hname : headerName header = some name) :
    (∀ cut : List Bytes, unlines newline (before ++ textLines header) <+: cut.flatten →
      cut.flatten <+: unlines newline (before ++ (textLines header ++ rows)) ++ terminator →
      ∃ t es, (new.setExcludedSchemas schemas).feedAll cut = .ok (t, es) ∧
        t.finish = .error (.unterminatedCopy name)) ↔
      OpenedBy (before ++ textLines header) name := by
  have hfree := hblock.newline_not_mem
  simp only [Item.lines, blockLines] at hfree
  have hhead : ∀ l ∈ before ++ textLines header, newline ∉ l := by
    intro l hl
    rcases List.mem_append.mp hl with hl | hl
    · exact hbefore l hl
    · exact hfree l (List.mem_append_left _ hl)
  have hrows : ∀ l ∈ rows, newline ∉ l := fun l hl => hfree l (by simp [hl])
  have hrow : ∀ row ∈ rows, isEndOfData (stripCr row) = false := by
    cases hblock with
    | block _ _ _ hheader hspread hlines hrows hterm => exact hrows
  constructor
  · intro hdetected
    obtain ⟨t, es, hcut, hfinish⟩ := hdetected [unlines newline (before ++ textLines header)]
      (by simp) (by simp [List.append_assoc])
    obtain ⟨t, obs, hrun, rfl⟩ := runLines_of_feedAll hcut
    have hlines := lines_unlines_append hhead []
    simp only [List.append_nil, lines_nil] at hlines
    simp only [List.flatten_cons, List.flatten_nil, List.append_nil, hlines] at hrun hfinish
    exact openedBy_of_openName (consistent_new schemas) rfl hrun
      (finish_eq_unterminated_iff.mp hfinish)
  · intro hopened cut hbehind hfront
    have hfront : cut.flatten <+:
        unlines newline ((before ++ textLines header) ++ rows) ++ terminator := by
      simpa using hfront
    obtain ⟨taken, htaken, hlines⟩ := lines_of_prefix hhead hrows
      (hfree terminator (by simp)) hbehind hfront
    -- The lines of the prefix are lines of the dump, so that the run over them succeeds.
    obtain ⟨t, obs, hrun, -⟩ := runLines_of_feedAll hfeed
    obtain ⟨others, rfl⟩ := htaken
    have hall : (lines newline chunks.flatten).1 =
        (before ++ textLines header ++ taken)
          ++ (others ++ [terminator] ++ (lines newline rest).1) := by
      rw [hchunks, lines_unlines_append]
      · simp [blockLines]
      · intro l hl
        rcases List.mem_append.mp hl with hl | hl
        · exact hbefore l hl
        · exact hfree l hl
    rw [hall, uncut_append] at hrun
    obtain ⟨t₁, obs₁, obs₂, hprefix, -, -⟩ := runLines_append_ok hrun
    rw [← hlines] at hprefix
    obtain ⟨es, hcut⟩ := feedAll_of_runLines hprefix
    refine ⟨_, es, hcut, finish_eq_unterminated_iff.mpr ?_⟩
    have hopened' : OpenedBy (before ++ textLines header ++ taken) name := by
      obtain ⟨earlier, first, more, hsplit, htop, hheader, hfirst, hmore⟩ := hopened
      refine ⟨earlier, first, more ++ taken, by rw [hsplit]; simp, htop, hheader, hfirst, ?_⟩
      intro row hmem
      rcases List.mem_append.mp hmem with hmem | hmem
      · exact hmore row hmem
      · exact hrow row (by simp [hmem])
    rw [hlines] at hprefix
    have hname := hopened'.openName (consistent_new schemas) rfl hprefix
    exact hname

def typedLines : List Bytes :=
  [ascii "-- Dumped by pg_dump version 17.2", ascii "SET lock_timeout = 0;",
    ascii "CREATE TABLE s.t OF s.ty;"]

theorem truncation_detected_counterexample :
    ¬ ∀ (schemas : List String) (before : List Bytes), (∀ l ∈ before, newline ∉ l) →
      ∀ (header : Bytes) (rows : List Bytes) (terminator : Bytes),
      (Item.block header rows terminator).Complete → ∀ (rest : Bytes) (chunks : List Bytes),
      chunks.flatten = unlines newline (before ++ blockLines header rows terminator) ++ rest →
      ∀ (s : Scanner) (events : List Event),
      (new.setExcludedSchemas schemas).feedAll chunks = .ok (s, events) → s.finish = .ok () →
      ∀ name, headerName header = some name → ∀ cut : List Bytes,
      unlines newline (before ++ textLines header) <+: cut.flatten →
      cut.flatten <+: unlines newline (before ++ (textLines header ++ rows)) ++ terminator →
      ∃ t es, (new.setExcludedSchemas schemas).feedAll cut = .ok (t, es) ∧
        t.finish = .error (.unterminatedCopy name) := by
  intro hclaim
  have hline : newline ∉ ascii "COPY s.t (a) FROM stdin;" := by decide
  have hcut : (new.setExcludedSchemas []).feedAll
      [unlines newline (typedLines ++ [ascii "COPY s.t (a) FROM stdin;"])] =
        .ok ({ dumpedBy := some 17, inCreate := true,
               ddl := ascii "CREATE TABLE s.t OF s.ty;\nCOPY s.t (a) FROM stdin;" },
          [.dumpVersion 17 none]) := by decide +kernel
  obtain ⟨t, es, hfeed, hfinish⟩ := hclaim [] typedLines (by decide)
    (ascii "COPY s.t (a) FROM stdin;") [ascii "1"] endOfData
    (.block _ _ _ (by decide +kernel) (fun h => absurd h (by decide)) (by decide) (by decide)
      (by decide)) [] [encodeItems typedTable]
    (by decide +kernel)
    { ddl := ascii "CREATE TABLE s.t OF s.ty;\nCOPY s.t (a) FROM stdin;\n1\n\\.", inCreate := true,
      dumpedBy := some 17 }
    [.dumpVersion 17 none] (by decide +kernel) (by decide) "s.t" (by decide +kernel)
    [unlines newline (typedLines ++ [ascii "COPY s.t (a) FROM stdin;"])]
    (by simp [textLines_of_not_mem hline]) (by simp [textLines_of_not_mem hline])
  rw [hcut] at hfeed
  obtain ⟨rfl, -⟩ := Prod.mk.inj (Except.ok.inj hfeed)
  cases hfinish

/-- With a column list in front of it, the block is noticed. -/
theorem truncation_detected_columns :
    (∀ cut : List Bytes,
      unlines newline ([ascii "-- Dumped by pg_dump version 17.2",
        ascii "CREATE TABLE s.t (a int);"] ++ textLines (ascii "COPY s.t (a) FROM stdin;")) <+:
          cut.flatten →
      cut.flatten <+: unlines newline ([ascii "-- Dumped by pg_dump version 17.2",
        ascii "CREATE TABLE s.t (a int);"] ++
          (textLines (ascii "COPY s.t (a) FROM stdin;") ++ [ascii "1"])) ++ endOfData →
      ∃ t es, (new.setExcludedSchemas []).feedAll cut = .ok (t, es) ∧
        t.finish = .error (.unterminatedCopy "s.t")) ↔
      OpenedBy ([ascii "-- Dumped by pg_dump version 17.2", ascii "CREATE TABLE s.t (a int);"] ++
        textLines (ascii "COPY s.t (a) FROM stdin;")) "s.t" :=
  truncation_detected_iff []
    [ascii "-- Dumped by pg_dump version 17.2", ascii "CREATE TABLE s.t (a int);"] (by decide)
    (ascii "COPY s.t (a) FROM stdin;") [ascii "1"] endOfData
    (.block _ _ _ (by decide +kernel) (fun h => absurd h (by decide)) (by decide) (by decide)
      (by decide)) []
    [unlines newline [ascii "-- Dumped by pg_dump version 17.2",
      ascii "CREATE TABLE s.t (a int);", ascii "COPY s.t (a) FROM stdin;", ascii "1", endOfData]]
    (by decide +kernel)
    { dumpedBy := some 17, tables := [("s.t", ⟨⟨some "s", "t"⟩, [⟨"a", "int"⟩]⟩)] }
    [.dumpVersion 17 none, .table ⟨⟨some "s", "t"⟩, [⟨"a", "int"⟩]⟩,
      .copyStart ⟨some "s", "t"⟩ ["a"], .copyRows (ascii "1\n"), .copyEnd ⟨some "s", "t"⟩]
    (by decide +kernel) (by decide) "s.t" (by decide +kernel)

end Scanner

end PgDelta.Scan
