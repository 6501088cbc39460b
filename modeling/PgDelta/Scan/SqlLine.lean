import PgDelta.Scan.Scanner

/-!
What one line of SQL can do to the scanner.

`Scanner.SqlStep` lists the outcomes of `sqlLine` when it succeeds, each with
the condition under which it happens; what holds of every line is read off it.
-/

namespace PgDelta.Scan

open PgDelta.Lib PgDelta.Copy

/-- A line that opens a `COPY` block. -/
def isCopyHeader (line : Bytes) : Bool :=
  (stripPrefixCi line (ascii "COPY ")).isSome &&
    endsWithCi (trimAsciiEnd line) (ascii "FROM stdin;")

namespace Scanner

/-- Everything that `sqlLine` can do when it succeeds. -/
inductive SqlStep (s : Scanner) (line : Bytes) : Scanner → List Event → Prop
  /-- Inside the statement of an excluded table. -/
  | skip (hskip : s.skippingCreate = true) :
      SqlStep s line { s with skippingCreate := !endsCreate line } []
  /-- A further line of a `CREATE TABLE`. -/
  | more (hskip : s.skippingCreate = false) (hcreate : s.inCreate = true)
      (hend : endsCreate line = false) :
      SqlStep s line { s with ddl := s.ddl ++ newline :: line } []
  /-- The last line of a `CREATE TABLE`. -/
  | last (hskip : s.skippingCreate = false) (hcreate : s.inCreate = true)
      (hend : endsCreate line = true) (definition : TableDef)
      (hparse : parseCreateTable (s.ddl ++ newline :: line) = .ok definition) :
      SqlStep s line
        { s with ddl := [], inCreate := false,
                 tables := s.tables.insert definition.name.qualified definition }
        [.table definition]
  /-- The first line of a `CREATE TABLE` in an excluded schema. -/
  | exclude (hskip : s.skippingCreate = false) (hcreate : s.inCreate = false)
      (hkw : (stripCreateTable line).isSome = true) :
      SqlStep s line { s with skippingCreate := !endsCreate line } []
  /-- The first line of a `CREATE TABLE` that goes on. -/
  | first (hskip : s.skippingCreate = false) (hcreate : s.inCreate = false)
      (hkw : (stripCreateTable line).isSome = true) (hend : endsCreate line = false) :
      SqlStep s line { s with ddl := line, inCreate := true } []
  /-- A `CREATE TABLE` on one line. -/
  | single (hskip : s.skippingCreate = false) (hcreate : s.inCreate = false)
      (hkw : (stripCreateTable line).isSome = true) (hend : endsCreate line = true)
      (definition : TableDef) (hparse : parseCreateTable line = .ok definition) :
      SqlStep s line
        { s with ddl := [], tables := s.tables.insert definition.name.qualified definition }
        [.table definition]
  /-- The header of a `COPY` block. -/
  | header (hskip : s.skippingCreate = false) (hcreate : s.inCreate = false)
      (hheader : isCopyHeader line = true) (table : TableName) (columns : List String)
      (hparse : parseCopyHeader (trimAsciiEnd line) = .ok (table, columns)) :
      SqlStep s line { s with openTable := some table, state := .copy }
        [.copyStart table columns]
  /-- Any other line: at most a version is noted. -/
  | other (hskip : s.skippingCreate = false) (hcreate : s.inCreate = false)
      (hkw : (stripCreateTable line).isSome = false) (hheader : isCopyHeader line = false)
      (dumpedBy fromDatabase : Option ℕ) (events : List Event)
      (hevents : ∀ e ∈ events, ∃ v w, e = .dumpVersion v w) (hlength : events.length ≤ 1) :
      SqlStep s line { s with dumpedBy := dumpedBy, fromDatabase := fromDatabase } events

theorem recordTable_ok {s s' : Scanner} {ddl : Bytes} {events : List Event}
    (h : s.recordTable ddl = .ok (s', events)) :
    ∃ definition, parseCreateTable ddl = .ok definition ∧
      s' = { s with tables := s.tables.insert definition.name.qualified definition } ∧
      events = [.table definition] := by
  unfold recordTable at h
  cases hparse : parseCreateTable ddl with
  | error e => simp [hparse] at h
  | ok definition =>
      simp only [hparse, Except.ok.injEq, Prod.mk.injEq] at h
      exact ⟨definition, rfl, h.1.symm, h.2.symm⟩

theorem createLine_step {s s' : Scanner} {line afterKw : Bytes} {events : List Event}
    (hskip : s.skippingCreate = false) (hcreate : s.inCreate = false)
    (hkw : stripCreateTable line = some afterKw)
    (h : s.createLine line afterKw = .ok (s', events)) : SqlStep s line s' events := by
  have hkw' : (stripCreateTable line).isSome = true := by simp [hkw]
  unfold createLine at h
  cases hexcl : s.schemaIsExcluded afterKw with
  | true =>
      have hs : ({ s with skippingCreate := !endsCreate line }, []) = (s', events) := by
        cases hend : endsCreate line with
        | true => simpa [hexcl, hend, ← hskip] using h
        | false => simpa [hexcl, hend] using h
      obtain ⟨rfl, rfl⟩ := Prod.mk.inj hs
      exact .exclude hskip hcreate hkw'
  | false =>
      cases hend : endsCreate line with
      | true =>
          simp only [hexcl, hend, Bool.false_eq_true, if_false, if_true] at h
          obtain ⟨definition, hparse, rfl, rfl⟩ := recordTable_ok h
          exact .single hskip hcreate hkw' hend definition hparse
      | false =>
          simp only [hexcl, hend, Bool.false_eq_true, if_false, Except.ok.injEq,
            Prod.mk.injEq] at h
          obtain ⟨rfl, rfl⟩ := h
          exact .first hskip hcreate hkw' hend

theorem copyLine_step {s s' : Scanner} {line : Bytes} {events : List Event}
    (hskip : s.skippingCreate = false) (hcreate : s.inCreate = false)
    (hkw : (stripCreateTable line).isSome = false)
    (hcopy : (stripPrefixCi line (ascii "COPY ")).isSome = true)
    (h : s.copyLine line = .ok (s', events)) : SqlStep s line s' events := by
  unfold copyLine at h
  cases hend : endsWithCi (trimAsciiEnd line) (ascii "FROM stdin;") with
  | true =>
      cases hparse : parseCopyHeader (trimAsciiEnd line) with
      | error e => simp [hend, hparse] at h
      | ok r =>
          obtain ⟨table, columns⟩ := r
          simp only [hend, hparse, if_true, Except.ok.injEq, Prod.mk.injEq] at h
          obtain ⟨rfl, rfl⟩ := h
          exact .header hskip hcreate (by simp [isCopyHeader, hcopy, hend]) table columns hparse
  | false =>
      simp only [hend, Bool.false_eq_true, if_false, Except.ok.injEq, Prod.mk.injEq] at h
      obtain ⟨rfl, rfl⟩ := h
      exact .other hskip hcreate hkw (by simp [isCopyHeader, hend]) _ _ [] (by simp) (by simp)

/-- A line whose first letter is a dash neither creates a table nor opens a
block. -/
theorem dash_line {line : Bytes} {w : Bytes} (h : (stripPrefixCi line (45 :: w)).isSome = true) :
    (stripCreateTable line).isSome = false ∧ isCopyHeader line = false := by
  have hcreate : stripPrefixCi line (ascii "CREATE TABLE ") = none :=
    stripPrefixCi_exclusive h 0 (by simp) (by decide) (by rw [List.getElem?_cons_zero]; decide)
  have hunlogged : stripPrefixCi line (ascii "CREATE UNLOGGED TABLE ") = none :=
    stripPrefixCi_exclusive h 0 (by simp) (by decide) (by rw [List.getElem?_cons_zero]; decide)
  have hcopy : stripPrefixCi line (ascii "COPY ") = none :=
    stripPrefixCi_exclusive h 0 (by simp) (by decide) (by rw [List.getElem?_cons_zero]; decide)
  simp [stripCreateTable, isCopyHeader, hcreate, hunlogged, hcopy]

theorem dash_line_of_isPrefixOf {line : Bytes} (h : (ascii "--").isPrefixOf line = true) :
    (stripCreateTable line).isSome = false ∧ isCopyHeader line = false := by
  rw [List.isPrefixOf_iff_prefix] at h
  obtain ⟨t, rfl⟩ := h
  apply dash_line (w := [45])
  simp [stripPrefixCi, eqIgnoreAsciiCase, show ascii "--" = [45, 45] by decide]

theorem topLine_step {s s' : Scanner} {line : Bytes} {events : List Event}
    (hskip : s.skippingCreate = false) (hcreate : s.inCreate = false)
    (h : s.topLine line = .ok (s', events)) : SqlStep s line s' events := by
  unfold topLine at h
  cases hversion : stripPrefixCi line (ascii "-- Dumped by pg_dump version ") with
  | some rest =>
      obtain ⟨hkw, hheader⟩ := dash_line (w := ascii "- Dumped by pg_dump version ")
        (by rw [show (45 :: ascii "- Dumped by pg_dump version ") =
          ascii "-- Dumped by pg_dump version " from rfl, hversion]; rfl)
      cases hmajor : leadingMajor rest with
      | none =>
          simp only [hversion, hmajor, Except.ok.injEq, Prod.mk.injEq] at h
          obtain ⟨rfl, rfl⟩ := h
          exact .other hskip hcreate hkw hheader _ _ [] (by simp) (by simp)
      | some major =>
          by_cases hsupported : major ∈ supportedMajors
          · simp only [hversion, hmajor, hsupported, if_true, Except.ok.injEq,
              Prod.mk.injEq] at h
            obtain ⟨rfl, rfl⟩ := h
            exact .other hskip hcreate hkw hheader _ _ _ (by simp) (by simp)
          · simp [hversion, hmajor, hsupported] at h
  | none =>
      cases hdatabase : stripPrefixCi line (ascii "-- Dumped from database version ") with
      | some rest =>
          obtain ⟨hkw, hheader⟩ := dash_line (w := ascii "- Dumped from database version ")
            (by rw [show (45 :: ascii "- Dumped from database version ") =
              ascii "-- Dumped from database version " from rfl, hdatabase]; rfl)
          simp only [hversion, hdatabase, Except.ok.injEq, Prod.mk.injEq] at h
          obtain ⟨rfl, rfl⟩ := h
          exact .other hskip hcreate hkw hheader _ _ [] (by simp) (by simp)
      | none =>
          simp only [hversion, hdatabase] at h
          cases hdash : (ascii "--").isPrefixOf line with
          | true =>
              obtain ⟨hkw, hheader⟩ := dash_line_of_isPrefixOf hdash
              simp only [hdash, if_true, Except.ok.injEq, Prod.mk.injEq] at h
              obtain ⟨rfl, rfl⟩ := h
              exact .other hskip hcreate hkw hheader _ _ [] (by simp) (by simp)
          | false =>
              simp only [hdash, Bool.false_eq_true, if_false] at h
              cases hkw : stripCreateTable line with
              | some afterKw =>
                  simp only [hkw] at h
                  exact createLine_step hskip hcreate hkw h
              | none =>
                  simp only [hkw] at h
                  have hkw' : (stripCreateTable line).isSome = false := by simp [hkw]
                  cases hcopy : (stripPrefixCi line (ascii "COPY ")).isSome with
                  | true =>
                      simp only [hcopy, if_true] at h
                      exact copyLine_step hskip hcreate hkw' hcopy h
                  | false =>
                      simp only [hcopy, Bool.false_eq_true, if_false, Except.ok.injEq,
                        Prod.mk.injEq] at h
                      obtain ⟨rfl, rfl⟩ := h
                      exact .other hskip hcreate hkw' (by simp [isCopyHeader, hcopy]) _ _ []
                        (by simp) (by simp)

theorem sqlLine_step {s s' : Scanner} {line : Bytes} {events : List Event}
    (h : s.sqlLine line = .ok (s', events)) : SqlStep s line s' events := by
  unfold sqlLine at h
  by_cases hskip : s.skippingCreate = true
  · have hs : s' = { s with skippingCreate := !endsCreate line } ∧ events = [] := by
      obtain ⟨⟩ := s
      subst hskip
      cases hend : endsCreate line <;> simp_all
    obtain ⟨rfl, rfl⟩ := hs
    exact .skip hskip
  · rw [if_neg hskip] at h
    have hskip : s.skippingCreate = false := by simpa using hskip
    by_cases hcreate : s.inCreate = true
    · rw [if_pos hcreate] at h
      by_cases hend : endsCreate line = true
      · simp only [hend, if_true] at h
        obtain ⟨definition, hparse, rfl, rfl⟩ := recordTable_ok h
        exact .last hskip hcreate hend definition hparse
      · simp only [if_neg hend, Except.ok.injEq, Prod.mk.injEq] at h
        obtain ⟨rfl, rfl⟩ := h
        exact .more hskip hcreate (by simpa using hend)
    · rw [if_neg hcreate] at h
      exact topLine_step hskip (by simpa using hcreate) h

/-- Outside statements, a line that opens a block does so when its header can
be read. -/
theorem sqlLine_copyHeader {s : Scanner} {line : Bytes} {table : TableName}
    {columns : List String} (hskip : s.skippingCreate = false) (hcreate : s.inCreate = false)
    (hheader : isCopyHeader line = true)
    (hparse : parseCopyHeader (trimAsciiEnd line) = .ok (table, columns)) :
    s.sqlLine line = .ok ({ s with openTable := some table, state := .copy },
      [.copyStart table columns]) := by
  obtain ⟨hcopy, hend⟩ : (stripPrefixCi line (ascii "COPY ")).isSome = true ∧
      endsWithCi (trimAsciiEnd line) (ascii "FROM stdin;") = true := by
    simpa [isCopyHeader] using hheader
  have hversion : stripPrefixCi line (ascii "-- Dumped by pg_dump version ") = none :=
    stripPrefixCi_exclusive hcopy 0 (by decide) (by decide) (by decide)
  have hdatabase : stripPrefixCi line (ascii "-- Dumped from database version ") = none :=
    stripPrefixCi_exclusive hcopy 0 (by decide) (by decide) (by decide)
  have hcreateTable : stripPrefixCi line (ascii "CREATE TABLE ") = none :=
    stripPrefixCi_exclusive hcopy 1 (by decide) (by decide) (by decide)
  have hunlogged : stripPrefixCi line (ascii "CREATE UNLOGGED TABLE ") = none :=
    stripPrefixCi_exclusive hcopy 1 (by decide) (by decide) (by decide)
  have hdash : (ascii "--").isPrefixOf line = false := by
    by_contra hdash
    have hheader' := (dash_line_of_isPrefixOf (by simpa using hdash)).2
    rw [hheader] at hheader'
    cases hheader'
  simp only [sqlLine, hskip, hcreate, Bool.false_eq_true, if_false, topLine, hversion, hdatabase,
    hdash, stripCreateTable, hcreateTable, hunlogged, Option.or_none, hcopy, if_true, copyLine,
    hend, hparse]

/-- A line leaves the bytes carried over and the configuration alone. -/
theorem SqlStep.frame {s s' : Scanner} {line : Bytes} {events : List Event}
    (h : SqlStep s line s' events) :
    s'.pending = s.pending ∧ s'.excludedSchemas = s.excludedSchemas := by
  cases h <;> exact ⟨rfl, rfl⟩

/-- A line of SQL emits at most one event, and no rows. -/
theorem SqlStep.events {s s' : Scanner} {line : Bytes} {events : List Event}
    (h : SqlStep s line s' events) :
    events.length ≤ 1 ∧ ∀ payload, Event.copyRows payload ∉ events := by
  cases h with
  | other hskip hcreate hkw hheader dumpedBy fromDatabase events hevents hlength =>
      refine ⟨hlength, fun payload hmem => ?_⟩
      obtain ⟨v, w, he⟩ := hevents _ hmem
      cases he
  | _ => simp

theorem closeCopy_frame (s : Scanner) :
    s.closeCopy.1.pending = s.pending ∧ s.closeCopy.1.excludedSchemas = s.excludedSchemas := by
  unfold closeCopy
  split <;> exact ⟨rfl, rfl⟩

end Scanner

end PgDelta.Scan
