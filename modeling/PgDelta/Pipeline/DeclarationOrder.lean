import PgDelta.Pipeline.Decoding
import PgDelta.Pipeline.Reader
import PgDelta.Scan.Declaration

/-!
`COPY` headers with and without a column list.

`parseCopyHeader` reads an absent list as no columns, which is documented to
mean the declaration order of the table. The reader takes it for a list
without any column.
-/

namespace PgDelta.Pipeline

open PgDelta.Lib PgDelta.Builders PgDelta.Copy PgDelta.Scan PgDelta.Scan.Cutter PgDelta.Sink
  PgDelta.Types

/-! ### Headers -/

/-- A table with at least one column, and the names that a header writes for it. -/
structure DeclaredTable where
  schema : Option SqlName
  table : SqlName
  columns : List (SqlName × String)
  columns_ne : columns ≠ []

namespace DeclaredTable

def name (t : DeclaredTable) : TableName := givenName t.schema t.table

def columnNames (t : DeclaredTable) : List String := t.columns.map fun c => c.1.name

def definition (t : DeclaredTable) : TableDef :=
  { name := t.name, columns := t.columns.map fun c => { name := c.1.name, sqlType := c.2 } }

/-- `COPY s.t FROM stdin;` -/
def bareHeader (t : DeclaredTable) : Bytes :=
  ascii "COPY " ++ (writtenName t.schema t.table ++ 32 :: ascii "FROM stdin;")

/-- The names of all columns in the order of declaration. -/
def listText (t : DeclaredTable) : Bytes :=
  match t.columns with
  | [] => []
  | c :: cs => c.1.text ++ cs.flatMap fun d => comma :: 32 :: d.1.text

/-- `COPY s.t (c1, ..., cn) FROM stdin;` -/
def listedHeader (t : DeclaredTable) : Bytes :=
  ascii "COPY " ++ (writtenName t.schema t.table ++
    32 :: openParen :: (t.listText ++ closeParen :: ascii " FROM stdin;"))

theorem stripCopy (s : Bytes) :
    stripPrefixCi (trimAsciiStart (ascii "COPY " ++ s)) (ascii "COPY ") = some s := by
  simp [stripPrefixCi, trimAsciiStart, eqIgnoreAsciiCase, isAsciiWhitespace,
    show ascii "COPY " = [67, 79, 80, 89, 32] by decide]

theorem parseCopyHeader_bare (t : DeclaredTable) :
    parseCopyHeader t.bareHeader = .ok (t.name, []) := by
  have hopen : memchr openParen (32 :: ascii "FROM stdin;") = none := by decide
  rw [parseCopyHeader, bareHeader, stripCopy]
  simp only [takeQualified_writtenName, hopen]
  rfl

/-- The list is cut into the names behind their spaces. -/
theorem run_listText (t : DeclaredTable) {c : SqlName × String} {cs : List (SqlName × String)}
    (hcols : t.columns = c :: cs) (s : Bytes) :
    ∃ input : List (UInt8 × Bool), input.map Prod.fst = t.listText ++ closeParen :: s
      ∧ ((start true).run input).closed = true
      ∧ ((start true).run input).pieces.map Prod.snd
        = c.1.text :: cs.map fun d => 32 :: d.1.text := by
  have hspace : Steady [32] := Column.steady_space
  have hsteady : ∀ u ∈ cs.map (fun d => 32 :: d.1.text), Steady u := by
    intro u hu
    obtain ⟨d, -, rfl⟩ := List.mem_map.1 hu
    exact hspace.append d.1.written.steady
  have hfirst := c.1.written.steady (start true) rfl
  obtain ⟨hcontrol, hpieces⟩ := run_marked (m := (start true).longer c.1.text) rfl hsteady
  obtain ⟨hopen, hdepth, hquoted⟩ := control_start_iff.1 hcontrol
  have hlast := step_of_closes (c := (closeParen, false)) hopen ⟨hquoted, rfl, hdepth⟩
  have hrun : (start true).run (unmarked c.1.text ++ marked (cs.map fun d => 32 :: d.1.text)
        ++ unmarked (closeParen :: s))
      = { ((start true).longer c.1.text).run (marked (cs.map fun d => 32 :: d.1.text)) with
          closed := true } := by
    rw [run_append, run_append, hfirst, unmarked_cons, run_cons, hlast, run_closed rfl]
  refine ⟨_, ?_, by rw [hrun], ?_⟩
  · simp [listText, hcols, map_fst_marked, List.flatMap_map]
  · rw [hrun]
    change (pieces (((start true).longer c.1.text).run
      (marked (cs.map fun d => 32 :: d.1.text)))).map Prod.snd = _
    rw [hpieces]
    simp [pieces, start]

theorem parseCopyHeader_listed (t : DeclaredTable) :
    parseCopyHeader t.listedHeader = .ok (t.name, t.columnNames) := by
  obtain ⟨c, cs, hcols⟩ := List.exists_cons_of_ne_nil t.columns_ne
  obtain ⟨input, hinput, hclosed, hpieces⟩ := t.run_listText hcols (ascii " FROM stdin;")
  have hlist := run_list true input
  rw [hinput] at hlist
  rw [parseCopyHeader, listedHeader, stripCopy]
  simp only [takeQualified_writtenName, memchr_list]
  cases hstop : matchingParen
      (32 :: openParen :: (t.listText ++ closeParen :: ascii " FROM stdin;")) 1 with
  | none =>
    rw [hstop] at hlist
    simp [hclosed] at hlist
  | some stop =>
    rw [hstop] at hlist
    obtain ⟨-, hitems⟩ := hlist
    have hrest : (cs.map fun d => 32 :: d.1.text).filterMap
        (fun item => (takeIdentifier item).map Prod.fst) = cs.map fun d => d.1.name := by
      rw [List.filterMap_map, ← List.filterMap_eq_map]
      refine List.filterMap_congr fun d _ => ?_
      simp [takeIdentifier_space, d.1.written.takeIdentifier_last]
    simp only [hitems, hpieces, List.filterMap_cons, c.1.written.takeIdentifier_last,
      Option.map_some, hrest, name, columnNames, hcols, List.map_cons]

end DeclaredTable

/-! ### Blocks -/

/-- The context of a block under a header of its table. -/
def headerCtx (cfg : LoadConfig) (generation : ℕ) (uri : String) (definition : TableDef)
    (header : Bytes) : Except Error BlockCtx :=
  match parseCopyHeader header with
  | .error e => .error e
  | .ok (_, columns) =>
    match resolveCopyColumns definition columns with
    | .error e => .error e
    | .ok columns => .ok (Reader.blockCtx cfg generation uri columns)

/-- What a block declares and stores: its schema, and what each line becomes. -/
structure LoadedBlock where
  schema : Schema
  rows : List (Except Error (List (Cell × Bool)))
  deriving DecidableEq

def loadBlock (cfg : LoadConfig) (generation : ℕ) (uri : String) (definition : TableDef)
    (header : Bytes) (lines : List Bytes) : Except Error LoadedBlock :=
  (headerCtx cfg generation uri definition header).map fun ctx =>
    { schema := ctx.schema, rows := lines.map ctx.readLine }

theorem openWanted_sends {P : Platform} {n : ℕ} {cfg : LoadConfig} {σ σ' : Store P}
    {r : Reader P} {table : TableName} {columns : List String} {o : Outside}
    {definition : TableDef} {reaction : Reaction P n} {header : Bytes}
    (hdef : r.tableDefs table.qualified = some definition)
    (hheader : parseCopyHeader header = .ok (table, columns))
    (h : r.openWanted cfg σ table columns o = (.ok reaction, σ')) :
    ∃ uri ctx, headerCtx cfg (r.generation + 1) uri definition header = .ok ctx
      ∧ reaction.sends = Reader.toAll (.openBlock ctx) := by
  simp only [Reader.openWanted, hdef] at h
  cases hresolve : resolveCopyColumns definition columns with
  | error e => simp [hresolve] at h
  | ok resolved =>
    simp only [hresolve] at h
    cases hpreload : r.takePreload cfg σ table o with
    | error e => simp [hpreload] at h
    | ok preloaded =>
      simp only [hpreload] at h
      split at h
      · cases h
      · rename_i opened σ'' _
        simp only [Prod.mk.injEq, Except.ok.injEq] at h
        obtain ⟨rfl, -⟩ := h
        refine ⟨opened.uri, Reader.blockCtx cfg (r.generation + 1) opened.uri resolved, ?_, rfl⟩
        simp only [headerCtx, hheader, hresolve]

/-! ### No fields -/

theorem decodeFields_length {fuel : ℕ} {it : Fields} {scratch scratch' : Bytes}
    {out out' : List (Option Range)} (h : decodeFields fuel it scratch out = .ok (scratch', out')) :
    out.length ≤ out'.length := by
  induction fuel generalizing it scratch out with
  | zero =>
    simp only [decodeFields, Except.ok.injEq, Prod.mk.injEq] at h
    exact h.2 ▸ le_rfl
  | succ fuel ih =>
    have hgrow : ∀ {it scratch r},
        decodeFields fuel it scratch (out ++ [r]) = .ok (scratch', out') →
        out.length ≤ out'.length := fun h => by
      have hle := ih h
      rw [List.length_append] at hle
      omega
    rw [decodeFields] at h
    split at h
    · simp only [Except.ok.injEq, Prod.mk.injEq] at h
      exact h.2 ▸ le_rfl
    · cases h
    · split_ifs at h
      · exact hgrow h
      · split at h
        · cases h
        · exact hgrow h

/-- Every row has a field, or is refused before its first one. -/
theorem next_fields (line : Bytes) (limits : Limits) :
    ∃ r it, (fields line limits).next = (some r, it) := by
  by_cases hrow : limits.maxRowBytes < line.length
  · have hcheck : (fields line limits).checkRow
        = (some (.rowTooLarge line.length limits.maxRowBytes),
          { fields line limits with rowChecked := true, finished := true }) := if_pos hrow
    rw [Fields.next, hcheck]
    exact ⟨_, _, rfl⟩
  · have hcheck : (fields line limits).checkRow
        = (none, { fields line limits with rowChecked := true }) := if_neg hrow
    have hgo : (fields line limits).finished = false := rfl
    rw [Fields.next, hcheck]
    simp only [hgo, Bool.false_eq_true, if_false]
    split_ifs <;> exact ⟨_, _, rfl⟩

/-- No row is one of no columns. -/
theorem decodeRow_zero (line : Bytes) (limits : Limits) :
    ∃ e, decodeRow line 0 limits = .error e := by
  obtain ⟨r, it, hnext⟩ := next_fields line limits
  rw [decodeRow]
  cases hdecode : decodeFields (line.length + 2) (fields line limits) [] [] with
  | error e => exact ⟨e, rfl⟩
  | ok decoded =>
    obtain ⟨scratch, out⟩ := decoded
    have hpos : 0 < out.length := by
      rw [decodeFields, hnext] at hdecode
      cases r with
      | error e => cases hdecode
      | ok field =>
        simp only at hdecode
        split_ifs at hdecode
        · exact decodeFields_length hdecode
        · split at hdecode
          · cases hdecode
          · exact decodeFields_length hdecode
    exact ⟨.fieldCountMismatch out.length 0, by simp [hpos.ne']⟩

theorem readLine_error {ctx : BlockCtx} {line : Bytes} {e : Error}
    (h : decodeRow line ctx.arity ctx.limits = .error e) : ctx.readLine line = .error e := by
  rw [BlockCtx.readLine, h]

/-! ### The two headers -/

namespace DeclaredTable

theorem headerCtx_bare (t : DeclaredTable) (cfg : LoadConfig) (generation : ℕ) (uri : String) :
    headerCtx cfg generation uri t.definition t.bareHeader
      = .ok (Reader.blockCtx cfg generation uri []) := by
  unfold headerCtx
  simp only [parseCopyHeader_bare, resolveCopyColumns]

theorem resolveCopyColumns_names (t : DeclaredTable) :
    ∃ columns, resolveCopyColumns t.definition t.columnNames = .ok columns
      ∧ columns.length = t.columns.length := by
  have hfound : ∀ cs : List (SqlName × String), (∀ c ∈ cs, c ∈ t.columns) →
      ∃ columns, resolveCopyColumns t.definition (cs.map fun c => c.1.name) = .ok columns
        ∧ columns.length = cs.length := by
    intro cs
    induction cs with
    | nil => exact fun _ => ⟨[], rfl, rfl⟩
    | cons c cs ih =>
      intro hmem
      obtain ⟨columns, hcolumns, hlength⟩ := ih fun d hd => hmem d (by simp [hd])
      have hsome : (t.definition.columns.find? fun d => d.name = c.1.name).isSome := by
        rw [List.find?_isSome]
        exact ⟨⟨c.1.name, c.2⟩, List.mem_map_of_mem (hmem c (by simp)), by simp⟩
      obtain ⟨d, hd⟩ := Option.isSome_iff_exists.1 hsome
      refine ⟨(c.1.name, resolve d.sqlType) :: columns, ?_, by simp [hlength]⟩
      simp only [List.map_cons, resolveCopyColumns, resolveCopyColumn, hd, hcolumns]
  exact hfound t.columns fun _ h => h

theorem headerCtx_listed (t : DeclaredTable) (cfg : LoadConfig) (generation : ℕ) (uri : String) :
    ∃ columns, headerCtx cfg generation uri t.definition t.listedHeader
        = .ok (Reader.blockCtx cfg generation uri columns)
      ∧ columns.length = t.columns.length := by
  obtain ⟨columns, hcolumns, hlength⟩ := t.resolveCopyColumns_names
  refine ⟨columns, ?_, hlength⟩
  unfold headerCtx
  simp only [parseCopyHeader_listed, hcolumns]

/-- A block without a column list is never loaded as one with the columns in the
order of declaration: it has no columns, and none of its rows is accepted. -/
theorem bareHeader_never (t : DeclaredTable) (cfg : LoadConfig) (generation : ℕ) (uri : String)
    (lines : List Bytes) :
    loadBlock cfg generation uri t.definition t.bareHeader lines
        ≠ loadBlock cfg generation uri t.definition t.listedHeader lines
      ∧ ∃ bare listed, loadBlock cfg generation uri t.definition t.bareHeader lines = .ok bare
        ∧ loadBlock cfg generation uri t.definition t.listedHeader lines = .ok listed
        ∧ bare.schema = [] ∧ listed.schema.length = t.columns.length
        ∧ ∀ row ∈ bare.rows, ∃ e, row = .error e := by
  obtain ⟨columns, hlisted, hlength⟩ := t.headerCtx_listed cfg generation uri
  have hbare := t.headerCtx_bare cfg generation uri
  have hschema : (Reader.blockCtx cfg generation uri columns).schema.length = t.columns.length := by
    rw [← hlength]
    exact List.length_map _
  have hrows : ∀ row ∈ lines.map (Reader.blockCtx cfg generation uri []).readLine,
      ∃ e, row = .error e := by
    intro row hrow
    obtain ⟨line, -, rfl⟩ := List.mem_map.1 hrow
    obtain ⟨e, he⟩ := decodeRow_zero line cfg.limits
    have hctx : decodeRow line (Reader.blockCtx cfg generation uri []).arity
        (Reader.blockCtx cfg generation uri []).limits = .error e := he
    exact ⟨e, readLine_error hctx⟩
  refine ⟨?_, ⟨[], lines.map (Reader.blockCtx cfg generation uri []).readLine⟩,
    ⟨_, lines.map (Reader.blockCtx cfg generation uri columns).readLine⟩, ?_, ?_, rfl,
      hschema, hrows⟩
  · rw [loadBlock, loadBlock, hbare, hlisted]
    intro h
    have hsame := congrArg (fun r => r.toOption.map fun b : LoadedBlock => b.schema.length) h
    have hpos := List.length_pos_iff.2 t.columns_ne
    rw [← hschema] at hpos
    simp only [Except.map, Except.toOption, Option.map_some, Option.some.injEq] at hsame
    rw [← hsame] at hpos
    exact Nat.lt_irrefl 0 hpos
  · rw [loadBlock, hbare]
    rfl
  · rw [loadBlock, hlisted]
    rfl

/-- A table `public.t` of one integer. -/
def sample : DeclaredTable where
  schema := some ⟨"public", ascii "public", .bare "public" isLowerWord_public⟩
  table := ⟨"t", ascii "t", .bare "t" isLowerWord_t⟩
  columns := [(⟨"id", ascii "id", .bare "id" isLowerWord_id⟩, "integer")]
  columns_ne := by simp

theorem bareHeader_counterexample :
    sample.bareHeader = ascii "COPY public.t FROM stdin;"
      ∧ sample.listedHeader = ascii "COPY public.t (id) FROM stdin;"
      ∧ loadBlock { outputUri := "out" } 1 "out/public/t" sample.definition sample.bareHeader
          [ascii "7"] = .ok ⟨[], [.error (.fieldCountMismatch 1 0)]⟩
      ∧ loadBlock { outputUri := "out" } 1 "out/public/t" sample.definition sample.listedHeader
          [ascii "7"] = .ok ⟨[⟨"id", .int32, true⟩], [.ok [(.value (.int 7), false)]]⟩ := by
  decide +kernel

end DeclaredTable

end PgDelta.Pipeline
