import PgDelta.Lib.Transition
import PgDelta.Pipeline.Decoding
import PgDelta.Pipeline.Reader
import PgDelta.Scan.LineMachine

/-!
What the loader reads in a dump, whatever becomes of its tables.

The events of the scanner are followed as the reader follows them, and the rows
of a block are decoded as a worker decodes them. Neither storage nor the
batches play a part.
-/

namespace PgDelta.Pipeline

open PgDelta.Lib PgDelta.Builders PgDelta.Types PgDelta.Scan PgDelta.Copy

/-- The values of the fields of a line that is read in the columns of a block. -/
def BlockCtx.valuesOf (ctx : BlockCtx) (line : Bytes) : Except Error (List (Option Bytes)) :=
  match decodeRow line ctx.arity ctx.limits with
  | .error e => .error e
  | .ok decoded =>
    match BatchBuilder.readCells ctx.builder.columns ctx.builder.names (Copy.values decoded) with
    | .error e => .error e
    | .ok _ => .ok (Copy.values decoded)

structure ReadBlock where
  table : TableName
  columns : List (String × ResolvedType)
  rows : List (List (Option Bytes)) := []
  deriving DecidableEq

/-- What has been read of a dump. -/
structure Loader where
  tableDefs : String → Option TableDef := fun _ => none
  /-- The tables that were declared, in their order. -/
  definitions : List TableDef := []
  /-- The headers of all blocks, also of those that are skipped. -/
  headers : List (TableName × List String) := []
  blocks : List ReadBlock := []
  current : Option ReadBlock := none
  skipping : Bool := false

namespace Loader

variable (cfg : LoadConfig)

def onDumpVersion (l : Loader) (dumpedBy : ℕ) : Except Error Loader :=
  if cfg.expectPgMajor.any fun expected => dumpedBy ≠ expected then
    .error (.unsupportedDumpVersion dumpedBy)
  else .ok l

def onTable (l : Loader) (definition : TableDef) : Loader :=
  { l with
    tableDefs := Function.update l.tableDefs definition.name.qualified (some definition)
    definitions := l.definitions ++ [definition] }

/-- Open a wanted block. -/
def openWanted (l : Loader) (table : TableName) (columns : List String) : Except Error Loader :=
  match l.tableDefs table.qualified with
  | none => .error (.malformedCreateTable table.qualified)
  | some definition =>
    match resolveCopyColumns definition columns with
    | .error e => .error e
    | .ok columns => .ok { l with current := some { table := table, columns := columns } }

def onCopyStart (l : Loader) (table : TableName) (columns : List String) : Except Error Loader :=
  if l.current.isSome then
    .error (.internal "COPY block started while another was still open")
  else if cfg.writeManifest && Manifest.reservedCollision table then
    .error (.unsafeTableName table.qualified)
  else
    let l := { l with headers := l.headers ++ [(table, columns)] }
    if cfg.wanted table then l.openWanted table columns else .ok { l with skipping := true }

/-- The context in which the rows of a block are decoded. -/
def ctx (b : ReadBlock) : BlockCtx := Reader.blockCtx cfg 0 "" b.columns

/-- One row of the block that is open. -/
def row (l : Loader) (line : Bytes) : Except Error Loader :=
  if l.skipping then .ok l
  else
    match l.current with
    | none => .error (.internal "COPY rows arrived with no open block")
    | some b =>
      match (ctx cfg b).valuesOf line with
      | .error e => .error e
      | .ok values => .ok { l with current := some { b with rows := b.rows ++ [values] } }

def onCopyEnd (l : Loader) (table : TableName) : Except Error Loader :=
  if l.skipping then .ok { l with skipping := false }
  else
    match l.current with
    | none => .error (.internal "COPY block ended with none open")
    | some b =>
      if b.table ≠ table then
        .error (.internal "COPY block ended under a different name than it began")
      else .ok { l with current := none, blocks := l.blocks ++ [b] }

def onEvent (l : Loader) : Event → Except Error Loader
  | .dumpVersion dumpedBy _ => l.onDumpVersion cfg dumpedBy
  | .table definition => .ok (l.onTable definition)
  | .copyStart table columns => l.onCopyStart cfg table columns
  | .copyRows payload => (Copy.rows payload).foldlM (row cfg) l
  | .copyEnd table => l.onCopyEnd table

def onObs (l : Loader) : Obs → Except Error Loader
  | .event e => l.onEvent cfg e
  | .row line => l.row cfg line

/-- Following the events is following what is observed of them. -/
theorem foldlM_onEvent (l : Loader) (events : List Event) :
    events.foldlM (onEvent cfg) l = (observe events).foldlM (onObs cfg) l := by
  have hone : ∀ (l : Loader) (e : Event), l.onEvent cfg e = e.observe.foldlM (onObs cfg) l := by
    intro l e
    cases e with
    | copyRows payload => rw [Event.observe, List.foldlM_map]; rfl
    | _ => simp [Event.observe, onObs]
  induction events generalizing l with
  | nil => rfl
  | cons e events ih =>
      rw [List.foldlM_cons, observe, List.flatMap_cons, List.foldlM_append, hone]
      exact congrArg _ (funext fun l => ih l)

end Loader

/-- The scanner that a load begins with. -/
def LoadConfig.scanner (cfg : LoadConfig) : Scanner :=
  Scanner.new.setExcludedSchemas (cfg.excludedSchemas.getD [])

/-- Read a dump that arrives in chunks. -/
def load (cfg : LoadConfig) (chunks : List Bytes) : Except Error Loader :=
  match cfg.scanner.feedAll chunks with
  | .error e => .error e
  | .ok (s, events) =>
    match events.foldlM (Loader.onEvent cfg) {} with
    | .error e => .error e
    | .ok l =>
      match s.finish with
      | .error e => .error e
      | .ok () => .ok l

/-! ### Dumps that are read alike -/

/-- A block with the first rows of another, NULL where they are. -/
structure ReadBlock.Resembles (maxRows : Option ℕ) (b b' : ReadBlock) : Prop where
  table : b'.table = b.table
  columns : b'.columns = b.columns
  rows : b'.rows.map (List.map Option.isNone)
    = (maxRows.elim b.rows fun n => b.rows.take n).map (List.map Option.isNone)

/-- The same tables and blocks, with the first rows of each. -/
structure Loader.Resembles (maxRows : Option ℕ) (l l' : Loader) : Prop where
  tableDefs : l'.tableDefs = l.tableDefs
  definitions : l'.definitions = l.definitions
  headers : l'.headers = l.headers
  blocks : List.Forall₂ (ReadBlock.Resembles maxRows) l.blocks l'.blocks
  current : Option.Rel (ReadBlock.Resembles maxRows) l.current l'.current
  skipping : l'.skipping = l.skipping

theorem ReadBlock.Resembles.new (maxRows : Option ℕ) (table : TableName)
    (columns : List (String × ResolvedType)) :
    ReadBlock.Resembles maxRows { table := table, columns := columns }
      { table := table, columns := columns } :=
  ⟨rfl, rfl, by cases maxRows <;> simp⟩

/-- A row more of both, where there is room for it. -/
theorem ReadBlock.Resembles.push {maxRows : Option ℕ} {b b' : ReadBlock}
    (h : b.Resembles maxRows b') {row row' : List (Option Bytes)}
    (hrow : row'.map Option.isNone = row.map Option.isNone)
    (hroom : ∀ n, maxRows = some n → b.rows.length < n) :
    ReadBlock.Resembles maxRows { b with rows := b.rows ++ [row] }
      { b' with rows := b'.rows ++ [row'] } := by
  refine ⟨h.table, h.columns, ?_⟩
  have hrows := h.rows
  cases maxRows with
  | none => simpa [hrow] using hrows
  | some n =>
      have hroom := hroom n rfl
      simp only [Option.elim_some] at hrows ⊢
      rw [List.take_of_length_le hroom.le] at hrows
      rw [List.take_of_length_le (by simpa using hroom), List.map_append, hrows, List.map_append,
        List.map_singleton, List.map_singleton, hrow]

theorem ReadBlock.Resembles.drop {n : ℕ} {b b' : ReadBlock} (h : b.Resembles (some n) b')
    (hfull : n ≤ b.rows.length) (row : List (Option Bytes)) :
    ReadBlock.Resembles (some n) { b with rows := b.rows ++ [row] } b' := by
  refine ⟨h.table, h.columns, ?_⟩
  rw [h.rows]
  simp only [Option.elim_some]
  rw [List.take_append_of_le_length hfull]

theorem ReadBlock.Resembles.trans {maxRows : Option ℕ} {a b c : ReadBlock}
    (h : a.Resembles none b) (h' : b.Resembles maxRows c) : a.Resembles maxRows c := by
  refine ⟨h'.table.trans h.table, h'.columns.trans h.columns, h'.rows.trans ?_⟩
  have hrows := h.rows
  simp only [Option.elim_none] at hrows
  cases maxRows with
  | none => exact hrows
  | some n => simp only [Option.elim_some, List.map_take, hrows]

theorem Loader.Resembles.trans {maxRows : Option ℕ} {l m n : Loader} (h : l.Resembles none m)
    (h' : m.Resembles maxRows n) : l.Resembles maxRows n where
  tableDefs := h'.tableDefs.trans h.tableDefs
  definitions := h'.definitions.trans h.definitions
  headers := h'.headers.trans h.headers
  blocks := by
    have hblocks := h.blocks
    have hblocks' := h'.blocks
    generalize l.blocks = as at hblocks ⊢
    generalize m.blocks = bs at hblocks hblocks'
    generalize n.blocks = cs at hblocks' ⊢
    induction hblocks generalizing cs with
    | nil => rwa [List.forall₂_nil_left_iff] at hblocks' ⊢
    | cons hab hblocks ih =>
        obtain ⟨c, cs, hbc, hcs, rfl⟩ := List.forall₂_cons_left_iff.1 hblocks'
        exact .cons (hab.trans hbc) (ih cs hcs)
  current := by
    have hcurrent := h.current
    have hcurrent' := h'.current
    generalize l.current = a at hcurrent ⊢
    generalize m.current = b at hcurrent hcurrent'
    generalize n.current = c at hcurrent' ⊢
    cases hcurrent with
    | none =>
        cases hcurrent'
        exact .none
    | some hab =>
        cases hcurrent' with
        | some hbc => exact .some (hab.trans hbc)
  skipping := h'.skipping.trans h.skipping

theorem Loader.Resembles.start (maxRows : Option ℕ) : Loader.Resembles maxRows {} {} :=
  ⟨rfl, rfl, rfl, .nil, .none, rfl⟩

/-- An event that brings no rows. -/
def eventOnly (o : Obs) : Prop := ∃ e, o = .event e ∧ ∀ payload, e ≠ .copyRows payload

theorem Loader.Resembles.onObs {cfg : LoadConfig} {maxRows : Option ℕ} {l l' m : Loader}
    (h : l.Resembles maxRows l') {o : Obs} (ho : eventOnly o) (hm : l.onObs cfg o = .ok m) :
    ∃ m', l'.onObs cfg o = .ok m' ∧ m.Resembles maxRows m' := by
  obtain ⟨e, rfl, hrows⟩ := ho
  rw [Loader.onObs] at hm ⊢
  cases e with
  | copyRows payload => exact absurd rfl (hrows payload)
  | dumpVersion dumpedBy fromDatabase =>
      rw [Loader.onEvent, Loader.onDumpVersion] at hm ⊢
      split_ifs at hm ⊢
      obtain rfl := Except.ok.inj hm
      exact ⟨l', rfl, h⟩
  | table definition =>
      obtain rfl := Except.ok.inj hm
      refine ⟨_, rfl, ⟨?_, ?_, h.headers, h.blocks, h.current, h.skipping⟩⟩
      · simp [Loader.onTable, h.tableDefs]
      · simp [Loader.onTable, h.definitions]
  | copyStart table columns =>
      have hsome : l'.current.isSome = l.current.isSome := by
        have hcurrent := h.current
        generalize l.current = current at hcurrent ⊢
        generalize l'.current = current' at hcurrent ⊢
        cases hcurrent <;> rfl
      have hheaders : l'.headers ++ [(table, columns)] = l.headers ++ [(table, columns)] := by
        rw [h.headers]
      rw [Loader.onEvent, Loader.onCopyStart] at hm ⊢
      rw [hsome]
      split_ifs at hm ⊢ with hopen hreserved hwanted
      · rw [Loader.openWanted] at hm ⊢
        rw [h.tableDefs]
        cases hdef : l.tableDefs table.qualified with
        | none => simp [hdef] at hm
        | some definition =>
            simp only [hdef] at hm ⊢
            cases hcolumns : resolveCopyColumns definition columns with
            | error e => simp [hcolumns] at hm
            | ok columns =>
                simp only [hcolumns] at hm ⊢
                obtain rfl := Except.ok.inj hm
                exact ⟨_, rfl, ⟨rfl, h.definitions, hheaders, h.blocks, .some (.new ..),
                  h.skipping⟩⟩
      · obtain rfl := Except.ok.inj hm
        exact ⟨_, rfl, ⟨h.tableDefs, h.definitions, hheaders, h.blocks, h.current, rfl⟩⟩
  | copyEnd table =>
      rw [Loader.onEvent, Loader.onCopyEnd] at hm ⊢
      rw [h.skipping]
      split_ifs at hm ⊢ with hskipping
      · obtain rfl := Except.ok.inj hm
        exact ⟨_, rfl, ⟨h.tableDefs, h.definitions, h.headers, h.blocks, h.current, rfl⟩⟩
      · have hcurrent := h.current
        generalize l.current = current at hm hcurrent
        generalize l'.current = current' at hcurrent ⊢
        cases hcurrent with
        | none => cases hm
        | @some b b' hb =>
            dsimp only at hm ⊢
            rw [hb.table]
            split_ifs at hm ⊢ with hname
            obtain rfl := Except.ok.inj hm
            exact ⟨_, rfl, ⟨h.tableDefs, h.definitions, h.headers,
              List.rel_append h.blocks (.cons hb .nil), .none, rfl⟩⟩

/-! ### Lines that only a newline ends -/

/-- A line, without its newline, whose last byte is no carriage return. -/
def PlainLine (line : Bytes) : Prop := newline ∉ line ∧ line.getLast? ≠ some carriageReturn

instance (line : Bytes) : Decidable (PlainLine line) := inferInstanceAs (Decidable (_ ∧ _))

theorem PlainLine.stripCr_eq {line : Bytes} (h : PlainLine line) : stripCr line = line :=
  if_neg h.2

/-- Where no more than one carriage return stands in front of a newline, it does
not matter which lines a chunk boundary cuts. -/
theorem runLines_stripCr (s : Scanner) {ls : List (Bool × Bytes)}
    (h : ∀ l ∈ ls, PlainLine (stripCr l.2)) :
    s.runLines ls = s.runLines ((ls.map Prod.snd).map fun l => (false, stripCr l)) := by
  induction ls generalizing s with
  | nil => rfl
  | cons l ls ih =>
      obtain ⟨cut, line⟩ := l
      have hline : stripCr (stripCr line) = stripCr line := (h _ List.mem_cons_self).stripCr_eq
      have hstep : s.lineStep cut line = s.lineStep false (stripCr line) := by
        cases cut with
        | false => simp [Scanner.lineStep, Scanner.readRow, hline]
        | true => simp [Scanner.lineStep, Scanner.readRow, hline]
      simp only [List.map_cons, Scanner.runLines, hstep]
      simp only [ih _ fun l hl => h l (List.mem_cons_of_mem _ hl)]

/-- How far the loader has come, behind a line. -/
structure Reading where
  scanner : Scanner
  loader : Loader := {}

namespace Reading

variable (cfg : LoadConfig)

def start : Reading where
  scanner := cfg.scanner

/-- Read one line. -/
def line (s : Reading) (line : Bytes) : Option Reading :=
  match s.scanner.lineStep false line with
  | .error _ => none
  | .ok (scanner, obs) =>
    match obs.foldlM (Loader.onObs cfg) s.loader with
    | .error _ => none
    | .ok loader => some ⟨scanner, loader⟩

theorem runFrom_line {s : Reading} {ls : List Bytes} {scanner : Scanner} {loader : Loader} :
    runFrom (line cfg) s ls = some ⟨scanner, loader⟩ ↔
      ∃ obs, s.scanner.runLines (ls.map fun l => (false, l)) = .ok (scanner, obs) ∧
        obs.foldlM (Loader.onObs cfg) s.loader = .ok loader := by
  induction ls generalizing s with
  | nil =>
      obtain ⟨scanner', loader'⟩ := s
      simp [Scanner.runLines, pure, Except.pure]
  | cons l ls ih =>
      rw [runFrom_cons, List.map_cons, Scanner.runLines, line]
      cases hstep : s.scanner.lineStep false l with
      | error e => simp
      | ok r =>
          obtain ⟨s₁, obs₁⟩ := r
          dsimp only
          cases hone : obs₁.foldlM (Loader.onObs cfg) s.loader with
          | error e =>
              cases s₁.runLines (ls.map fun l => (false, l)) with
              | error e => simp
              | ok r => simp [hone, bind, Except.bind]
          | ok l₁ =>
              have ih := @ih ⟨s₁, l₁⟩
              simp only [Option.some.injEq, exists_eq_left', ih]
              cases s₁.runLines (ls.map fun l => (false, l)) with
              | error e => simp
              | ok r =>
                  obtain ⟨s₂, obs₂⟩ := r
                  simp only [Except.ok.injEq, Prod.mk.injEq, and_assoc, exists_and_left,
                    exists_eq_left', List.foldlM_append, hone]
                  rfl

end Reading

/-- A dump whose lines all end in a newline, with at most one carriage return in
front of it, is read line by line, whatever its chunks are. -/
theorem load_lines {cfg : LoadConfig} {chunks ls : List Bytes}
    (h : lines newline chunks.flatten = (ls, [])) (hls : ∀ l ∈ ls, PlainLine (stripCr l))
    {loader : Loader} :
    load cfg chunks = .ok loader ↔
      ∃ scanner, runFrom (Reading.line cfg) (.start cfg) (ls.map stripCr) = some ⟨scanner, loader⟩ ∧
        scanner.finish = .ok () := by
  have hsnd : (cutLines newline [] chunks).map Prod.snd = ls := by
    rw [map_snd_cutLines newline [] chunks List.not_mem_nil, List.nil_append, h]
  have hobserved := cfg.scanner.feedAll_observed List.not_mem_nil chunks
  have hrun := @runLines_stripCr cfg.scanner (cutLines newline [] chunks)
    fun l hl => hls l.2 (hsnd ▸ List.mem_map_of_mem hl)
  have hpending : cfg.scanner.pending = [] := rfl
  have hsame : { cfg.scanner with pending := [] } = cfg.scanner := rfl
  rw [hsame, hpending, hrun, hsnd, List.nil_append, h] at hobserved
  simp only [Reading.runFrom_line, Reading.start, List.map_map, Function.comp_def]
  unfold load
  cases hlast : cfg.scanner.runLines (ls.map fun l => (false, stripCr l)) with
  | error e =>
      rw [hlast] at hobserved
      cases hfeed : cfg.scanner.feedAll chunks with
      | error e => simp
      | ok r =>
          rw [hfeed] at hobserved
          cases hobserved
  | ok r =>
      obtain ⟨s, obs⟩ := r
      rw [hlast] at hobserved
      cases hfeed : cfg.scanner.feedAll chunks with
      | error e => simp [hfeed] at hobserved
      | ok r =>
          obtain ⟨s', events⟩ := r
          simp only [hfeed, observed_ok, Scanner.resume_ok, List.nil_append, Except.ok.injEq,
            Prod.mk.injEq] at hobserved
          obtain ⟨rfl, rfl⟩ := hobserved
          have hclear : { s with pending := [] } = s := by
            rw [← hpending, ← (Scanner.runLines_frame hlast).1]
          rw [hclear] at hfeed ⊢
          dsimp only
          rw [Loader.foldlM_onEvent]
          cases hfold : (observe events).foldlM (Loader.onObs cfg) {} with
          | error e => simp [hfold]
          | ok l =>
              dsimp only
              cases hfinish : s.finish with
              | error e => simp [hfold, hfinish]
              | ok u => simp [hfold, hfinish]

theorem load_unlines {cfg : LoadConfig} {chunks ls : List Bytes} (hls : ∀ l ∈ ls, PlainLine l)
    (h : chunks.flatten = unlines newline ls) {loader : Loader} :
    load cfg chunks = .ok loader ↔
      ∃ scanner, runFrom (Reading.line cfg) (.start cfg) ls = some ⟨scanner, loader⟩ ∧
        scanner.finish = .ok () := by
  have hlines : lines newline chunks.flatten = (ls, []) := by
    have hjoin := lines_unlines_append (fun l hl => (hls l hl).1) []
    simpa [h] using hjoin
  have hstrip : ∀ l ∈ ls, stripCr l = l := fun l hl => (hls l hl).stripCr_eq
  have hmap : ls.map stripCr = ls := by
    rw [List.map_congr_left hstrip, List.map_id']
  rw [load_lines hlines fun l hl => by rw [hstrip l hl]; exact hls l hl, hmap]

/-- A dump of plain lines is read if its lines are and it ends outside a block,
behind the version. -/
theorem exists_load {cfg : LoadConfig} {ls : List Bytes} (hls : ∀ l ∈ ls, PlainLine l)
    (h : ((runFrom (Reading.line cfg) (.start cfg) ls).any fun r =>
      decide (r.scanner.state = .sql ∧ r.scanner.dumpedBy.isSome = true)) = true) :
    ∃ loaded, load cfg [unlines newline ls] = .ok loaded := by
  cases hrun : runFrom (Reading.line cfg) (.start cfg) ls with
  | none => simp [hrun] at h
  | some r =>
      rw [hrun] at h
      obtain ⟨hstate, hversion⟩ := of_decide_eq_true h
      refine ⟨r.loader, (load_unlines hls (List.flatten_singleton ..)).2 ⟨r.scanner, hrun, ?_⟩⟩
      simp [Scanner.finish, hstate, Option.isSome_iff_ne_none.1 hversion]

end PgDelta.Pipeline
