import PgDelta.Pipeline.Acceptance
import PgDelta.Scan.Completeness

/-!
The blocks of a dump, as they stand in the stream.

`script` reads what the scanner shows of a dump and keeps, for each `COPY`
block that is wanted, its columns and the lines between its header and its
terminator. It knows of no workers, no batches and no storage.
-/

namespace PgDelta.Pipeline

open PgDelta.Lib PgDelta.Builders PgDelta.Types PgDelta.Scan PgDelta.Copy

/-- A wanted block, with the lines behind its header. -/
structure DumpBlock where
  table : TableName
  columns : List (String × ResolvedType)
  lines : List Bytes := []
  deriving DecidableEq

/-- The context in which the lines of a block are decoded. -/
def DumpBlock.ctx (cfg : LoadConfig) (b : DumpBlock) : BlockCtx :=
  Reader.blockCtx cfg 0 "" b.columns

def DumpBlock.push (b : DumpBlock) (lines : List Bytes) : DumpBlock :=
  { b with lines := b.lines ++ lines }

/-- What has been read of a dump: the declared tables, the wanted blocks that
are over, and the one that is open. -/
structure Script where
  tableDefs : String → Option TableDef := fun _ => none
  closed : List DumpBlock := []
  current : Option DumpBlock := none

namespace Script

/-- All wanted blocks, in their order. -/
def blocks (v : Script) : List DumpBlock := v.closed ++ v.current.toList

/-- The columns of a header. -/
def columnsOf (v : Script) (table : TableName) (names : List String) :
    List (String × ResolvedType) :=
  match v.tableDefs table.qualified with
  | none => []
  | some definition => (resolveCopyColumns definition names).toOption.getD []

def onCopyStart (cfg : LoadConfig) (v : Script) (table : TableName) (names : List String) :
    Script :=
  { v with
    closed := v.blocks
    current := if cfg.wanted table then some ⟨table, v.columnsOf table names, []⟩ else none }

def onObs (cfg : LoadConfig) (v : Script) : Obs → Script
  | .row line => { v with current := v.current.map fun b => b.push [line] }
  | .event (.table definition) =>
    { v with
      tableDefs := Function.update v.tableDefs definition.name.qualified (some definition) }
  | .event (.copyStart table names) => v.onCopyStart cfg table names
  | .event (.copyEnd _) => { v with closed := v.blocks, current := none }
  | .event _ => v

def follow (cfg : LoadConfig) (v : Script) (obs : List Obs) : Script := obs.foldl (onObs cfg) v

end Script

/-- The script of what was observed of a dump. -/
def script (cfg : LoadConfig) (obs : List Obs) : Script := Script.follow cfg {} obs

/-- The wanted blocks of the dump that some events show. -/
def wantedBlocks (cfg : LoadConfig) (events : List Event) : List DumpBlock :=
  (script cfg (observe events)).blocks

/-- A block of which more may have been read. -/
structure DumpBlock.Begins (b b' : DumpBlock) : Prop where
  table : b'.table = b.table
  columns : b'.columns = b.columns
  lines : b.lines <+: b'.lines

theorem DumpBlock.Begins.refl (b : DumpBlock) : b.Begins b := ⟨rfl, rfl, List.prefix_refl _⟩

theorem DumpBlock.Begins.trans {a b c : DumpBlock} (h : a.Begins b) (h' : b.Begins c) :
    a.Begins c :=
  ⟨h'.table.trans h.table, h'.columns.trans h.columns, h.lines.trans h'.lines⟩

/-- The script of a longer stream: the blocks that were over are what they
were, and the block that was open goes on. -/
structure Script.Extends (v v' : Script) : Prop where
  closed : v.closed <+: v'.closed
  blocks : ∀ (g : ℕ) (b : DumpBlock), v.blocks[g]? = some b →
    ∃ b' : DumpBlock, v'.blocks[g]? = some b' ∧ b.Begins b'

namespace Script

variable {cfg : LoadConfig}

@[simp] theorem follow_nil (v : Script) : v.follow cfg [] = v := rfl

@[simp] theorem follow_append (v : Script) (as bs : List Obs) :
    v.follow cfg (as ++ bs) = (v.follow cfg as).follow cfg bs := by
  simp [follow]

@[simp] theorem follow_singleton (v : Script) (o : Obs) : v.follow cfg [o] = v.onObs cfg o := rfl

/-- The rows of a payload are lines of the block that is open. -/
theorem follow_rows (v : Script) (ls : List Bytes) :
    v.follow cfg (ls.map .row) = { v with current := v.current.map fun b => b.push ls } := by
  induction ls generalizing v with
  | nil =>
    obtain ⟨defs, closed, current⟩ := v
    cases current <;> simp [DumpBlock.push]
  | cons l ls ih =>
    have hcons : v.follow cfg ((l :: ls).map .row)
        = (v.onObs cfg (.row l)).follow cfg (ls.map .row) := rfl
    rw [hcons, ih]
    obtain ⟨defs, closed, current⟩ := v
    cases current <;> simp [onObs, DumpBlock.push]

theorem Extends.refl (v : Script) : v.Extends v :=
  ⟨List.prefix_refl _, fun _ b h => ⟨b, h, .refl b⟩⟩

theorem Extends.trans {u v w : Script} (h : u.Extends v) (h' : v.Extends w) : u.Extends w where
  closed := h.closed.trans h'.closed
  blocks g b hb := by
    obtain ⟨b', hb', hbegins⟩ := h.blocks g b hb
    obtain ⟨b'', hb'', hbegins'⟩ := h'.blocks g b' hb'
    exact ⟨b'', hb'', hbegins.trans hbegins'⟩

/-- Blocks stay where they are when others come behind them. -/
theorem extends_of_prefix {v v' : Script} (hclosed : v.closed <+: v'.closed)
    (h : v.blocks <+: v'.blocks) : v.Extends v' where
  closed := hclosed
  blocks g b hb := by
    obtain ⟨more, hmore⟩ := h
    refine ⟨b, ?_, .refl b⟩
    rw [← hmore, List.getElem?_append_left (List.getElem?_eq_some_iff.mp hb).1, hb]

theorem extends_onObs (v : Script) (o : Obs) : v.Extends (v.onObs cfg o) := by
  cases o with
  | row line =>
    refine ⟨List.prefix_refl _, ?_⟩
    intro g b hb
    obtain ⟨defs, closed, current⟩ := v
    cases current with
    | none => exact ⟨b, hb, .refl b⟩
    | some last =>
      simp only [blocks, onObs, Option.map_some, Option.toList_some] at hb ⊢
      rcases lt_or_ge g closed.length with hg | hg
      · rw [List.getElem?_append_left hg] at hb ⊢
        exact ⟨b, hb, .refl b⟩
      · rw [List.getElem?_append_right hg] at hb ⊢
        obtain ⟨hzero, hlast⟩ : g - closed.length = 0 ∧ last = b := by
          rw [List.getElem?_singleton] at hb
          split at hb
          next hzero => exact ⟨hzero, Option.some.inj hb⟩
          next => cases hb
        rw [hzero]
        subst hlast
        exact ⟨_, rfl, ⟨rfl, rfl, List.prefix_append _ _⟩⟩
  | event e =>
    have hblocks : v.closed <+: v.blocks := List.prefix_append _ _
    cases e with
    | copyStart table names =>
      exact extends_of_prefix hblocks (List.prefix_append _ _)
    | copyEnd table =>
      exact extends_of_prefix hblocks (List.prefix_append _ _)
    | _ => exact extends_of_prefix (List.prefix_refl _) (List.prefix_refl _)

theorem extends_follow (v : Script) (obs : List Obs) : v.Extends (v.follow cfg obs) := by
  induction obs generalizing v with
  | nil => exact .refl v
  | cons o obs ih => exact (v.extends_onObs o).trans (ih (v.onObs cfg o))

end Script

/-- What is read of a stream goes on with what is read of a longer one. -/
theorem script_extends (cfg : LoadConfig) {as bs : List Obs} (h : as <+: bs) :
    (script cfg as).Extends (script cfg bs) := by
  obtain ⟨more, rfl⟩ := h
  simp only [script, Script.follow_append]
  exact Script.extends_follow _ _

/-! ### Chunks that cut no line -/

/-- The chunks end behind newlines, but for the last one. -/
def LineAligned (chunks : List Bytes) : Prop :=
  ∀ c ∈ chunks.dropLast, c = [] ∨ c.getLast? = some newline

instance (chunks : List Bytes) : Decidable (LineAligned chunks) :=
  inferInstanceAs (Decidable (∀ c ∈ chunks.dropLast, _))

theorem LineAligned.of_append {cs ds : List Bytes} (h : LineAligned (cs ++ ds)) :
    LineAligned cs := by
  intro c hc
  apply h
  cases ds with
  | nil => simpa using hc
  | cons d ds =>
    rw [List.dropLast_append_cons]
    exact List.mem_append_left _ (List.dropLast_subset _ hc)

/-- What the scanner shows of whole lines does not depend on the chunks. -/
theorem runLines_of_aligned {schemas : List String} {chunks : List Bytes} {s : Scanner}
    {events : List Event} (haligned : LineAligned chunks)
    (h : (Scanner.new.setExcludedSchemas schemas).feedAll chunks = .ok (s, events)) :
    ∃ t, (Scanner.new.setExcludedSchemas schemas).runLines
      (Scanner.uncut (lines newline chunks.flatten).1) =
        .ok (t, observe events) ∧
      s = { t with pending := (lines newline chunks.flatten).2 } := by
  obtain ⟨t, hrun, hs⟩ := Scanner.feedAll_new h
  rw [cutLines_aligned newline chunks haligned] at hrun
  exact ⟨t, hrun, hs⟩

/-- The first chunks of a dump show the beginning of what the dump shows when it
arrives as a whole. All of them leave the scanner in the same state. -/
theorem observe_prefix {schemas : List String} {cs ds : List Bytes} {s t : Scanner}
    {es fs : List Event} (haligned : LineAligned (cs ++ ds))
    (hs : (Scanner.new.setExcludedSchemas schemas).feedAll cs = .ok (s, es))
    (ht : (Scanner.new.setExcludedSchemas schemas).feedAll [(cs ++ ds).flatten] = .ok (t, fs)) :
    observe es <+: observe fs ∧ (ds = [] → observe es = observe fs ∧ s = t) := by
  obtain ⟨s', hrun, rfl⟩ := runLines_of_aligned haligned.of_append hs
  obtain ⟨t', hrun', rfl⟩ := runLines_of_aligned (by simp [LineAligned]) ht
  simp only [List.flatten_cons, List.flatten_nil, List.append_nil, List.flatten_append] at hrun' ⊢
  refine ⟨?_, ?_⟩
  · have hlines : (lines newline cs.flatten).1
      <+: (lines newline (cs.flatten ++ ds.flatten)).1 := by
      rw [lines_append]
      exact List.prefix_append _ _
    obtain ⟨more, hmore⟩ := hlines
    rw [← hmore, Scanner.uncut, List.map_append] at hrun'
    obtain ⟨s₁, obs₁, obs₂, hrun₁, -, hobs⟩ := Scanner.runLines_append_ok hrun'
    rw [Scanner.uncut, hrun₁] at hrun
    obtain ⟨rfl, rfl⟩ := Prod.mk.inj (Except.ok.inj hrun)
    rw [hobs]
    exact List.prefix_append _ _
  · rintro rfl
    simp only [List.flatten_nil, List.append_nil] at hrun' ⊢
    rw [hrun'] at hrun
    obtain ⟨rfl, hobs⟩ := Prod.mk.inj (Except.ok.inj hrun)
    exact ⟨hobs.symm, rfl⟩

end PgDelta.Pipeline
