import PgDelta.Anonymise.Arrays
import PgDelta.Anonymise.Rewriting
import PgDelta.Copy.WellFormed
import PgDelta.Pipeline.Acceptance

/-!
The rows of a rewritten dump.

A row is rewritten field by field. It stays one line that ends no block, and its
fields are NULL where they were. It is read again where each of its fields
survives in its column.
-/

namespace PgDelta.Anonymise

open PgDelta.Lib PgDelta.Copy PgDelta.Builders PgDelta.Types PgDelta.Pipeline

/-! ### Fields -/

/-- A byte that separates or escapes: none of them comes anew. -/
def Structural (c : UInt8) : Prop := carriedByte c = some c ∧ ¬Printable c

/-- A field and what is written for it, as far as a row is concerned. -/
structure Rebuilt (a b : Bytes) : Prop where
  length : b.length ≤ a.length
  mem : ∀ c, Structural c → c ∈ b → c ∈ a
  pair : ∀ c, b = [backslash, c] → a = b
  last : ∀ c, Structural c → b.getLast? = some c → a.getLast? = some c

theorem Rebuilt.refl (a : Bytes) : Rebuilt a a :=
  ⟨le_rfl, fun _ _ => id, fun _ _ => rfl, fun _ _ => id⟩

theorem Replaced.rebuilt {a b : Bytes} (h : Replaced a b) : Rebuilt a b where
  length := h.length_eq.le
  mem c hc := h.mem hc.1
  pair c hb := by
    subst hb
    exact h.eq_pair
  last c hc := h.getLast hc.1

theorem Made.rebuilt {noise : Noise} {kind : FieldKind} {a b : Bytes} (h : Made noise kind a b) :
    Rebuilt a b where
  length := h.spec.1
  mem c hc hmem := absurd (h.spec.2 c hmem) hc.2
  pair c hb := absurd rfl (h.spec.2 backslash (by simp [hb])).2.2
  last c hc hlast := absurd (h.spec.2 c (List.mem_of_getLast? hlast)) hc.2

theorem Tool.rebuild_rebuilt (synth : Synth) (table : String) (row index : ℕ) (field : Bytes) :
    Rebuilt field (rebuild synth table row index field) := by
  unfold rebuild
  split_ifs with hnull
  · exact .refl field
  · obtain ⟨noise, hmade | ⟨-, hreplaced⟩⟩ := synth.field_cases table index row field
    · exact hmade.rebuilt
    · exact hreplaced.rebuilt

/-! ### Rows -/

theorem forall₂_mapIdx {α β : Type*} {R : α → β → Prop} {f : ℕ → α → β} (h : ∀ i x, R x (f i x))
    (xs : List α) : List.Forall₂ R xs (xs.mapIdx f) := by
  induction xs generalizing f with
  | nil => exact .nil
  | cons x xs ih =>
      rw [List.mapIdx_cons]
      exact .cons (h 0 x) (ih fun i y => h (i + 1) y)

/-- The last byte of a row, unless it is a tab, is that of its last field. -/
theorem getLast?_intercalate {c : UInt8} (hc : c ≠ tab) (init : List Bytes) (last : Bytes) :
    ([tab].intercalate (init ++ [last])).getLast? = some c ↔ last.getLast? = some c := by
  induction init with
  | nil => rw [List.nil_append, List.intercalate_singleton]
  | cons a init ih =>
      rw [List.cons_append, List.intercalate_cons_of_ne_nil (by simp), ← ih, List.append_assoc,
        List.getLast?_append_of_ne_nil _ (by simp), List.singleton_append, List.getLast?_cons]
      cases ([tab].intercalate (init ++ [last])).getLast? with
      | none => simpa using Ne.symm hc
      | some d => simp

theorem length_intercalate_le {fs gs : List Bytes} (h : List.Forall₂ Rebuilt fs gs) :
    ([tab].intercalate gs).length ≤ ([tab].intercalate fs).length := by
  induction h with
  | nil => exact le_rfl
  | @cons f g fs gs hfg h ih =>
      have hlen := hfg.length
      cases h with
      | nil => simpa using hlen
      | cons hfg' h =>
          rw [List.intercalate_cons_cons, List.intercalate_cons_cons]
          simp only [List.length_append] at ih ⊢
          omega

/-- A field of a row holds bytes of the row, and no tab. -/
theorem mem_splitOn {row field : Bytes} (h : field ∈ row.splitOn tab) :
    tab ∉ field ∧ ∀ c ∈ field, c ∈ row := by
  induction hn : row.length using Nat.strong_induction_on generalizing row with
  | h n ih =>
      by_cases htab : tab ∈ row
      · obtain ⟨a, t, rfl, ha⟩ := List.eq_append_cons_of_mem htab
        rw [List.splitOn_append_cons_self_of_not_mem ha] at h
        rcases List.mem_cons.1 h with rfl | h
        · exact ⟨ha, fun c hc => List.mem_append_left _ hc⟩
        · have hlen : t.length < n := by
            rw [← hn, List.length_append, List.length_cons]
            omega
          obtain ⟨hfree, hmem⟩ := ih t.length hlen h rfl
          exact ⟨hfree, fun c hc => List.mem_append_right _ (List.mem_cons_of_mem _ (hmem c hc))⟩
      · rw [List.splitOn_eq_singleton htab] at h
        obtain rfl := List.mem_singleton.1 h
        exact ⟨htab, fun c => id⟩

theorem exists_left_of_forall₂ {α β : Type*} {R : α → β → Prop} {xs : List α} {ys : List β}
    (h : List.Forall₂ R xs ys) {y : β} (hy : y ∈ ys) : ∃ x ∈ xs, R x y := by
  induction h with
  | nil => cases hy
  | cons hxy h ih =>
      rcases List.mem_cons.1 hy with rfl | hy
      · exact ⟨_, List.mem_cons_self, hxy⟩
      · obtain ⟨x, hx, hxy⟩ := ih hy
        exact ⟨x, List.mem_cons_of_mem _ hx, hxy⟩

theorem structural_tab : Structural tab := ⟨by decide, by decide⟩

theorem structural_newline : Structural newline := ⟨by decide, by decide⟩

theorem structural_carriageReturn : Structural carriageReturn := ⟨by decide, by decide⟩

/-- The fields of a row and those of a row written for it. -/
structure RebuiltRow (row row' : Bytes) : Prop where
  fields : List.Forall₂ Rebuilt (row.splitOn tab) (row'.splitOn tab)
  length : row'.length ≤ row.length

theorem RebuiltRow.of_fields {row : Bytes} {gs : List Bytes}
    (h : List.Forall₂ Rebuilt (row.splitOn tab) gs) :
    ([tab].intercalate gs).splitOn tab = gs ∧ RebuiltRow row ([tab].intercalate gs) := by
  have hfree : ∀ g ∈ gs, tab ∉ g := by
    intro g hg hmem
    obtain ⟨f, hf, hfg⟩ := exists_left_of_forall₂ h hg
    exact (mem_splitOn hf).1 (hfg.mem tab structural_tab hmem)
  have hne : gs ≠ [] := by
    rintro rfl
    exact List.splitOn_ne_nil tab row (List.forall₂_nil_right_iff.1 h)
  have hsplit := List.splitOn_intercalate tab hfree hne
  refine ⟨hsplit, ?_, ?_⟩
  · rwa [hsplit]
  · have hlen := length_intercalate_le h
    rwa [List.intercalate_splitOn] at hlen

theorem exists_field_of_mem {row : Bytes} {c : UInt8} (hc : c ≠ tab) (h : c ∈ row) :
    ∃ field ∈ row.splitOn tab, c ∈ field := by
  induction hn : row.length using Nat.strong_induction_on generalizing row with
  | h n ih =>
      by_cases htab : tab ∈ row
      · obtain ⟨a, t, rfl, ha⟩ := List.eq_append_cons_of_mem htab
        rw [List.splitOn_append_cons_self_of_not_mem ha]
        rcases List.mem_append.1 h with h | h
        · exact ⟨a, List.mem_cons_self, h⟩
        · have hlen : t.length < n := by
            rw [← hn, List.length_append, List.length_cons]
            omega
          obtain ⟨field, hfield, hmem⟩ := ih t.length hlen ((List.mem_cons.1 h).resolve_left hc) rfl
          exact ⟨field, List.mem_cons_of_mem _ hfield, hmem⟩
      · exact ⟨row, by simp [List.splitOn_eq_singleton htab], h⟩

theorem getLast?_row {c : UInt8} (hc : c ≠ tab) (row : Bytes) :
    row.getLast? = some c ↔
      ∃ field, (row.splitOn tab).getLast? = some field ∧ field.getLast? = some c := by
  obtain hnil | ⟨init, last, hsplit⟩ := List.eq_nil_or_concat (row.splitOn tab)
  · exact absurd hnil (List.splitOn_ne_nil tab row)
  · have hjoin : [tab].intercalate (row.splitOn tab) = row := List.intercalate_splitOn tab
    rw [List.concat_eq_append] at hsplit
    rw [hsplit] at hjoin ⊢
    rw [← hjoin, getLast?_intercalate hc, List.getLast?_concat]
    simp

theorem exists_left_getLast {α β : Type*} {R : α → β → Prop} {xs : List α} {ys : List β}
    (h : List.Forall₂ R xs ys) {y : β} (hy : ys.getLast? = some y) :
    ∃ x, xs.getLast? = some x ∧ R x y := by
  induction h with
  | nil => cases hy
  | @cons x y' xs ys hxy h ih =>
      cases h with
      | nil =>
          obtain rfl : y' = y := by simpa using hy
          exact ⟨x, rfl, hxy⟩
      | cons hxy' h =>
          obtain ⟨x', hx', hxy'⟩ := ih (by simpa using hy)
          exact ⟨x', by simpa using hx', hxy'⟩

theorem Tool.rebuildRow_rebuilt (synth : Synth) (table : String) (rowIndex : ℕ) (row : Bytes) :
    (rebuildRow synth table rowIndex row).splitOn tab
        = (row.splitOn tab).mapIdx (rebuild synth table rowIndex)
      ∧ RebuiltRow row (rebuildRow synth table rowIndex row) :=
  RebuiltRow.of_fields (forall₂_mapIdx (rebuild_rebuilt synth table rowIndex) (row.splitOn tab))

namespace RebuiltRow

variable {row row' : Bytes}

theorem plain (h : RebuiltRow row row') (hrow : PlainLine row) : PlainLine row' := by
  constructor
  · intro hmem
    obtain ⟨g, hg, hmem⟩ := exists_field_of_mem (by decide) hmem
    obtain ⟨f, hf, hfg⟩ := exists_left_of_forall₂ h.fields hg
    exact hrow.1 ((mem_splitOn hf).2 _ (hfg.mem _ structural_newline hmem))
  · intro hlast
    apply hrow.2
    rw [getLast?_row (by decide)] at hlast ⊢
    obtain ⟨g, hg, hlast⟩ := hlast
    obtain ⟨f, hf, hfg⟩ := exists_left_getLast h.fields hg
    exact ⟨f, hf, hfg.last _ structural_carriageReturn hlast⟩

/-- No row becomes the end of its block. -/
theorem eq_endOfData (h : RebuiltRow row row') (hend : row' = endOfData) : row = endOfData := by
  subst hend
  have hfields := h.fields
  rw [List.splitOn_eq_singleton (show tab ∉ endOfData by decide)] at hfields
  obtain ⟨f, fs, hf, hfs, hsplit⟩ := List.forall₂_cons_right_iff.1 hfields
  obtain rfl := List.forall₂_nil_right_iff.1 hfs
  have hjoin : [tab].intercalate (row.splitOn tab) = row := List.intercalate_splitOn tab
  rw [hsplit, List.intercalate_singleton] at hjoin
  rw [← hjoin]
  exact hf.pair 46 rfl

end RebuiltRow

/-! ### Values -/

/-- What a field of a row is decoded to. -/
def Shows (piece : Bytes) (value : Option Bytes) : Prop :=
  if piece = nullMarker then value = none else ∃ v, resolve piece = .ok v ∧ value = some v

theorem Shows.unique {piece : Bytes} {value value' : Option Bytes} (h : Shows piece value)
    (h' : Shows piece value') : value = value' := by
  unfold Shows at h h'
  split_ifs at h h' with hnull
  · rw [h, h']
  · obtain ⟨v, hv, rfl⟩ := h
    obtain ⟨w, hw, rfl⟩ := h'
    rw [Except.ok.inj (hv.symm.trans hw)]

theorem shows_of_tiles {scratch : Bytes} {start : ℕ} {pieces : List Bytes}
    {out : List (Option Range)} (h : Tiles scratch start pieces out) :
    List.Forall₂ Shows pieces (Copy.values (scratch, out)) := by
  induction pieces generalizing start out with
  | nil =>
      cases out with
      | nil => exact .nil
      | cons r out => exact h.elim
  | cons piece pieces ih =>
      cases out with
      | nil => exact h.elim
      | cons r out =>
          cases r with
          | none =>
              obtain ⟨hnull, h⟩ := h
              exact .cons (by rw [Shows, if_pos hnull]; rfl) (ih h)
          | some r =>
              obtain ⟨hnull, -, ⟨v, hindex, hv⟩, h⟩ := h
              refine .cons ?_ (ih h)
              rw [Shows, if_neg hnull]
              refine ⟨v, hv, ?_⟩
              unfold Range.index at hindex
              split_ifs at hindex
              exact hindex

theorem shows_of_decodeRow {row : Bytes} {expected : ℕ} {limits : Limits}
    {decoded : Bytes × List (Option Range)} (h : decodeRow row expected limits = .ok decoded) :
    List.Forall₂ Shows (row.splitOn tab) (Copy.values decoded) :=
  shows_of_tiles (decodeRow_ok h).2

/-- Rows that show values are told apart by them. -/
theorem shows_unique {pieces : List Bytes} {values values' : List (Option Bytes)}
    (h : List.Forall₂ Shows pieces values) (h' : List.Forall₂ Shows pieces values') :
    values = values' := by
  induction h generalizing values' with
  | nil => exact (List.forall₂_nil_left_iff.1 h').symm
  | cons hshows h ih =>
      obtain ⟨value', rest, hvalue', hrest, rfl⟩ := List.forall₂_cons_left_iff.1 h'
      rw [hshows.unique hvalue', ih hrest]

/-! ### Columns -/

variable {cfg : LoadConfig}

def columnBuilder (cfg : LoadConfig) (c : String × ResolvedType) : ColumnBuilder :=
  ColumnBuilder.new c.2 cfg.wideNumericAsDecimal cfg.nativeArrays

def Readable (cfg : LoadConfig) (c : String × ResolvedType) (value : Option Bytes) : Prop :=
  ∃ r, (columnBuilder cfg c).read value c.1 = .ok r

theorem held_scalarKind (rt : ResolvedType) (wide : Bool) : Held (scalarKind rt wide) := by
  have hdecimal : ∀ precision scale, Held (decimalKind precision scale) := by
    intro precision scale
    unfold decimalKind
    split_ifs with hfits
    · exact hfits.2.1
    · trivial
  unfold scalarKind
  cases rt.pg with
  | numeric precision scale =>
      dsimp only
      split_ifs
      · exact hdecimal _ _
      · trivial
      · exact hdecimal _ _
  | _ => trivial

theorem held_columnBuilder (cfg : LoadConfig) (c : String × ResolvedType) :
    HeldColumn (columnBuilder cfg c) := by
  unfold columnBuilder ColumnBuilder.new
  split_ifs
  · exact held_scalarKind _ _
  · trivial
  · exact held_scalarKind _ _

/-- A field that its column reads whatever it is replaced by. -/
def FieldSurvives (cfg : LoadConfig) (c : String × ResolvedType) (raw : Bytes) : Prop :=
  raw = nullMarker ∨ ∀ v, resolve raw = .ok v → ColumnSurvives (columnBuilder cfg c) c.1 raw v

/-- A row all of whose fields survive in their columns. -/
def RowSurvives (cfg : LoadConfig) (columns : List (String × ResolvedType)) (row : Bytes) : Prop :=
  List.Forall₂ (FieldSurvives cfg) columns (row.splitOn tab)

theorem FieldSurvives.rebuild {c : String × ResolvedType} {raw : Bytes} {value : Option Bytes}
    (h : FieldSurvives cfg c raw) (hvalue : Shows raw value) (hread : Readable cfg c value)
    (synth : Synth) (table : String) (row index : ℕ) :
    ∃ value', Shows (Tool.rebuild synth table row index raw) value' ∧ Readable cfg c value'
      ∧ value'.isNone = value.isNone := by
  by_cases hnull : raw = nullMarker
  · rw [Tool.rebuild, if_pos hnull]
    exact ⟨value, hvalue, hread, rfl⟩
  · rw [Shows, if_neg hnull] at hvalue
    obtain ⟨v, hv, rfl⟩ := hvalue
    obtain ⟨w, hw, hreadw⟩ := (h.resolve_left hnull v hv).read (held_columnBuilder cfg c) hv hread
      synth table index row
    have hrebuild : Tool.rebuild synth table row index raw = synth.field table index row raw :=
      if_neg hnull
    have hne : synth.field table index row raw ≠ nullMarker := by
      intro heq
      rw [← hrebuild] at heq
      have hsame := (Tool.rebuild_rebuilt synth table row index raw).pair 78 heq
      exact hnull (hsame.trans heq)
    refine ⟨some w, ?_, hreadw, rfl⟩
    rw [hrebuild, Shows, if_neg hne]
    exact ⟨w, hw, rfl⟩

theorem rebuild_fields {columns : List (String × ResolvedType)} {pieces : List Bytes}
    {values : List (Option Bytes)} {f : ℕ → Bytes → Bytes}
    (hf : ∀ index c raw value, FieldSurvives cfg c raw → Shows raw value → Readable cfg c value →
      ∃ value', Shows (f index raw) value' ∧ Readable cfg c value' ∧ value'.isNone = value.isNone)
    (h : List.Forall₂ (FieldSurvives cfg) columns pieces)
    (hshows : List.Forall₂ Shows pieces values)
    (hread : List.Forall₂ (Readable cfg) columns values) :
    ∃ values', List.Forall₂ Shows (pieces.mapIdx f) values'
      ∧ List.Forall₂ (Readable cfg) columns values'
      ∧ values'.map Option.isNone = values.map Option.isNone := by
  induction h generalizing values f with
  | nil =>
      obtain rfl := List.forall₂_nil_left_iff.1 hshows
      exact ⟨[], .nil, .nil, rfl⟩
  | @cons c raw columns pieces hsurvives h ih =>
      obtain ⟨value, values, hvalue, hvalues, rfl⟩ := List.forall₂_cons_left_iff.1 hshows
      obtain ⟨hone, hrest⟩ := List.forall₂_cons.1 hread
      obtain ⟨value', hshows', hread', hnone⟩ := hf 0 c raw value hsurvives hvalue hone
      obtain ⟨values', hshowsRest, hreadRest, hnones⟩ :=
        ih (fun index => hf (index + 1)) hvalues hrest
      refine ⟨value' :: values', ?_, .cons hread' hreadRest, by simp [hnone, hnones]⟩
      rw [List.mapIdx_cons]
      exact .cons hshows' hshowsRest

theorem readCells_iff (columns : List (String × ResolvedType)) (values : List (Option Bytes))
    (hlen : values.length = columns.length) :
    (∃ cells, BatchBuilder.readCells (columns.map (columnBuilder cfg)) (columns.map Prod.fst)
      values = .ok cells) ↔ List.Forall₂ (Readable cfg) columns values := by
  induction columns generalizing values with
  | nil =>
      obtain rfl := List.eq_nil_of_length_eq_zero hlen
      exact ⟨fun _ => .nil, fun _ => ⟨[], rfl⟩⟩
  | cons c columns ih =>
      obtain ⟨value, values, rfl⟩ := List.exists_cons_of_length_eq_add_one hlen
      rw [List.forall₂_cons, ← ih values (by simpa using hlen), List.map_cons, List.map_cons,
        BatchBuilder.readCells, Readable]
      cases (columnBuilder cfg c).read value c.1 with
      | error e => simp
      | ok r =>
          dsimp only
          cases BatchBuilder.readCells (columns.map (columnBuilder cfg)) (columns.map Prod.fst)
            values with
          | error e => simp
          | ok cells => simp

/-- The values of a row of a block are there where it is well formed and its
fields show values that the columns read. -/
theorem valuesOf_iff (b : ReadBlock) (row : Bytes) (values : List (Option Bytes)) :
    (Loader.ctx cfg b).valuesOf row = .ok values ↔
      WellFormed row b.columns.length cfg.limits ∧ List.Forall₂ Shows (row.splitOn tab) values ∧
        List.Forall₂ (Readable cfg) b.columns values := by
  have harity : (Loader.ctx cfg b).arity = b.columns.length := rfl
  have hlimits : (Loader.ctx cfg b).limits = cfg.limits := rfl
  have hcells := fun values hlen => @readCells_iff cfg b.columns values hlen
  unfold BlockCtx.valuesOf
  rw [harity, hlimits]
  cases hdecode : decodeRow row b.columns.length cfg.limits with
  | error e =>
      constructor
      · intro h
        cases h
      · intro h
        obtain ⟨decoded, hok⟩ := h.1.decodeRow
        rw [hdecode] at hok
        cases hok
  | ok decoded =>
      obtain ⟨hformed, -⟩ := decodeRow_ok hdecode
      have hshows := shows_of_decodeRow hdecode
      have hlen : (Copy.values decoded).length = b.columns.length := by
        rw [← hshows.length_eq, hformed.count]
      have hcells := hcells _ hlen
      have hbuilder : BatchBuilder.readCells (Loader.ctx cfg b).builder.columns
          (Loader.ctx cfg b).builder.names (Copy.values decoded) = BatchBuilder.readCells
            (b.columns.map (columnBuilder cfg)) (b.columns.map Prod.fst) (Copy.values decoded) :=
        rfl
      dsimp only
      rw [hbuilder]
      constructor
      · intro h
        cases hread : BatchBuilder.readCells (b.columns.map (columnBuilder cfg))
            (b.columns.map Prod.fst) (Copy.values decoded) with
        | error e => simp [hread] at h
        | ok cells =>
            rw [hread] at h
            obtain rfl := Except.ok.inj h
            exact ⟨hformed, hshows, hcells.1 ⟨cells, hread⟩⟩
      · rintro ⟨-, hvalues, hread⟩
        obtain rfl := shows_unique hshows hvalues
        obtain ⟨cells, hcells⟩ := hcells.2 hread
        rw [hcells]

/-- A row that survives is read when it is rewritten, with NULL where it was. -/
theorem valuesOf_rebuildRow {b : ReadBlock} {row : Bytes} {values : List (Option Bytes)}
    (h : RowSurvives cfg b.columns row) (hrow : (Loader.ctx cfg b).valuesOf row = .ok values)
    (synth : Synth) (table : String) (rowIndex : ℕ) :
    ∃ values', (Loader.ctx cfg b).valuesOf (Tool.rebuildRow synth table rowIndex row) = .ok values'
      ∧ values'.map Option.isNone = values.map Option.isNone := by
  obtain ⟨hformed, hshows, hread⟩ := (valuesOf_iff b row values).1 hrow
  obtain ⟨hsplit, hrebuilt⟩ := Tool.rebuildRow_rebuilt synth table rowIndex row
  obtain ⟨values', hshows', hread', hnone⟩ := rebuild_fields
    (f := Tool.rebuild synth table rowIndex) (fun index c raw value hsurvives hvalue hone =>
      hsurvives.rebuild hvalue hone synth table rowIndex index) h hshows hread
  rw [← hsplit] at hshows'
  refine ⟨values', (valuesOf_iff b _ values').2 ⟨⟨?_, ?_, hformed.columns, ?_, ?_⟩, hshows',
    hread'⟩, hnone⟩
  · exact hrebuilt.length.trans hformed.size
  · rw [← hrebuilt.fields.length_eq, hformed.count]
  · intro piece hpiece
    obtain ⟨raw, hraw, hpair⟩ := exists_left_of_forall₂ hrebuilt.fields hpiece
    exact hpair.length.trans (hformed.field raw hraw)
  · intro piece hpiece hnull
    obtain ⟨value, -, hvalue⟩ := exists_left_of_forall₂ hshows'.flip hpiece
    have hshown : Shows piece value := hvalue
    rw [Shows, if_neg hnull] at hshown
    obtain ⟨v, hv, -⟩ := hshown
    exact ⟨v, hv⟩

end PgDelta.Anonymise
