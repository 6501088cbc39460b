import PgDelta.Types.Builders

/-!
What the builders accumulate, as rows.

`ColumnBuilder.read` is what one value becomes in a column, whatever the
builder already holds. Appending a row adds the row that `read` gives for its
values, and finishing a batch moves the accumulated rows into it.
-/

namespace PgDelta.Builders

open PgDelta.Lib PgDelta.Types PgDelta.Values

/-! ### One column -/

theorem ScalarBuilder.append_spec {b b' : ScalarBuilder} {value : Option Bytes} {column : String}
    {s : Bool} (h : b.append value column = .ok (b', s)) :
    ∃ v, b' = { b with values := b.values ++ [v] } ∧
      ∀ values, ScalarBuilder.append ⟨b.kind, values⟩ value column =
        .ok (⟨b.kind, values ++ [v]⟩, s) := by
  cases value with
  | none =>
    simp only [ScalarBuilder.append, Except.ok.injEq, Prod.mk.injEq] at h
    obtain ⟨rfl, rfl⟩ := h
    exact ⟨none, rfl, fun _ => rfl⟩
  | some v =>
    simp only [ScalarBuilder.append] at h
    cases hp : b.kind.parse v column with
    | error e => simp [hp] at h
    | ok parsed =>
      simp only [hp, Except.ok.injEq, Prod.mk.injEq] at h
      obtain ⟨rfl, rfl⟩ := h
      exact ⟨parsed, rfl, fun _ => by simp [ScalarBuilder.append, hp]⟩

theorem ScalarBuilder.appendAll_spec {column : String} {b b' : ScalarBuilder}
    {vs : List (Option Bytes)} {s s' : Bool} (h : b.appendAll column vs s = .ok (b', s')) :
    ∃ added, added.length = vs.length ∧ b' = { b with values := b.values ++ added } ∧
      ∀ values, ScalarBuilder.appendAll column ⟨b.kind, values⟩ vs s =
        .ok (⟨b.kind, values ++ added⟩, s') := by
  induction vs generalizing b s with
  | nil =>
    simp only [appendAll, Except.ok.injEq, Prod.mk.injEq] at h
    obtain ⟨rfl, rfl⟩ := h
    exact ⟨[], rfl, by simp, fun _ => by simp [appendAll]⟩
  | cons v vs ih =>
    simp only [appendAll] at h
    cases ha : b.append v column with
    | error e => simp [ha] at h
    | ok r =>
      obtain ⟨b₁, s₁⟩ := r
      simp only [ha] at h
      obtain ⟨x, rfl, hx⟩ := append_spec ha
      obtain ⟨added, hlen, hb, hadd⟩ := ih h
      refine ⟨x :: added, by simp [hlen], by simp [hb], fun values => ?_⟩
      simp only [appendAll, hx]
      simpa using hadd (values ++ [x])

theorem slice_append_of_le {α : Type*} {s t : List α} {a b : ℕ} (h : b ≤ s.length) :
    slice (s ++ t) a b = slice s a b := by
  simp [slice, List.take_append_of_le_length h]

theorem slice_append_right {α : Type*} (s t : List α) :
    slice (s ++ t) s.length (s.length + t.length) = t := by
  have h : (s ++ t).take (s.length + t.length) = s ++ t := List.take_of_length_le (by simp)
  simp [slice, h]

theorem length_listCells (items : List (Option Value)) :
    ∀ (offsets : List ℕ) (validity : List Bool), offsets.length = validity.length + 1 →
      (listCells items offsets validity).length = validity.length
  | [_], [], _ => rfl
  | _ :: b :: offsets, _ :: validity, h => by
    simp only [listCells, List.length_cons]
    rw [length_listCells items (b :: offsets) validity (by simpa using h)]
  | [], _, h => by simp at h
  | [_], _ :: _, h => by simp at h
  | _ :: _ :: _, [], h => by simp at h

/-- Items behind the last offset are not looked at. -/
theorem listCells_append_items (items more : List (Option Value)) :
    ∀ (offsets : List ℕ) (validity : List Bool), (∀ a ∈ offsets, a ≤ items.length) →
      listCells (items ++ more) offsets validity = listCells items offsets validity
  | a :: b :: offsets, valid :: validity, h => by
    simp only [listCells]
    rw [slice_append_of_le (h b (by simp)),
      listCells_append_items items more (b :: offsets) validity
        (fun a ha => h a (List.mem_cons_of_mem _ ha))]
  | [], _, _ => rfl
  | [_], _, _ => by simp [listCells]
  | _ :: _ :: _, [], _ => by simp [listCells]

/-- One more offset is one more cell. -/
theorem listCells_snoc (items : List (Option Value)) (last : ℕ) (next : ℕ) (valid : Bool) :
    ∀ (offsets : List ℕ) (validity : List Bool), offsets.length = validity.length + 1 →
      offsets.getLast?.getD 0 = last →
      listCells items (offsets ++ [next]) (validity ++ [valid]) =
        listCells items offsets validity ++ [if valid then .list (slice items last next) else .null]
  | [a], [], _, h => by
    have h : a = last := by simpa using h
    simp [listCells, h]
  | a :: b :: offsets, v :: validity, hlen, h => by
    have ih := listCells_snoc items last next valid (b :: offsets) validity (by simpa using hlen)
      (by simpa [List.getLast?_cons_cons] using h)
    simp only [List.cons_append] at ih
    simp only [List.cons_append, listCells, ih]
  | [], _, hlen, _ => by simp at hlen
  | [_], _ :: _, hlen, _ => by simp at hlen
  | _ :: _ :: _, [], hlen, _ => by simp at hlen

namespace ColumnBuilder

/-- The cells accumulated since the last `finish`. -/
def cells : ColumnBuilder → List Cell
  | .scalar b => b.values.map Cell.ofOption
  | .list element offsets validity => listCells element.values offsets validity

def Agrees : ColumnBuilder → Prop
  | .scalar _ => True
  | .list element offsets validity =>
    offsets.length = validity.length + 1 ∧ offsets.getLast?.getD 0 = element.values.length ∧
      ∀ a ∈ offsets, a ≤ element.values.length

/-- The builder as it was made. -/
def blank : ColumnBuilder → ColumnBuilder
  | .scalar b => .scalar ⟨b.kind, []⟩
  | .list element _ _ => .list ⟨element.kind, []⟩ [0] []

/-- The type of the arrays that the builder finishes. -/
def dataType : ColumnBuilder → DataType
  | .scalar b => b.kind.dataType
  | .list element _ _ => .list element.kind.dataType

/-- What one value becomes in the column, and whether NULL stands for a value
that was not null. -/
def read (c : ColumnBuilder) (value : Option Bytes) (column : String) :
    Except Error (Cell × Bool) :=
  match c.blank.append value column with
  | .error e => .error e
  | .ok (c, substituted) => .ok ((c.cells[0]?).getD .null, substituted)

@[simp] theorem blank_blank (c : ColumnBuilder) : c.blank.blank = c.blank := by
  cases c <;> rfl

@[simp] theorem cells_blank (c : ColumnBuilder) : c.blank.cells = [] := by
  cases c <;> rfl

@[simp] theorem dataType_blank (c : ColumnBuilder) : c.blank.dataType = c.dataType := by
  cases c <;> rfl

theorem agrees_blank (c : ColumnBuilder) : c.blank.Agrees := by
  cases c with
  | scalar b => trivial
  | list element offsets validity => simp [blank, Agrees]

theorem read_congr {c d : ColumnBuilder} (h : c.blank = d.blank) (value : Option Bytes)
    (column : String) : c.read value column = d.read value column := by
  simp [read, h]

theorem new_blank (rt : ResolvedType) (wide native : Bool) :
    (new rt wide native).blank = new rt wide native := by
  unfold new
  split
  · split <;> rfl
  · rfl

/-- Appending adds the cell that `read` gives. -/
theorem append_spec {c c' : ColumnBuilder} {value : Option Bytes} {column : String} {s : Bool}
    (hc : c.Agrees) (h : c.append value column = .ok (c', s)) :
    ∃ cell, c.read value column = .ok (cell, s) ∧ c'.cells = c.cells ++ [cell] ∧
      c'.blank = c.blank ∧ c'.Agrees := by
  cases c with
  | scalar b =>
    cases ha : b.append value column with
    | error e => simp [append, ha] at h
    | ok r =>
      obtain ⟨b₁, s₁⟩ := r
      simp only [append, ha, Except.ok.injEq, Prod.mk.injEq] at h
      obtain ⟨rfl, rfl⟩ := h
      obtain ⟨v, rfl, hv⟩ := ScalarBuilder.append_spec ha
      refine ⟨Cell.ofOption v, ?_, by simp [cells], rfl, trivial⟩
      simp [read, blank, append, hv, cells]
  | list element offsets validity =>
    obtain ⟨hlen, hlast, hle⟩ := hc
    cases value with
    | none =>
      simp only [append, Except.ok.injEq, Prod.mk.injEq] at h
      obtain ⟨rfl, rfl⟩ := h
      refine ⟨.null, rfl, ?_, rfl, by simp [hlen], by simp [hlast], ?_⟩
      · simp only [cells]
        rw [listCells_snoc _ _ _ _ _ _ hlen rfl]
        rfl
      · intro a ha
        rcases List.mem_append.mp ha with ha | ha
        · exact hle a ha
        · rw [List.mem_singleton.mp ha, hlast]
    | some v =>
      simp only [append] at h
      cases hp : parseArrayElements v column with
      | error e => simp [hp] at h
      | ok elements =>
        simp only [hp] at h
        cases ha : element.appendAll column elements false with
        | error e => simp [ha] at h
        | ok r =>
          obtain ⟨element₁, s₁⟩ := r
          simp only [ha] at h
          obtain ⟨added, hadded, rfl, hall⟩ := ScalarBuilder.appendAll_spec ha
          rw [hlast] at h
          split at h
          · simp at h
          · rename_i hmax
            simp only [Except.ok.injEq, Prod.mk.injEq] at h
            obtain ⟨rfl, rfl⟩ := h
            refine ⟨.list added, ?_, ?_, rfl, by simp [hlen], by simp [hadded], ?_⟩
            -- an array that fits behind the others fits on its own
            · have hmax' : ¬ maxOffset < elements.length := by
                omega
              have hs : slice added 0 elements.length = added := by
                rw [← hadded, slice_zero, List.take_length]
              simp [read, blank, append, hp, hall, if_neg hmax', cells, listCells, hs]
            · simp only [cells]
              rw [listCells_snoc _ _ _ _ _ _ hlen hlast, listCells_append_items _ _ _ _ hle,
                ← hadded, slice_append_right]
              rfl
            · intro a ha
              rcases List.mem_append.mp ha with ha | ha
              · exact le_trans (hle a ha) (by simp)
              · rw [List.mem_singleton.mp ha]
                simp [hadded]

/-- Finishing moves the cells into an array and leaves the builder as it was
made. -/
theorem finish_spec {c : ColumnBuilder} (hc : c.Agrees) :
    ∃ array, c.finish = .ok (array, c.blank) ∧ array.cells = c.cells ∧
      array.dataType = c.dataType := by
  cases c with
  | scalar b => exact ⟨_, rfl, rfl, rfl⟩
  | list element offsets validity =>
    obtain ⟨hlen, hlast, -⟩ := hc
    refine ⟨.list element.finish offsets validity, ?_, rfl, rfl⟩
    have h : offsets.length = validity.length + 1 ∧
        offsets.getLast?.getD 0 ≤ element.values.length := ⟨hlen, hlast.le⟩
    simp only [finish, if_pos h, blank]

end ColumnBuilder

/-! ### The row of a batch -/

theorem rowAt_snoc_lt {columns : List (List Cell)} {row : List Cell} {i n : ℕ}
    (h : ∀ c ∈ columns, c.length = n) (hi : i < n) :
    rowAt (List.zipWith (fun c x => c ++ [x]) columns row) i =
      (rowAt columns i).take row.length := by
  induction columns generalizing row with
  | nil => simp [rowAt]
  | cons c columns ih =>
    cases row with
    | nil => simp [rowAt]
    | cons x row =>
      have hc : c.length = n := h c (by simp)
      have ih := @ih row (fun c hc => h c (List.mem_cons_of_mem _ hc))
      simp only [rowAt] at ih ⊢
      simp only [List.zipWith_cons_cons, List.map_cons, List.length_cons, List.take_succ_cons, ih]
      rw [List.getElem?_append_left (by omega)]

theorem rowAt_snoc_eq {columns : List (List Cell)} {row : List Cell} {n : ℕ}
    (h : ∀ c ∈ columns, c.length = n) (hlen : columns.length = row.length) :
    rowAt (List.zipWith (fun c x => c ++ [x]) columns row) n = row := by
  induction columns generalizing row with
  | nil =>
    cases row with
    | nil => rfl
    | cons x row => simp at hlen
  | cons c columns ih =>
    cases row with
    | nil => simp at hlen
    | cons x row =>
      have hc : c.length = n := h c (by simp)
      have ih := @ih row (fun c hc => h c (List.mem_cons_of_mem _ hc)) (by simpa using hlen)
      simp only [rowAt] at ih ⊢
      simp only [List.zipWith_cons_cons, List.map_cons, ih]
      rw [List.getElem?_append_right (by omega)]
      simp [hc]

namespace BatchBuilder

/-- The rows accumulated since the last `finish`. -/
def contents (b : BatchBuilder) : List Row :=
  (List.range b.rows).map (rowAt (b.columns.map ColumnBuilder.cells))

def readCells : List ColumnBuilder → List String → List (Option Bytes) →
    Except Error (List (Cell × Bool))
  | c :: columns, name :: names, value :: values =>
    match c.read value name with
    | .error e => .error e
    | .ok cell =>
      match readCells columns names values with
      | .error e => .error e
      | .ok cells => .ok (cell :: cells)
  | _, _, _ => .ok []

/-- The columns of a builder hold as many cells as it has rows. -/
structure Agrees (b : BatchBuilder) : Prop where
  column : ∀ c ∈ b.columns, c.Agrees ∧ c.cells.length = b.rows
  names : b.names.length = b.columns.length
  substitutions : b.substitutions.length = b.columns.length

theorem readCells_congr {columns columns' : List ColumnBuilder}
    (h : columns.map ColumnBuilder.blank = columns'.map ColumnBuilder.blank)
    (names : List String) (values : List (Option Bytes)) :
    readCells columns names values = readCells columns' names values := by
  induction columns generalizing columns' names values with
  | nil =>
    cases columns' with
    | nil => rfl
    | cons c columns' => simp at h
  | cons c columns ih =>
    cases columns' with
    | nil => simp at h
    | cons c' columns' =>
      simp only [List.map_cons, List.cons.injEq] at h
      cases names with
      | nil => rfl
      | cons name names =>
        cases values with
        | nil => rfl
        | cons value values =>
          simp only [readCells, ColumnBuilder.read_congr h.1, ih h.2]

/-- What appending to one column more can do, with a name, a count and a value
for it and without. -/
theorem appendCells_cons {c : ColumnBuilder} {columns columns' : List ColumnBuilder}
    {names : List String} {counts counts' : List ℕ} {values : List (Option Bytes)}
    (h : appendCells (c :: columns) names counts values = .ok (columns', counts')) :
    (∃ name names₁ count counts₁ value values₁ c' s columns₁ counts₂,
      names = name :: names₁ ∧ counts = count :: counts₁ ∧ values = value :: values₁
      ∧ c.append value name = .ok (c', s)
      ∧ appendCells columns names₁ counts₁ values₁ = .ok (columns₁, counts₂)
      ∧ columns' = c' :: columns₁ ∧ counts' = (count + s.toNat) :: counts₂)
    ∨ ((names = [] ∨ counts = [] ∨ values = []) ∧ columns' = c :: columns ∧ counts' = counts) := by
  cases names with
  | nil =>
    obtain ⟨rfl, rfl⟩ := Prod.mk.inj (Except.ok.inj h)
    exact .inr ⟨.inl rfl, rfl, rfl⟩
  | cons name names =>
    cases counts with
    | nil =>
      obtain ⟨rfl, rfl⟩ := Prod.mk.inj (Except.ok.inj h)
      exact .inr ⟨.inr (.inl rfl), rfl, rfl⟩
    | cons count counts =>
      cases values with
      | nil =>
        obtain ⟨rfl, rfl⟩ := Prod.mk.inj (Except.ok.inj h)
        exact .inr ⟨.inr (.inr rfl), rfl, rfl⟩
      | cons value values =>
        rw [appendCells] at h
        cases ha : c.append value name with
        | error e => simp [ha] at h
        | ok r =>
          obtain ⟨c', s⟩ := r
          simp only [ha] at h
          cases hr : appendCells columns names counts values with
          | error e => simp [hr] at h
          | ok r =>
            obtain ⟨columns₁, counts₂⟩ := r
            simp only [hr] at h
            obtain ⟨rfl, rfl⟩ := Prod.mk.inj (Except.ok.inj h)
            exact .inl ⟨name, names, count, counts, value, values, c', s, columns₁, counts₂, rfl,
              rfl, rfl, ha, hr, rfl, rfl⟩

theorem appendCells_spec {columns columns' : List ColumnBuilder} {names : List String}
    {counts counts' : List ℕ} {values : List (Option Bytes)}
    (hc : ∀ c ∈ columns, c.Agrees) (hnames : names.length = columns.length)
    (hcounts : counts.length = columns.length) (hvalues : values.length = columns.length)
    (h : appendCells columns names counts values = .ok (columns', counts')) :
    ∃ cells, readCells columns names values = .ok cells ∧ cells.length = columns.length ∧
      columns'.map ColumnBuilder.cells =
        List.zipWith (fun c x => c ++ [x]) (columns.map ColumnBuilder.cells)
          (cells.map Prod.fst) ∧
      counts' = List.zipWith (· + ·) counts (cells.map fun c => c.2.toNat) ∧
      columns'.map ColumnBuilder.blank = columns.map ColumnBuilder.blank ∧
      ∀ c ∈ columns', c.Agrees := by
  induction columns generalizing columns' names counts counts' values with
  | nil =>
    cases counts with
    | nil =>
      simp only [appendCells, Except.ok.injEq, Prod.mk.injEq] at h
      obtain ⟨rfl, rfl⟩ := h
      exact ⟨[], by simp [readCells], rfl, rfl, rfl, rfl, by simp⟩
    | cons n counts => simp at hcounts
  | cons c columns ih =>
    obtain ⟨name, names, count, counts, value, values, c₁, s, columns₁, counts₁, rfl, rfl, rfl, ha,
      hr, rfl, rfl⟩ | ⟨hnone, -, -⟩ := appendCells_cons h
    · obtain ⟨cell, hread, hcells, hblank, hagrees⟩ := ColumnBuilder.append_spec (hc c (by simp)) ha
      obtain ⟨cells, hreads, hlen, hcols, hcnts, hblanks, hall⟩ :=
        ih (fun c h => hc c (List.mem_cons_of_mem _ h)) (by simpa using hnames)
          (by simpa using hcounts) (by simpa using hvalues) hr
      refine ⟨(cell, s) :: cells, by simp [readCells, hread, hreads], by simp [hlen],
        by simp [hcells, hcols], by simp [hcnts], by simp [hblank, hblanks], ?_⟩
      intro d hd
      rcases List.mem_cons.mp hd with rfl | hd
      · exact hagrees
      · exact hall d hd
    · obtain rfl | rfl | rfl := hnone
      · simp at hnames
      · simp at hcounts
      · simp at hvalues

theorem new_agrees (columns : List (String × ResolvedType)) (maxRows maxBytes : ℕ)
    (wide native : Bool) : (new columns maxRows maxBytes wide native).Agrees where
  column := by
    intro c hc
    obtain ⟨rt, -, rfl⟩ := List.mem_map.mp hc
    rw [← ColumnBuilder.new_blank]
    exact ⟨ColumnBuilder.agrees_blank _, by simp [new]⟩
  names := by simp [new]
  substitutions := by simp [new]

/-- What stays the same while a builder is used. -/
structure SameShape (b b' : BatchBuilder) : Prop where
  schema : b'.schema = b.schema
  names : b'.names = b.names
  columns : b'.columns.map ColumnBuilder.blank = b.columns.map ColumnBuilder.blank
  maxRows : b'.maxRows = b.maxRows
  maxBytes : b'.maxBytes = b.maxBytes

theorem SameShape.refl (b : BatchBuilder) : SameShape b b := ⟨rfl, rfl, rfl, rfl, rfl⟩

theorem SameShape.trans {b c d : BatchBuilder} (h : SameShape b c) (h' : SameShape c d) :
    SameShape b d where
  schema := h'.schema.trans h.schema
  names := h'.names.trans h.names
  columns := h'.columns.trans h.columns
  maxRows := h'.maxRows.trans h.maxRows
  maxBytes := h'.maxBytes.trans h.maxBytes

/-- Appending adds the row that `readCells` gives. -/
theorem appendSized_spec {b b' : BatchBuilder} {values : List (Option Bytes)} {size : ℕ}
    (hb : b.Agrees) (h : b.appendSized values size = .ok b') :
    ∃ cells, readCells b.columns b.names values = .ok cells ∧
      cells.length = b.columns.length ∧
      b'.contents = b.contents ++ [cells.map Prod.fst] ∧
      b'.substitutions = List.zipWith (· + ·) b.substitutions (cells.map fun c => c.2.toNat) ∧
      b'.rows = b.rows + 1 ∧ b.SameShape b' ∧ b'.Agrees := by
  unfold appendSized at h
  split at h
  · simp at h
  · rename_i hlen
    rw [not_not] at hlen
    cases ha : appendCells b.columns b.names b.substitutions values with
    | error e => simp [ha] at h
    | ok r =>
      obtain ⟨columns, substitutions⟩ := r
      simp only [ha, Except.ok.injEq] at h
      obtain ⟨cells, hread, hcells, hcols, hsubs, hblank, hall⟩ :=
        appendCells_spec (fun c hc => (hb.column c hc).1) hb.names hb.substitutions hlen ha
      have hrows : ∀ c ∈ b.columns.map ColumnBuilder.cells, c.length = b.rows := by
        intro c hc
        obtain ⟨d, hd, rfl⟩ := List.mem_map.mp hc
        exact (hb.column d hd).2
      have hcount : columns.length = b.columns.length := by
        simpa using congrArg List.length hblank
      subst h
      refine ⟨cells, hread, hcells, ?_, hsubs, rfl, ⟨rfl, rfl, hblank, rfl, rfl⟩, ?_⟩
      · have hnew : rowAt (columns.map ColumnBuilder.cells) b.rows = cells.map Prod.fst := by
          rw [hcols]
          exact rowAt_snoc_eq hrows (by simp [hcells])
        simp only [contents, List.range_succ, List.map_append, List.map_cons, List.map_nil, hnew]
        congr 1
        apply List.map_congr_left
        intro i hi
        rw [hcols, rowAt_snoc_lt hrows (List.mem_range.mp hi)]
        exact List.take_of_length_le (by simp [rowAt, hcells])
      · refine ⟨?_, hb.names.trans hcount.symm, ?_⟩
        · intro c hc
          refine ⟨hall c hc, ?_⟩
          have hmem : c.cells ∈ columns.map ColumnBuilder.cells := List.mem_map_of_mem hc
          rw [hcols] at hmem
          obtain ⟨i, hi, hget⟩ := List.mem_iff_getElem.mp hmem
          rw [List.getElem_zipWith] at hget
          rw [← hget, List.length_append, hrows _ (List.getElem_mem _)]
          rfl
        · simp [hsubs, hb.substitutions, hcells, hcount]

def Typed (b : BatchBuilder) : Prop :=
  b.columns.map ColumnBuilder.dataType = b.schema.map Field.dataType ∧
    ∀ f ∈ b.schema, f.nullable = true

theorem finishColumns_spec {columns : List ColumnBuilder} (h : ∀ c ∈ columns, c.Agrees) :
    ∃ arrays, finishColumns columns = .ok (arrays, columns.map ColumnBuilder.blank) ∧
      arrays.map ArrayRef.cells = columns.map ColumnBuilder.cells ∧
      arrays.map ArrayRef.dataType = columns.map ColumnBuilder.dataType := by
  induction columns with
  | nil => exact ⟨[], rfl, rfl, rfl⟩
  | cons c columns ih =>
    obtain ⟨array, hf, hcells, htype⟩ := ColumnBuilder.finish_spec (h c (by simp))
    obtain ⟨arrays, hfs, hcellss, htypes⟩ := ih fun c hc => h c (List.mem_cons_of_mem _ hc)
    exact ⟨array :: arrays, by simp [finishColumns, hf, hfs], by simp [hcells, hcellss],
      by simp [htype, htypes]⟩

theorem tryNew_ok {schema : Schema} {columns : List ArrayRef} {batch : RecordBatch}
    (h : RecordBatch.tryNew schema columns = .ok batch) :
    batch.columns = columns ∧ batch.schema = schema ∧
      ∃ c ∈ columns, batch.numRows = c.cells.length := by
  unfold RecordBatch.tryNew at h
  split at h
  · simp at h
  · cases columns with
    | nil => simp at h
    | cons first columns =>
      simp only at h
      split_ifs at h
      simp only [Except.ok.injEq] at h
      subst h
      exact ⟨rfl, rfl, first, by simp, rfl⟩

/-- A finished batch holds exactly the rows accumulated so far. -/
theorem finish_spec {b b' : BatchBuilder} {batch : Option RecordBatch} (hb : b.Agrees)
    (h : b.finish = .ok (batch, b')) :
    ((batch.map RecordBatch.rows).getD [] = b.contents) ∧
      (batch.map RecordBatch.numRows).getD 0 = b.rows ∧ b'.rows = 0 ∧ b'.contents = [] ∧
      b'.substitutions = b.substitutions ∧ b.SameShape b' ∧ b'.Agrees ∧
      ∀ x ∈ batch, x.schema = b.schema := by
  unfold finish at h
  split at h
  · rename_i hrows
    simp only [Except.ok.injEq, Prod.mk.injEq] at h
    obtain ⟨rfl, rfl⟩ := h
    exact ⟨by simp [contents, hrows], by simp [hrows], hrows, by simp [contents, hrows], rfl,
      .refl b, hb, by simp⟩
  · obtain ⟨arrays, hf, hcells, -⟩ := finishColumns_spec fun c hc => (hb.column c hc).1
    simp only [hf] at h
    cases ht : RecordBatch.tryNew b.schema arrays with
    | error e => simp [ht] at h
    | ok x =>
      simp only [ht, Except.ok.injEq, Prod.mk.injEq] at h
      obtain ⟨rfl, rfl⟩ := h
      obtain ⟨hcols, hschema, c, hc, hnum⟩ := tryNew_ok ht
      have hnum' : x.numRows = b.rows := by
        have hmem : c.cells ∈ arrays.map ArrayRef.cells := List.mem_map_of_mem hc
        rw [hcells] at hmem
        obtain ⟨d, hd, hdc⟩ := List.mem_map.mp hmem
        rw [hnum, ← hdc, (hb.column d hd).2]
      refine ⟨by simp [RecordBatch.rows, contents, hnum', hcols, hcells], by simpa using hnum', rfl,
        rfl, rfl, ⟨rfl, rfl, ?_, rfl, rfl⟩, ⟨?_, by simpa using hb.names,
          by simpa using hb.substitutions⟩, by simpa using hschema⟩
      · simp
      · intro d hd
        obtain ⟨e, -, rfl⟩ := List.mem_map.mp hd
        exact ⟨ColumnBuilder.agrees_blank e, by simp⟩

end BatchBuilder

end PgDelta.Builders
