import PgDelta.Types.Rows

/-!
The schema of a table and the arrays that are built for it.

The type of a column, the builder of the column and the type of its elements
are decided by three functions. They agree for every resolved type, and what a
builder accumulates fits the schema whatever rows it was given, so that no
batch is refused when it is finished.
-/

namespace PgDelta.Builders

open PgDelta.Lib PgDelta.Types PgDelta.Values

/-! ### One decision, taken three times -/

/-- A precision and scale that fit are those that Arrow accepts. -/
theorem decimalKind_of_fits {precision : Option ℕ} {scale : Option ℤ}
    (h : decimalFits precision scale = true) :
    decimalKind (precision.getD 38) (scale.getD 0)
      = .decimal (precision.getD 38) (scale.getD 0) := by
  cases precision with
  | none => simp [decimalFits] at h
  | some p =>
    have hmax : maxDecimalPrecision = 38 := rfl
    simp only [decimalFits] at h
    split_ifs at h with hp
    rw [hmax] at hp
    cases scale with
    | none => exact if_pos ⟨hp.1, hp.2, by simp, by simp⟩
    | some s =>
      simp only [Option.all_some, decide_eq_true_eq] at h
      refine if_pos ⟨hp.1, hp.2, ?_, h.2⟩
      simp only [Option.getD_some]
      omega

theorem scalarKind_dataType {rt : ResolvedType} (harray : rt.isArray = false) (wide : Bool) :
    (scalarKind rt wide).dataType = scalarType rt wide := by
  unfold scalarKind scalarType
  cases hpg : rt.pg with
  | numeric precision scale =>
    have htextual : rt.isTextual = !decimalFits precision scale := by
      simp [ResolvedType.isTextual, harray, hpg]
    simp only [htextual]
    split_ifs with hwide htext
    · rfl
    · rfl
    · rw [decimalKind_of_fits (by simpa using htext)]
      rfl
  | _ => rfl

theorem arrayElementType_eq {rt : ResolvedType} {wide : Bool} {item : DataType}
    (h : arrayElementType rt wide = some item) : item = scalarType rt wide := by
  unfold arrayElementType at h
  simp only at h
  split_ifs at h
  exact (Option.some.inj h).symm

theorem ColumnBuilder.new_dataType (rt : ResolvedType) (wide native : Bool) :
    (new rt wide native).dataType = arrowType rt wide native := by
  unfold new arrowType
  by_cases harray : rt.isArray = true
  · simp only [if_pos harray]
    by_cases hnative : (native && rt.arrayDimensions == 1) = true
    · simp only [hnative, Bool.true_and, if_true]
      cases hitem : arrayElementType (asElement rt) wide with
      | none => rfl
      | some item =>
        rw [arrayElementType_eq hitem]
        exact congrArg DataType.list (scalarKind_dataType rfl wide)
    · simp only [hnative, Bool.false_and, if_false, Bool.false_eq_true]
      rfl
  · simp only [if_neg harray]
    exact scalarKind_dataType (by simpa using harray) wide

/-! ### The offsets of a native array -/

def ColumnBuilder.Ordered : ColumnBuilder → Prop
  | .scalar _ => True
  | .list _ offsets _ => offsets.Pairwise (· ≤ ·) ∧ offsets.head? = some 0

namespace ColumnBuilder

theorem ordered_blank (c : ColumnBuilder) : c.blank.Ordered := by
  cases c with
  | scalar b => trivial
  | list element offsets validity => exact ⟨List.pairwise_singleton _ _, rfl⟩

theorem ordered_snoc {offsets : List ℕ} {last next : ℕ} (hle : ∀ a ∈ offsets, a ≤ last)
    (hnext : last ≤ next) (hpairs : offsets.Pairwise (· ≤ ·)) (hhead : offsets.head? = some 0) :
    (offsets ++ [next]).Pairwise (· ≤ ·) ∧ (offsets ++ [next]).head? = some 0 := by
  refine ⟨List.pairwise_append.2 ⟨hpairs, List.pairwise_singleton _ _, fun a ha b hb => ?_⟩, ?_⟩
  · rw [List.mem_singleton.1 hb]
    exact (hle a ha).trans hnext
  · rw [List.head?_append, hhead]
    rfl

theorem append_ordered {c c' : ColumnBuilder} {value : Option Bytes} {column : String} {s : Bool}
    (hc : c.Agrees) (ho : c.Ordered) (h : c.append value column = .ok (c', s)) : c'.Ordered := by
  cases c with
  | scalar b =>
    simp only [append] at h
    split at h
    · cases h
    · cases h
      trivial
  | list element offsets validity =>
    obtain ⟨-, hlast, hle⟩ := hc
    simp only [append, hlast] at h
    cases value with
    | none =>
      cases h
      exact ordered_snoc hle le_rfl ho.1 ho.2
    | some v =>
      simp only at h
      split at h
      · cases h
      · split at h
        · cases h
        · split_ifs at h
          cases h
          exact ordered_snoc hle (Nat.le_add_right _ _) ho.1 ho.2

end ColumnBuilder

/-! ### The arrays of a column -/

/-- How many rows an array has. -/
def ArrayRef.length : ArrayRef → ℕ
  | .flat a => a.values.length
  | .list _ offsets _ => offsets.length - 1

/-- The parts of an array of lists fit together. -/
def ArrayRef.WellFormed : ArrayRef → Prop
  | .flat _ => True
  | .list items offsets validity =>
    offsets.Pairwise (· ≤ ·) ∧ offsets.head? = some 0 ∧ offsets.length = validity.length + 1
      ∧ offsets.getLast? = some items.values.length

namespace ColumnBuilder

/-- Finishing a column whose bookkeeping fits together gives a well-formed
array of its type, of as many rows as were appended. -/
theorem finish_wellFormed {c : ColumnBuilder} (hc : c.Agrees) (ho : c.Ordered) :
    ∃ array, c.finish = .ok (array, c.blank) ∧ array.dataType = c.dataType
      ∧ array.length = c.cells.length ∧ array.WellFormed := by
  cases c with
  | scalar b => exact ⟨_, rfl, rfl, (List.length_map _).symm, trivial⟩
  | list element offsets validity =>
    obtain ⟨hlen, hlast, -⟩ := hc
    have h : offsets.length = validity.length + 1 ∧
        offsets.getLast?.getD 0 ≤ element.values.length := ⟨hlen, hlast.le⟩
    refine ⟨.list element.finish offsets validity, ?_, rfl, ?_, ho.1, ho.2, hlen, ?_⟩
    · simp only [finish, if_pos h, blank]
    · simp only [ArrayRef.length, cells, length_listCells _ _ _ hlen, hlen, Nat.add_sub_cancel]
    · obtain ⟨last, hlast'⟩ : ∃ last, offsets.getLast? = some last := by
        cases hget : offsets.getLast? with
        | none => simp [List.getLast?_eq_none_iff.1 hget] at hlen
        | some last => exact ⟨last, rfl⟩
      rw [hlast', Option.getD_some] at hlast
      rw [hlast', hlast]
      rfl

end ColumnBuilder

/-! ### Batches -/

/-- Arrow accepts arrays of one length that have the types of a schema without
a column that may not be null. -/
theorem RecordBatch.tryNew_eq_ok {schema : Schema} {columns : List ArrayRef} {n : ℕ}
    (hne : columns ≠ []) (htypes : columns.map ArrayRef.dataType = schema.map Field.dataType)
    (hnullable : ∀ f ∈ schema, f.nullable = true) (hlen : ∀ c ∈ columns, c.cells.length = n) :
    tryNew schema columns = .ok { schema := schema, columns := columns, numRows := n } := by
  have hcount : schema.length = columns.length := by simpa using (congrArg List.length htypes).symm
  unfold tryNew
  rw [if_neg (not_not.2 hcount)]
  cases columns with
  | nil => exact absurd rfl hne
  | cons first rest =>
    have hfirst := hlen first List.mem_cons_self
    simp only
    rw [if_neg, if_neg, if_neg, hfirst]
    · simp only [List.any_eq_true, decide_eq_true_eq, not_exists, not_and, not_not]
      intro p hp
      obtain ⟨i, hi, rfl⟩ := List.mem_iff_getElem.1 hp
      have hi' := hi
      rw [List.length_zip, lt_min_iff] at hi'
      have h := congrArg (fun l => l[i]?) htypes
      simp only [List.getElem?_map, List.getElem?_eq_getElem hi'.1,
        List.getElem?_eq_getElem hi'.2, Option.map_some, Option.some.injEq] at h
      simpa using h
    · simp only [List.any_eq_true, decide_eq_true_eq, not_exists, not_and, not_not]
      intro c hc
      rw [hlen c hc, hfirst]
    · simp only [List.any_eq_true, not_exists, not_and]
      intro p hp
      simp [hnullable p.1 (List.of_mem_zip hp).1]

namespace BatchBuilder

theorem new_typed (columns : List (String × ResolvedType)) (maxRows maxBytes : ℕ)
    (wide native : Bool) : (new columns maxRows maxBytes wide native).Typed := by
  refine ⟨?_, fun f hf => ?_⟩
  · simp [new, arrowSchema, ColumnBuilder.new_dataType]
  · obtain ⟨_, -, rfl⟩ := List.mem_map.1 hf
    rfl

theorem SameShape.typed {b b' : BatchBuilder} (h : SameShape b b') (hb : b.Typed) : b'.Typed := by
  have hblank := congrArg (List.map ColumnBuilder.dataType) h.columns
  simp only [List.map_map, Function.comp_def, ColumnBuilder.dataType_blank] at hblank
  rw [Typed, h.schema, hblank]
  exact hb

theorem finish_eq_ok {b : BatchBuilder} (hb : b.Agrees) (ht : b.Typed) (hne : b.columns ≠ []) :
    ∃ batch b', b.finish = .ok (batch, b') ∧ (batch.map RecordBatch.numRows).getD 0 = b.rows := by
  by_cases hrows : b.rows = 0
  · exact ⟨none, b, by rw [finish, if_pos hrows], by simp [hrows]⟩
  · obtain ⟨arrays, hf, hcells, htypes⟩ := finishColumns_spec fun c hc => (hb.column c hc).1
    have hlen : ∀ a ∈ arrays, a.cells.length = b.rows := by
      intro a ha
      have hmem : a.cells ∈ arrays.map ArrayRef.cells := List.mem_map_of_mem ha
      rw [hcells] at hmem
      obtain ⟨c, hc, hca⟩ := List.mem_map.1 hmem
      rw [← hca]
      exact (hb.column c hc).2
    have harrays : arrays ≠ [] := by
      rintro rfl
      exact hne (by simpa using hcells.symm)
    have htry := RecordBatch.tryNew_eq_ok harrays (htypes.trans ht.1) ht.2 hlen
    refine ⟨some ⟨b.schema, arrays, b.rows⟩,
      { b with columns := b.columns.map ColumnBuilder.blank, rows := 0, bytes := 0 }, ?_, rfl⟩
    rw [finish, if_neg hrows, hf]
    simp only [htry]

end BatchBuilder

/-! ### Every use of a builder -/

/-- What a caller asks of a builder. -/
inductive Call
  | appendRow (values : List (Option Bytes))
  | appendRowRanges (scratch : Bytes) (ranges : List (Option Copy.Range))
  | finish

/-- The rows appended since the last `finish`, after `n` others. -/
def pendingRows : ℕ → List Call → ℕ
  | n, [] => n
  | _, .finish :: calls => pendingRows 0 calls
  | n, .appendRow _ :: calls => pendingRows (n + 1) calls
  | n, .appendRowRanges _ _ :: calls => pendingRows (n + 1) calls

namespace BatchBuilder

/-- The builder that a call leaves behind, unless it fails. -/
def call (b : BatchBuilder) : Call → Except Error BatchBuilder
  | .appendRow values => b.appendRow values
  | .appendRowRanges scratch ranges => b.appendRowRanges scratch ranges
  | .finish => b.finish.map Prod.snd

def callAll : BatchBuilder → List Call → Except Error BatchBuilder
  | b, [] => .ok b
  | b, c :: calls =>
    match b.call c with
    | .error e => .error e
    | .ok b => b.callAll calls

/-- The columns of a builder agree with its rows and with its schema. -/
structure Fits (b : BatchBuilder) : Prop where
  agrees : b.Agrees
  typed : b.Typed
  ordered : ∀ c ∈ b.columns, c.Ordered

theorem new_fits (columns : List (String × ResolvedType)) (maxRows maxBytes : ℕ)
    (wide native : Bool) : (new columns maxRows maxBytes wide native).Fits where
  agrees := new_agrees _ _ _ _ _
  typed := new_typed _ _ _ _ _
  ordered := by
    intro c hc
    obtain ⟨rt, -, rfl⟩ := List.mem_map.1 hc
    rw [← ColumnBuilder.new_blank]
    exact ColumnBuilder.ordered_blank _

theorem appendCells_ordered {columns columns' : List ColumnBuilder} {names : List String}
    {counts counts' : List ℕ} {values : List (Option Bytes)}
    (hc : ∀ c ∈ columns, c.Agrees ∧ c.Ordered)
    (h : appendCells columns names counts values = .ok (columns', counts')) :
    ∀ c ∈ columns', c.Ordered := by
  induction columns generalizing columns' names counts counts' values with
  | nil =>
    rw [appendCells] at h
    · cases h
      simp
    · simp
  | cons c columns ih =>
    have hrest : ∀ c ∈ columns, c.Agrees ∧ c.Ordered := fun d hd => hc d (List.mem_cons_of_mem _ hd)
    obtain ⟨name, names, count, counts, value, values, d, more, columns₁, counts₁, rfl, rfl, rfl,
      ha, hr, rfl, rfl⟩ | ⟨-, rfl, rfl⟩ := appendCells_cons h
    · obtain ⟨hagrees, hordered⟩ := hc c List.mem_cons_self
      intro e he
      obtain rfl | he := List.mem_cons.1 he
      · exact ColumnBuilder.append_ordered hagrees hordered ha
      · exact ih hrest hr e he
    · exact fun d hd => (hc d hd).2

/-- A row that is accepted adds to every column. -/
theorem appendSized_fits {b b' : BatchBuilder} {values : List (Option Bytes)} {size : ℕ}
    (hb : b.Fits) (h : b.appendSized values size = .ok b') :
    b'.Fits ∧ b.SameShape b' ∧ b'.rows = b.rows + 1 := by
  obtain ⟨-, -, -, -, -, hrows, hshape, hagrees⟩ := appendSized_spec hb.agrees h
  refine ⟨⟨hagrees, hshape.typed hb.typed, ?_⟩, hshape, hrows⟩
  unfold appendSized at h
  split at h
  · cases h
  · cases ha : appendCells b.columns b.names b.substitutions values with
    | error e => simp [ha] at h
    | ok r =>
      simp only [ha] at h
      cases h
      exact appendCells_ordered (fun c hc => ⟨(hb.agrees.column c hc).1, hb.ordered c hc⟩) ha

theorem finish_fits {b b' : BatchBuilder} {batch : Option RecordBatch} (hb : b.Fits)
    (h : b.finish = .ok (batch, b')) : b'.Fits ∧ b.SameShape b' ∧ b'.rows = 0 := by
  obtain ⟨-, -, hrows, -, -, hshape, hagrees, -⟩ := finish_spec hb.agrees h
  refine ⟨⟨hagrees, hshape.typed hb.typed, ?_⟩, hshape, hrows⟩
  unfold finish at h
  split at h
  · cases h
    exact hb.ordered
  · obtain ⟨arrays, hf, -, -⟩ := finishColumns_spec fun c hc => (hb.agrees.column c hc).1
    simp only [hf] at h
    split at h
    · cases h
    · cases h
      intro c hc
      obtain ⟨d, -, rfl⟩ := List.mem_map.1 hc
      exact d.ordered_blank

/-- Calls that succeed keep the columns in step with the rows and the schema. -/
theorem callAll_fits {b b' : BatchBuilder} {calls : List Call} (hb : b.Fits)
    (h : b.callAll calls = .ok b') :
    b'.Fits ∧ b.SameShape b' ∧ b'.rows = pendingRows b.rows calls := by
  induction calls generalizing b with
  | nil =>
    cases h
    exact ⟨hb, .refl _, rfl⟩
  | cons c calls ih =>
    rw [callAll] at h
    cases hd : b.call c with
    | error e => simp [hd] at h
    | ok d =>
      simp only [hd] at h
      have hstep : d.Fits ∧ b.SameShape d
          ∧ pendingRows d.rows calls = pendingRows b.rows (c :: calls) := by
        cases c with
        | appendRow values =>
          obtain ⟨hfits, hshape, hrows⟩ := appendSized_fits hb hd
          exact ⟨hfits, hshape, by rw [hrows, pendingRows]⟩
        | appendRowRanges scratch ranges =>
          obtain ⟨hfits, hshape, hrows⟩ := appendSized_fits hb hd
          exact ⟨hfits, hshape, by rw [hrows, pendingRows]⟩
        | finish =>
          simp only [call] at hd
          cases hf : b.finish with
          | error e => simp [hf, Except.map] at hd
          | ok r =>
            simp only [hf, Except.map, Except.ok.injEq] at hd
            subst hd
            obtain ⟨hfits, hshape, hrows⟩ := finish_fits hb hf
            exact ⟨hfits, hshape, by rw [hrows, pendingRows]⟩
      obtain ⟨hfits, hshape, hrows⟩ := hstep
      obtain ⟨hfits', hshape', hrows'⟩ := ih hfits h
      exact ⟨hfits', hshape.trans hshape', by rw [hrows', hrows]⟩

/-- The columns of a table, by their names and declared types. -/
def declared (columns : List (String × String)) : List (String × ResolvedType) :=
  columns.map fun c => (c.1, resolve c.2)

/-- Whatever rows a builder took, the array of each of its columns is of the
type in the schema, has one entry per row, and the batch is accepted. -/
theorem finish_agrees {columns : List (String × String)} (hne : columns ≠ [])
    {maxRows maxBytes : ℕ} {wide native : Bool} {calls : List Call} {b : BatchBuilder}
    (h : (new (declared columns) maxRows maxBytes wide native).callAll calls = .ok b) :
    List.Forall₂ (fun c column => ∃ array rest, ColumnBuilder.finish c = .ok (array, rest)
        ∧ array.dataType = arrowType (resolve column.2) wide native
        ∧ array.length = pendingRows 0 calls ∧ array.WellFormed) b.columns columns
      ∧ ∃ batch rest, b.finish = .ok (batch, rest)
        ∧ (batch.map RecordBatch.numRows).getD 0 = pendingRows 0 calls := by
  obtain ⟨hfits, hshape, hrows⟩ := callAll_fits (new_fits _ _ _ _ _) h
  have hrows : b.rows = pendingRows 0 calls := hrows
  have hcolumns : b.columns.map ColumnBuilder.blank
      = columns.map fun c => ColumnBuilder.new (resolve c.2) wide native := by
    rw [hshape.columns]
    simp [new, declared, Function.comp_def, ColumnBuilder.new_blank]
  have hpairs : List.Forall₂
      (fun c column => c.blank = ColumnBuilder.new (resolve column.2) wide native)
      b.columns columns := by
    rw [← List.forall₂_eq_eq_eq] at hcolumns
    exact List.forall₂_map_right_iff.1 (List.forall₂_map_left_iff.1 hcolumns)
  refine ⟨?_, ?_⟩
  · have hall : ∀ c ∈ b.columns, (c.Agrees ∧ c.cells.length = b.rows) ∧ c.Ordered :=
      fun c hc => ⟨hfits.agrees.column c hc, hfits.ordered c hc⟩
    refine ((List.forall₂_and_left _ _).2 ⟨hall, hpairs⟩).imp ?_
    rintro c column ⟨⟨⟨hagrees, hcells⟩, hordered⟩, hblank⟩
    obtain ⟨array, hf, htype, hlen, hwell⟩ := ColumnBuilder.finish_wellFormed hagrees hordered
    refine ⟨array, _, hf, ?_, hlen.trans (hcells.trans hrows), hwell⟩
    rw [htype, ← c.dataType_blank, hblank, ColumnBuilder.new_dataType]
  · rw [← hrows]
    refine finish_eq_ok hfits.agrees hfits.typed fun hnil => hne ?_
    rw [hnil] at hcolumns
    simpa using hcolumns.symm

/-- Some rows of a timestamp and an array, and a batch among them. -/
def sampleCalls : List Call :=
  [.appendRow [none, some (ascii "{1,NULL}")], .finish, .appendRow [none, none],
    .appendRow [some (ascii "2024-02-29 10:00:00+01"), some (ascii "{}")]]

def sampleColumns : List (String × String) :=
  [("at", "timestamp(3) with time zone"), ("ns", "numeric(4,1)[]")]

theorem finish_agrees_sample :
    ∃ b, (new (declared sampleColumns) 8 64 false true).callAll sampleCalls = .ok b
      ∧ List.Forall₂ (fun c column => ∃ array rest, ColumnBuilder.finish c = .ok (array, rest)
          ∧ array.dataType = arrowType (resolve column.2) false true
          ∧ array.length = pendingRows 0 sampleCalls ∧ array.WellFormed) b.columns sampleColumns
      ∧ ∃ batch rest, b.finish = .ok (batch, rest)
        ∧ (batch.map RecordBatch.numRows).getD 0 = pendingRows 0 sampleCalls := by
  have hok : ((new (declared sampleColumns) 8 64 false true).callAll sampleCalls).toBool
    = true := by
    decide +kernel
  cases h : (new (declared sampleColumns) 8 64 false true).callAll sampleCalls with
  | error e =>
    rw [h] at hok
    cases hok
  | ok b => exact ⟨b, rfl, finish_agrees (by decide) h⟩

end BatchBuilder

end PgDelta.Builders
