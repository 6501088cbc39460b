import PgDelta.Pipeline.Worker
import PgDelta.Types.Rows

/-!
What a worker makes of the lines of one block.

Each line becomes one row, whichever worker decodes it and whatever else that
worker has decoded. `BlockData` relates the lines that a worker has taken from
its queue to the batches it has written and the rows it still holds.
-/

namespace PgDelta.Pipeline

open PgDelta.Lib PgDelta.Builders PgDelta.Types PgDelta.Sink PgDelta.Copy

namespace BlockCtx

/-- The builder that a worker begins the block with. -/
def builder (ctx : BlockCtx) : BatchBuilder :=
  .new ctx.columns ctx.batchRows ctx.batchBytes ctx.wideNumericAsDecimal ctx.nativeArrays

def decodeAll (ctx : BlockCtx) : BatchBuilder → List Bytes → Except Error BatchBuilder
  | b, [] => .ok b
  | b, line :: lines =>
    match decodeRow line ctx.arity ctx.limits with
    | .error e => .error e
    | .ok (scratch, ranges) =>
      match b.appendRowRanges scratch ranges with
      | .error e => .error e
      | .ok b => ctx.decodeAll b lines

def sequential (ctx : BlockCtx) (lines : List Bytes) : Except Error BatchBuilder :=
  ctx.decodeAll ctx.builder lines

/-- What the fields of a line become in the columns of the block. -/
def readLine (ctx : BlockCtx) (line : Bytes) : Except Error (List (Cell × Bool)) :=
  match decodeRow line ctx.arity ctx.limits with
  | .error e => .error e
  | .ok decoded =>
    BatchBuilder.readCells ctx.builder.columns ctx.builder.names (Copy.values decoded)

/-- The cells of a line that can be read. -/
def cellsOf (ctx : BlockCtx) (line : Bytes) : List (Cell × Bool) :=
  match ctx.readLine line with
  | .error _ => []
  | .ok cells => cells

def rowOf (ctx : BlockCtx) (line : Bytes) : Row := (ctx.cellsOf line).map Prod.fst

/-- Whether column `j` of a line is a value stored as NULL, as a count. -/
def countOf (ctx : BlockCtx) (j : ℕ) (line : Bytes) : ℕ :=
  (((ctx.cellsOf line)[j]?).map fun c => c.2.toNat).getD 0

end BlockCtx

/-- A builder of a block, and what it has accumulated. -/
structure Accumulated (ctx : BlockCtx) (b : BatchBuilder) : Prop where
  shape : ctx.builder.SameShape b
  agrees : b.Agrees

theorem Accumulated.start (ctx : BlockCtx) : Accumulated ctx ctx.builder :=
  ⟨.refl _, BatchBuilder.new_agrees ..⟩

theorem getD_zipWith_add {as bs : List ℕ} (h : as.length = bs.length) (j : ℕ) :
    (List.zipWith (· + ·) as bs).getD j 0 = as.getD j 0 + bs.getD j 0 := by
  simp only [List.getD_eq_getElem?_getD, List.getElem?_zipWith]
  rcases lt_or_ge j as.length with hj | hj
  · rw [List.getElem?_eq_getElem hj, List.getElem?_eq_getElem (h ▸ hj)]
    rfl
  · rw [List.getElem?_eq_none hj, List.getElem?_eq_none (h ▸ hj)]
    rfl

/-- Appending a decoded line adds the row of that line. -/
theorem Accumulated.append {ctx : BlockCtx} {b b' : BatchBuilder} (hb : Accumulated ctx b)
    {line scratch : Bytes} {ranges : List (Option Copy.Range)}
    (hdecode : decodeRow line ctx.arity ctx.limits = .ok (scratch, ranges))
    (h : b.appendRowRanges scratch ranges = .ok b') :
    Accumulated ctx b' ∧ b'.contents = b.contents ++ [ctx.rowOf line] ∧ b'.rows = b.rows + 1 ∧
      ∀ j, b'.substitutions.getD j 0 = b.substitutions.getD j 0 + ctx.countOf j line := by
  obtain ⟨cells, hread, hlen, hcontents, hsubs, hrows, hshape, hagrees⟩ :=
    BatchBuilder.appendSized_spec hb.agrees h
  have hread' : BatchBuilder.readCells ctx.builder.columns ctx.builder.names
      (Copy.values (scratch, ranges)) = .ok cells := by
    rw [← hread, hb.shape.names]
    exact BatchBuilder.readCells_congr hb.shape.columns.symm _ _
  have hcells : ctx.cellsOf line = cells := by
    simp only [BlockCtx.cellsOf, BlockCtx.readLine, hdecode, hread']
  have hcount : b.substitutions.length = (cells.map fun c => c.2.toNat).length := by
    rw [hb.agrees.substitutions, List.length_map, hlen]
  refine ⟨⟨hb.shape.trans hshape, hagrees⟩, by rw [hcontents, BlockCtx.rowOf, hcells], hrows, ?_⟩
  intro j
  rw [hsubs, getD_zipWith_add hcount]
  simp [BlockCtx.countOf, hcells, List.getD_eq_getElem?_getD]

theorem sum_append_singleton (f : Bytes → ℕ) (lines : List Bytes) (line : Bytes) :
    ((lines ++ [line]).map f).sum = (lines.map f).sum + f line := by
  simp

/-- A block decoded sequentially holds the rows of its lines. -/
theorem decodeAll_spec {ctx : BlockCtx} {b b' : BatchBuilder} (hb : Accumulated ctx b)
    {lines : List Bytes} (h : ctx.decodeAll b lines = .ok b') :
    Accumulated ctx b' ∧ b'.contents = b.contents ++ lines.map ctx.rowOf ∧
      b'.rows = b.rows + lines.length ∧
      ∀ j, b'.substitutions.getD j 0 =
        b.substitutions.getD j 0 + (lines.map (ctx.countOf j)).sum := by
  induction lines generalizing b with
  | nil =>
    simp only [BlockCtx.decodeAll, Except.ok.injEq] at h
    subst h
    exact ⟨hb, by simp, rfl, by simp⟩
  | cons line lines ih =>
    simp only [BlockCtx.decodeAll] at h
    cases hdecode : decodeRow line ctx.arity ctx.limits with
    | error e => simp [hdecode] at h
    | ok r =>
      obtain ⟨scratch, ranges⟩ := r
      simp only [hdecode] at h
      cases happend : b.appendRowRanges scratch ranges with
      | error e => simp [happend] at h
      | ok b₁ =>
        simp only [happend] at h
        obtain ⟨hb₁, hcontents, hrows, hcount⟩ := hb.append hdecode happend
        obtain ⟨hb', hcontents', hrows', hcount'⟩ := ih hb₁ h
        refine ⟨hb', by simp [hcontents', hcontents], by simp [hrows', hrows]; omega, fun j => ?_⟩
        rw [hcount', hcount]
        simp only [List.map_cons, List.sum_cons]
        omega

/-! ### The block of a worker -/

/-- A worker's block after some lines of it: the batches handed to the writer
and the rows still held are the rows of these lines. -/
structure BlockData (run : ℕ) (ctx : BlockCtx) (i : ℕ) (lines : List Bytes)
    (written : List RecordBatch) (b : WorkerBlock) : Prop where
  builder : Accumulated ctx b.builder
  contents : written.flatMap RecordBatch.rows ++ b.builder.contents = lines.map ctx.rowOf
  count : ∀ j, b.builder.substitutions.getD j 0 = (lines.map (ctx.countOf j)).sum
  rows : b.writer.rows + b.builder.rows = lines.length
  batches : b.writer.batches = written
  schema : b.writer.schema = ctx.schema
  path : b.writer.path = ⟨run, ctx.generation, i, 0⟩

theorem WorkerBlock.new_data {run i : ℕ} {ctx : BlockCtx} {faults : JobFaults} {b : WorkerBlock}
    (h : WorkerBlock.new ctx ⟨run, ctx.generation, i, 0⟩ faults = .ok b) :
    BlockData run ctx i [] [] b := by
  unfold WorkerBlock.new TableWriter.new at h
  cases hf : faults.writer with
  | some message => simp [hf] at h
  | none =>
    simp only [hf, Except.ok.injEq] at h
    subst h
    exact
      { builder := .start ctx
        contents := by simp [BatchBuilder.contents, BatchBuilder.new]
        count := fun j => by
          simp only [List.map_nil, List.sum_nil, BatchBuilder.new, List.getD_eq_getElem?_getD,
            List.getElem?_map]
          cases ctx.columns[j]? <;> rfl
        rows := rfl
        batches := rfl
        schema := rfl
        path := rfl }

theorem BlockData.flush {run i : ℕ} {ctx : BlockCtx} {lines : List Bytes}
    {written more : List RecordBatch} {b b' : WorkerBlock} {faults : JobFaults}
    (hb : BlockData run ctx i lines written b) (h : b.flush faults = .ok (b', more)) :
    BlockData run ctx i lines (written ++ more) b' ∧ b'.builder.contents = [] ∧
      b'.builder.rows = 0 := by
  unfold WorkerBlock.flush at h
  cases hf : b.builder.finish with
  | error e => simp [hf] at h
  | ok r =>
    obtain ⟨batch, builder⟩ := r
    obtain ⟨hrows, hnum, hzero, hempty, hsubs, hshape, hagrees, -⟩ :=
      BatchBuilder.finish_spec hb.builder.agrees hf
    have hacc : Accumulated ctx builder := ⟨hb.builder.shape.trans hshape, hagrees⟩
    have hcount : ∀ j, builder.substitutions.getD j 0 = (lines.map (ctx.countOf j)).sum := by
      intro j
      rw [hsubs]
      exact hb.count j
    cases batch with
    | none =>
      simp only [hf, Except.ok.injEq, Prod.mk.injEq] at h
      obtain ⟨rfl, rfl⟩ := h
      refine ⟨⟨hacc, ?_, hcount, ?_, by simpa using hb.batches, hb.schema, hb.path⟩, hempty, hzero⟩
      · have hnil : b.builder.contents = [] := hrows.symm
        rw [List.append_nil, hempty, ← hb.contents, hnil]
      · have hnil : b.builder.rows = 0 := hnum.symm
        rw [hzero, ← hb.rows, hnil]
    | some batch =>
      simp only [hf] at h
      cases hw : b.writer.write batch (faults.write b.batches) with
      | error e => simp [hw] at h
      | ok writer =>
        simp only [hw, Except.ok.injEq, Prod.mk.injEq] at h
        obtain ⟨rfl, rfl⟩ := h
        have hwriter : writer = { b.writer with
            batches := b.writer.batches ++ [batch], rows := b.writer.rows + batch.numRows } := by
          unfold TableWriter.write at hw
          split at hw
          · simp at hw
          · simpa using hw.symm
        have hbatch : batch.rows = b.builder.contents := by simpa using hrows
        have hlen : batch.numRows = b.builder.rows := by simpa using hnum
        subst hwriter
        refine ⟨⟨hacc, ?_, hcount, ?_, by simp [hb.batches], hb.schema, hb.path⟩, hempty, hzero⟩
        · rw [hempty, ← hb.contents]
          simp [hbatch]
        · simp only [hzero, hlen, Nat.add_zero]
          exact hb.rows

theorem BlockData.row {run i : ℕ} {ctx : BlockCtx} {lines : List Bytes} {line : Bytes}
    {written more : List RecordBatch} {b b' : WorkerBlock} {faults : JobFaults}
    (hb : BlockData run ctx i lines written b) (h : b.row ctx faults line = .ok (b', more)) :
    BlockData run ctx i (lines ++ [line]) (written ++ more) b' := by
  unfold WorkerBlock.row at h
  cases hdecode : decodeRow line ctx.arity ctx.limits with
  | error e => simp [hdecode] at h
  | ok r =>
    obtain ⟨scratch, ranges⟩ := r
    simp only [hdecode] at h
    cases happend : b.builder.appendRowRanges scratch ranges with
    | error e => simp [happend] at h
    | ok builder =>
      simp only [happend] at h
      obtain ⟨hacc, hcontents, hrows, hcount⟩ := hb.builder.append hdecode happend
      have hb₁ : BlockData run ctx i (lines ++ [line]) written { b with builder := builder } :=
        { builder := hacc
          contents := by
            rw [hcontents, ← List.append_assoc, hb.contents]
            simp
          count := fun j => by rw [hcount, hb.count, sum_append_singleton]
          rows := by
            have h' := hb.rows
            simp only [hrows, List.length_append, List.length_cons, List.length_nil]
            omega
          batches := hb.batches
          schema := hb.schema
          path := hb.path }
      split at h
      · exact (hb₁.flush h).1
      · simp only [Except.ok.injEq, Prod.mk.injEq] at h
        obtain ⟨rfl, rfl⟩ := h
        simpa using hb₁

/-- Decoding further lines keeps the relation, whatever batches are flushed on
the way. -/
theorem BlockData.rows_spec {run i : ℕ} {ctx : BlockCtx} {lines more : List Bytes}
    {written out : List RecordBatch} {b b' : WorkerBlock} {faults : JobFaults}
    (hb : BlockData run ctx i lines written b) (h : b.rows ctx faults more = .ok (b', out)) :
    BlockData run ctx i (lines ++ more) (written ++ out) b' := by
  induction more generalizing b lines written out with
  | nil =>
    simp only [WorkerBlock.rows, Except.ok.injEq, Prod.mk.injEq] at h
    obtain ⟨rfl, rfl⟩ := h
    simpa using hb
  | cons line more ih =>
    simp only [WorkerBlock.rows] at h
    cases hrow : b.row ctx faults line with
    | error e => simp [hrow] at h
    | ok r =>
      obtain ⟨b₁, w⟩ := r
      simp only [hrow] at h
      cases hrest : WorkerBlock.rows ctx faults b₁ more with
      | error e => simp [hrest] at h
      | ok r =>
        obtain ⟨b₂, w'⟩ := r
        simp only [hrest, Except.ok.injEq, Prod.mk.injEq] at h
        obtain ⟨rfl, rfl⟩ := h
        have := ih (hb.row hrow) hrest
        simpa using this

/-! ### The contribution of a worker -/

/-- What a worker contributes to a block of which it has decoded some lines. -/
structure ClosedData {P : Platform} (run : ℕ) (ctx : BlockCtx) (i : ℕ) (lines : List Bytes)
    (written : List RecordBatch) (c : BlockClosed P) : Prop where
  generation : c.generation = ctx.generation
  rows : c.rows = lines.length
  count : ∀ j, c.substitutions.getD j 0 = (lines.map (ctx.countOf j)).sum
  contents : written.flatMap RecordBatch.rows = lines.map ctx.rowOf
  staged : ∀ a ∈ c.staged, ∃ f, a = .add f ∧ f.schema = ctx.schema ∧ f.path.run = run ∧
    f.path.block = ctx.generation ∧ f.path.worker = i
  covers : (added c.staged).flatMap File.batches = written

theorem ClosedData.empty {P : Platform} (run : ℕ) (ctx : BlockCtx) (i : ℕ) :
    ClosedData run ctx i [] [] ({ generation := ctx.generation } : BlockClosed P) :=
  ⟨rfl, rfl, fun j => by simp, rfl, by simp, rfl⟩

/-- Files made of batches cover the batches. -/
theorem flatMap_added_mapIdx {P : Platform} (fs : ℕ → List RecordBatch → File)
    (h : ∀ i b, (fs i b).batches = b) (bs : List (List RecordBatch)) :
    (added (bs.mapIdx fun i b => (.add (fs i b) : Action P))).flatMap File.batches =
      bs.flatten := by
  induction bs generalizing fs with
  | nil => rfl
  | cons b bs ih =>
    simp only [List.mapIdx_cons, added, List.flatMap_cons, List.flatten_cons, h]
    rw [ih (fun i b => fs (i + 1) b) fun i b => h (i + 1) b]

theorem closeBlock_data {P : Platform} {run i : ℕ} {ctx : BlockCtx} {lines : List Bytes}
    {written more : List RecordBatch} {b : WorkerBlock} {c : BlockClosed P} {faults : JobFaults}
    (hb : BlockData run ctx i lines written b)
    (h : LoopState.closeBlock b ctx.generation faults = .ok (c, more)) :
    ClosedData run ctx i lines (written ++ more) c := by
  unfold LoopState.closeBlock at h
  cases hflush : b.flush faults with
  | error e => simp [hflush] at h
  | ok r =>
    obtain ⟨b₁, w⟩ := r
    simp only [hflush] at h
    obtain ⟨hb₁, hempty, hzero⟩ := hb.flush hflush
    unfold TableWriter.stage at h
    cases hstage : faults.stage with
    | some message => simp [hstage] at h
    | none =>
      simp only [hstage, Except.ok.injEq, Prod.mk.injEq] at h
      obtain ⟨rfl, rfl⟩ := h
      refine ⟨rfl, ?_, hb₁.count, ?_, ?_, ?_⟩
      · have := hb₁.rows
        simpa [hzero] using this
      · have := hb₁.contents
        simpa [hempty] using this
      · intro a ha
        obtain ⟨k, hk, rfl⟩ := List.mem_mapIdx.mp ha
        exact ⟨_, rfl, hb₁.schema, by simp [hb₁.path], by simp [hb₁.path], by simp [hb₁.path]⟩
      · rw [flatMap_added_mapIdx _ (fun _ _ => rfl), P.flush_covers, hb₁.batches]

end PgDelta.Pipeline
