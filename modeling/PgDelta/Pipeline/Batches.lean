import PgDelta.Lib.Batching
import PgDelta.Pipeline.Decoding

/-!
The batches that a worker makes of the payloads of one block.

The rows that a worker holds between two jobs are the pending group of
`Lib.batches`, and the batches that it hands to its writer are the groups. The
rows of a batch are therefore neither lost nor repeated at the end of a batch,
of a payload or of the block, and the bounds are tested behind every row.
-/

namespace PgDelta.Pipeline

open PgDelta.Lib PgDelta.Builders PgDelta.Types PgDelta.Sink PgDelta.Copy

namespace BlockCtx

def sizeOf (ctx : BlockCtx) (line : Bytes) : ℕ :=
  match decodeRow line ctx.arity ctx.limits with
  | .error _ => 0
  | .ok (_, ranges) => (ranges.map fun r => (r.map fun r => r.stop - r.start).getD 0).sum

def bytesOf (ctx : BlockCtx) (lines : List Bytes) : ℕ := (lines.map ctx.sizeOf).sum

/-- When the lines of a batch reach one of its bounds. -/
def full (ctx : BlockCtx) (lines : List Bytes) : Bool :=
  decide (ctx.batchRows ≤ lines.length) || decide (ctx.batchBytes ≤ ctx.bytesOf lines)

theorem full_eq_false_iff {ctx : BlockCtx} {lines : List Bytes} :
    ctx.full lines = false ↔ lines.length < ctx.batchRows ∧ ctx.bytesOf lines < ctx.batchBytes := by
  simp [full]

@[simp] theorem bytesOf_nil (ctx : BlockCtx) : ctx.bytesOf [] = 0 := rfl

@[simp] theorem bytesOf_append (ctx : BlockCtx) (xs ys : List Bytes) :
    ctx.bytesOf (xs ++ ys) = ctx.bytesOf xs + ctx.bytesOf ys := by
  simp [bytesOf]

end BlockCtx

def BatchOf (ctx : BlockCtx) (batch : RecordBatch) (group : List Bytes) : Prop :=
  batch.rows = group.map ctx.rowOf

/-- The lines that a block still holds: their rows, how many they are and how
long, as the builder counts them. -/
structure Pending (ctx : BlockCtx) (pending : List Bytes) (b : WorkerBlock) : Prop where
  builder : Accumulated ctx b.builder
  contents : b.builder.contents = pending.map ctx.rowOf
  rows : b.builder.rows = pending.length
  bytes : b.builder.bytes = ctx.bytesOf pending

theorem WorkerBlock.new_pending {ctx : BlockCtx} {path : FilePath} {faults : JobFaults}
    {b : WorkerBlock} (h : WorkerBlock.new ctx path faults = .ok b) : Pending ctx [] b := by
  unfold WorkerBlock.new at h
  split at h
  · cases h
  · rw [← Except.ok.inj h]
    exact ⟨.start ctx, by simp [BatchBuilder.contents, BatchBuilder.new], rfl, rfl⟩

/-- When a builder has a batch to hand out, and what it counts afterwards. -/
theorem finish_cases {b b' : BatchBuilder} {batch : Option RecordBatch}
    (h : b.finish = .ok (batch, b')) :
    b.rows = 0 ∧ batch = none ∧ b' = b ∨ b.rows ≠ 0 ∧ batch.isSome ∧ b'.bytes = 0 := by
  unfold BatchBuilder.finish at h
  split at h
  · next hrows =>
      obtain ⟨rfl, rfl⟩ := Prod.mk.inj (Except.ok.inj h)
      exact Or.inl ⟨hrows, rfl, rfl⟩
  · next hrows =>
      split at h
      · cases h
      · split at h
        · cases h
        · obtain ⟨rfl, rfl⟩ := Prod.mk.inj (Except.ok.inj h)
          exact Or.inr ⟨hrows, rfl, rfl⟩

/-- Handing out the pending lines, which are a batch unless there are none. -/
theorem Pending.flush {ctx : BlockCtx} {pending : List Bytes} {b b' : WorkerBlock}
    {written : List RecordBatch} {faults : JobFaults} (hb : Pending ctx pending b)
    (h : b.flush faults = .ok (b', written)) :
    Pending ctx [] b' ∧ List.Forall₂ (BatchOf ctx) written (lastGroup pending) := by
  unfold WorkerBlock.flush at h
  cases hf : b.builder.finish with
  | error e => simp [hf] at h
  | ok r =>
      obtain ⟨batch, builder⟩ := r
      obtain ⟨hrows, -, hzero, hempty, -, hshape, hagrees, -⟩ :=
        BatchBuilder.finish_spec hb.builder.agrees hf
      have hacc : Accumulated ctx builder := ⟨hb.builder.shape.trans hshape, hagrees⟩
      obtain ⟨hnone, rfl, rfl⟩ | ⟨hsome, hbatch, hbytes⟩ := finish_cases hf
      · have hpending : pending = [] := by
          rw [hb.rows] at hnone
          exact List.length_eq_zero_iff.mp hnone
        subst hpending
        simp only [hf] at h
        obtain ⟨rfl, rfl⟩ := Prod.mk.inj (Except.ok.inj h)
        exact ⟨hb, by simp [lastGroup]⟩
      · obtain ⟨x, rfl⟩ := Option.isSome_iff_exists.mp hbatch
        have hpending : pending ≠ [] := by
          rintro rfl
          exact hsome hb.rows
        simp only [hf] at h
        split at h
        · cases h
        · obtain ⟨rfl, rfl⟩ := Prod.mk.inj (Except.ok.inj h)
          refine ⟨⟨hacc, by rw [hempty]; rfl, hzero, hbytes⟩, ?_⟩
          rw [lastGroup, if_neg hpending]
          exact .cons (hrows.trans hb.contents) .nil

theorem Pending.append {ctx : BlockCtx} {pending : List Bytes} {line scratch : Bytes}
    {ranges : List (Option Copy.Range)} {b : WorkerBlock} {builder : BatchBuilder}
    (hb : Pending ctx pending b)
    (hdecode : decodeRow line ctx.arity ctx.limits = .ok (scratch, ranges))
    (happend : b.builder.appendRowRanges scratch ranges = .ok builder) :
    Pending ctx (pending ++ [line]) { b with builder := builder } := by
  obtain ⟨hacc, hcontents, hrows, -⟩ := hb.builder.append hdecode happend
  refine ⟨hacc, ?_, ?_, ?_⟩
  · rw [hcontents, hb.contents]
    simp
  · rw [hrows, hb.rows]
    simp
  · have hbytes : builder.bytes = b.builder.bytes + ctx.sizeOf line := by
      unfold BatchBuilder.appendRowRanges BatchBuilder.appendSized at happend
      split at happend
      · cases happend
      · split at happend
        · cases happend
        · rw [← Except.ok.inj happend, BlockCtx.sizeOf, hdecode]
    simp only [hbytes, hb.bytes, BlockCtx.bytesOf_append]
    simp [BlockCtx.bytesOf]

/-- The bounds that the builder tests are those of the block. -/
theorem Pending.isFull {ctx : BlockCtx} {pending : List Bytes} {b : WorkerBlock}
    (hb : Pending ctx pending b) : b.builder.isFull = ctx.full pending := by
  have hrows : b.builder.maxRows = ctx.batchRows := hb.builder.shape.maxRows
  have hbytes : b.builder.maxBytes = ctx.batchBytes := hb.builder.shape.maxBytes
  rw [BatchBuilder.isFull, BlockCtx.full, hb.rows, hb.bytes, hrows, hbytes]

theorem Pending.row {ctx : BlockCtx} {pending : List Bytes} {line : Bytes} {b b' : WorkerBlock}
    {written : List RecordBatch} {faults : JobFaults} (hb : Pending ctx pending b)
    (h : b.row ctx faults line = .ok (b', written)) :
    Pending ctx (batches ctx.full pending [line]).2 b' ∧
      List.Forall₂ (BatchOf ctx) written (batches ctx.full pending [line]).1 := by
  unfold WorkerBlock.row at h
  cases hdecode : decodeRow line ctx.arity ctx.limits with
  | error e => simp [hdecode] at h
  | ok r =>
      obtain ⟨scratch, ranges⟩ := r
      simp only [hdecode] at h
      cases happend : b.builder.appendRowRanges scratch ranges with
      | error e => simp [happend] at h
      | ok builder =>
          simp only [happend] at h
          have hb₁ := hb.append hdecode happend
          have hfull : builder.isFull = ctx.full (pending ++ [line]) := hb₁.isFull
          cases hlines : ctx.full (pending ++ [line]) with
          | false =>
              rw [hfull, hlines] at h
              obtain ⟨rfl, rfl⟩ := Prod.mk.inj (Except.ok.inj h)
              rw [batches_cons_of_not_full hlines]
              exact ⟨hb₁, .nil⟩
          | true =>
              rw [hfull, hlines, if_pos rfl] at h
              obtain ⟨hb', hwritten⟩ := hb₁.flush h
              rw [batches_cons_of_full hlines]
              refine ⟨hb', ?_⟩
              simpa [lastGroup] using hwritten

theorem Pending.rows_spec {ctx : BlockCtx} {pending lines : List Bytes} {b b' : WorkerBlock}
    {written : List RecordBatch} {faults : JobFaults} (hb : Pending ctx pending b)
    (h : b.rows ctx faults lines = .ok (b', written)) :
    Pending ctx (batches ctx.full pending lines).2 b' ∧
      List.Forall₂ (BatchOf ctx) written (batches ctx.full pending lines).1 := by
  induction lines generalizing b pending written with
  | nil =>
      obtain ⟨rfl, rfl⟩ := Prod.mk.inj (Except.ok.inj h)
      exact ⟨hb, .nil⟩
  | cons line lines ih =>
      rw [WorkerBlock.rows] at h
      cases hrow : b.row ctx faults line with
      | error e => simp [hrow] at h
      | ok r =>
          obtain ⟨b₁, first⟩ := r
          simp only [hrow] at h
          cases hrest : WorkerBlock.rows ctx faults b₁ lines with
          | error e => simp [hrest] at h
          | ok r =>
              obtain ⟨b₂, more⟩ := r
              simp only [hrest] at h
              obtain ⟨rfl, rfl⟩ := Prod.mk.inj (Except.ok.inj h)
              obtain ⟨hb₁, hfirst⟩ := hb.row hrow
              obtain ⟨hb₂, hmore⟩ := ih hb₁ hrest
              rw [← List.singleton_append, batches_append]
              exact ⟨hb₂, List.rel_append hfirst hmore⟩

/-! ### The payloads of a block -/

namespace LoopState

variable {P : Platform}

/-- One round of the loop after another for the payloads of a block, with the
batches that are written. -/
def payloads (P : Platform) (generation : ℕ) (path : FilePath) :
    LoopState → List (Bytes × JobFaults) → Except Error (LoopState × List RecordBatch)
  | s, [] => .ok (s, [])
  | s, (bytes, faults) :: rest =>
    match s.handle (P := P) path (.rows generation bytes) faults with
    | .error e => .error e
    | .ok h =>
      match payloads P generation path h.state rest with
      | .error e => .error e
      | .ok (s, written) => .ok (s, h.written ++ written)

/-- What a worker does for one block: it is opened, its payloads are decoded,
and it is closed. -/
def serve (P : Platform) (s : LoopState) (ctx : BlockCtx) (path : FilePath)
    (opening : JobFaults) (rows : List (Bytes × JobFaults)) (closing : JobFaults) :
    Except Error (Option (BlockClosed P) × List RecordBatch) :=
  match s.handle (P := P) path (.openBlock ctx) opening with
  | .error e => .error e
  | .ok opened =>
    match payloads P ctx.generation path opened.state rows with
    | .error e => .error e
    | .ok (s, written) =>
      match s.handle (P := P) path (.close ctx.generation) closing with
      | .error e => .error e
      | .ok closed => .ok (closed.closed, written ++ closed.written)

theorem handle_ok {s : LoopState} {path : FilePath} {job : Job} {faults : JobFaults}
    {h : Handled P} (hok : s.handle path job faults = .ok h) : faults.panic = false := by
  unfold handle at hok
  split at hok
  · cases hok
  · next hpanic => simpa using hpanic

/-- What a worker has of a block after some lines of it: it has written the
groups of the lines and holds the rest of them. A worker that has had no rows
has no block. -/
structure Serving (run i : ℕ) (ctx : BlockCtx) (lines : List Bytes) (written : List RecordBatch)
    (s : LoopState) : Prop where
  ctxs : s.ctxs ctx.generation = some ctx
  groups : List.Forall₂ (BatchOf ctx) written (batches ctx.full [] lines).1
  block : s.blocks ctx.generation = none ∧ lines = [] ∨
    ∃ b, s.blocks ctx.generation = some b ∧ BlockData run ctx i lines written b ∧
      Pending ctx (batches ctx.full [] lines).2 b

section Serving

variable {run i : ℕ} {ctx : BlockCtx} {lines : List Bytes} {written : List RecordBatch}
  {s : LoopState}

theorem Serving.blockFor (hs : Serving run i ctx lines written s) {faults : JobFaults}
    {b : WorkerBlock}
    (h : s.blockFor ctx ctx.generation ⟨run, ctx.generation, i, 0⟩ faults = .ok b) :
    BlockData run ctx i lines written b ∧ Pending ctx (batches ctx.full [] lines).2 b := by
  unfold LoopState.blockFor at h
  rcases hs.block with ⟨hnone, rfl⟩ | ⟨b', hsome, hdata, hpending⟩
  · rw [hnone] at h
    obtain rfl : written = [] := List.forall₂_nil_right_iff.mp hs.groups
    exact ⟨WorkerBlock.new_data h, WorkerBlock.new_pending h⟩
  · rw [hsome] at h
    rw [← Except.ok.inj h]
    exact ⟨hdata, hpending⟩

/-- A payload adds its lines. -/
theorem Serving.rows (hs : Serving run i ctx lines written s) {bytes : Bytes}
    {faults : JobFaults} {h : Handled P}
    (hok : s.handle ⟨run, ctx.generation, i, 0⟩ (.rows ctx.generation bytes) faults = .ok h) :
    Serving run i ctx (lines ++ Copy.rows bytes) (written ++ h.written) h.state := by
  have hpanic := handle_ok hok
  unfold handle at hok
  simp only [hpanic, Bool.false_eq_true, if_false, onRows, hs.ctxs] at hok
  split at hok
  · cases hok
  · next b hb =>
      obtain ⟨hdata, hpending⟩ := hs.blockFor hb
      split at hok
      · cases hok
      · next b' more hrows =>
          obtain rfl := Except.ok.inj hok
          obtain ⟨hpending', hmore⟩ := hpending.rows_spec hrows
          refine ⟨hs.ctxs, ?_, Or.inr ⟨b', ?_, hdata.rows_spec hrows, ?_⟩⟩
          · rw [batches_append]
            exact List.rel_append hs.groups hmore
          · exact Function.update_self _ _ _
          · rw [batches_append]
            exact hpending'

theorem Serving.payloads {rows : List (Bytes × JobFaults)}
    (hs : Serving run i ctx lines written s) {s' : LoopState} {more : List RecordBatch}
    (hok : payloads P ctx.generation ⟨run, ctx.generation, i, 0⟩ s rows = .ok (s', more)) :
    Serving run i ctx (lines ++ rows.flatMap fun r => Copy.rows r.1) (written ++ more) s' := by
  induction rows generalizing s lines written more with
  | nil =>
      obtain ⟨rfl, rfl⟩ := Prod.mk.inj (Except.ok.inj hok)
      simpa using hs
  | cons row rows ih =>
      obtain ⟨bytes, faults⟩ := row
      rw [LoopState.payloads] at hok
      split at hok
      · cases hok
      · next h hrow =>
          split at hok
          · cases hok
          · next s₁ rest hrest =>
              obtain ⟨rfl, rfl⟩ := Prod.mk.inj (Except.ok.inj hok)
              have hnext := ih (hs.rows hrow) hrest
              simpa using hnext

theorem Serving.close (hs : Serving run i ctx lines written s) {faults : JobFaults}
    {h : Handled P}
    (hok : s.handle ⟨run, ctx.generation, i, 0⟩ (.close ctx.generation) faults = .ok h) :
    List.Forall₂ (BatchOf ctx) (written ++ h.written)
        ((batches ctx.full [] lines).1 ++ lastGroup (batches ctx.full [] lines).2) ∧
      ∃ c, h.closed = some c ∧ c.rows = lines.length := by
  have hpanic := handle_ok hok
  unfold handle at hok
  simp only [hpanic, Bool.false_eq_true, if_false, onClose] at hok
  rcases hs.block with ⟨hnone, rfl⟩ | ⟨b, hsome, hdata, hpending⟩
  · rw [hnone] at hok
    obtain rfl := Except.ok.inj hok
    exact ⟨by simpa [lastGroup] using hs.groups, _, rfl, rfl⟩
  · rw [hsome] at hok
    dsimp only at hok
    split at hok
    · cases hok
    · next c more hclose =>
        obtain rfl := Except.ok.inj hok
        refine ⟨?_, c, rfl, (closeBlock_data hdata hclose).rows⟩
        unfold closeBlock at hclose
        split at hclose
        · cases hclose
        · next b' last hflush =>
            split at hclose
            · cases hclose
            · obtain ⟨-, rfl⟩ := Prod.mk.inj (Except.ok.inj hclose)
              exact List.rel_append hs.groups (hpending.flush hflush).2

end Serving

/-- The batch of a group of lines that keeps the bounds of the block. -/
structure IsBatch (ctx : BlockCtx) (batch : RecordBatch) (group : List Bytes) : Prop where
  rows : batch.rows = group.map ctx.rowOf
  ne_nil : group ≠ []
  length_le : group.length ≤ max 1 ctx.batchRows
  bytes_lt : ctx.bytesOf group.dropLast < ctx.batchBytes ∨ group.length = 1

theorem bounds_of_not_full {ctx : BlockCtx} {group : List Bytes} (hne : group ≠ [])
    (h : group.dropLast = [] ∨ ctx.full group.dropLast = false) :
    group.length ≤ max 1 ctx.batchRows ∧
      (ctx.bytesOf group.dropLast < ctx.batchBytes ∨ group.length = 1) := by
  have hpos := List.length_pos_of_ne_nil hne
  have hlen := @List.length_dropLast _ group
  rcases h with hnil | hroom
  · rw [hnil, List.length_nil] at hlen
    omega
  · obtain ⟨hrows, hbytes⟩ := BlockCtx.full_eq_false_iff.mp hroom
    omega

/-- Lines that are not full were not full before the last of them either. -/
theorem not_full_dropLast {ctx : BlockCtx} {group : List Bytes} (h : ctx.full group = false) :
    ctx.full group.dropLast = false := by
  obtain ⟨hrows, hbytes⟩ := BlockCtx.full_eq_false_iff.mp h
  have hlen := @List.length_dropLast _ group
  refine BlockCtx.full_eq_false_iff.mpr ⟨by omega, ?_⟩
  cases group with
  | nil => exact hbytes
  | cons line lines =>
      have hsplit := ctx.bytesOf_append (line :: lines).dropLast [(line :: lines).getLast (by simp)]
      rw [List.dropLast_append_getLast] at hsplit
      omega

theorem groups_bounds (ctx : BlockCtx) (lines : List Bytes) :
    ∀ g ∈ (batches ctx.full [] lines).1 ++ lastGroup (batches ctx.full [] lines).2,
      g ≠ [] ∧ g.length ≤ max 1 ctx.batchRows ∧
        (ctx.bytesOf g.dropLast < ctx.batchBytes ∨ g.length = 1) := by
  obtain ⟨hgroups, hlast⟩ := @batches_isGroup _ ctx.full [] lines (Or.inl rfl)
  intro g hg
  rcases List.mem_append.mp hg with hg | hg
  · have hgroup := hgroups g hg
    exact ⟨hgroup.ne_nil, bounds_of_not_full hgroup.ne_nil hgroup.before⟩
  · unfold lastGroup at hg
    split at hg
    · cases hg
    · next hne =>
        obtain rfl := List.mem_singleton.mp hg
        exact ⟨hne, bounds_of_not_full hne (Or.inr (not_full_dropLast (hlast.resolve_left hne)))⟩

theorem isBatch_of_batchOf {ctx : BlockCtx} {lines : List Bytes} {written : List RecordBatch}
    (h : List.Forall₂ (BatchOf ctx) written
      ((batches ctx.full [] lines).1 ++ lastGroup (batches ctx.full [] lines).2)) :
    ((batches ctx.full [] lines).1 ++ lastGroup (batches ctx.full [] lines).2).flatten = lines ∧
      List.Forall₂ (IsBatch ctx) written
        ((batches ctx.full [] lines).1 ++ lastGroup (batches ctx.full [] lines).2) := by
  refine ⟨?_, ?_⟩
  · rw [List.flatten_append, flatten_lastGroup, batches_flatten, List.nil_append]
  · have hboth := (List.forall₂_and_left _ _).mpr ⟨groups_bounds ctx lines, h.flip⟩
    refine (hboth.imp fun g batch hg => ?_).flip
    obtain ⟨⟨hne, hlength, hbytes⟩, hrows⟩ := hg
    exact (⟨hrows, hne, hlength, hbytes⟩ : IsBatch ctx batch g)

/-- A worker's batches for a block are a partition of the rows it was given
into non-empty groups, in order, each within the bounds of the block up to its
last row; and the writer has counted every row. -/
theorem batches_partition {P : Platform} {s : LoopState} {run i : ℕ} {ctx : BlockCtx}
    {opening closing : JobFaults} {rows : List (Bytes × JobFaults)}
    {closed : Option (BlockClosed P)} {written : List RecordBatch}
    (hnew : s.blocks ctx.generation = none)
    (h : s.serve P ctx ⟨run, ctx.generation, i, 0⟩ opening rows closing = .ok (closed, written)) :
    ∃ groups : List (List Bytes),
      groups.flatten = (rows.flatMap fun r => Copy.rows r.1) ∧
      List.Forall₂ (IsBatch ctx) written groups ∧
      ∃ c, closed = some c ∧ c.rows = groups.flatten.length := by
  unfold serve at h
  split at h
  · cases h
  · next opened hopen =>
      have hstart : Serving run i ctx [] [] opened.state := by
        have hpanic := handle_ok hopen
        unfold handle at hopen
        simp only [hpanic, Bool.false_eq_true, if_false] at hopen
        rw [← Except.ok.inj hopen]
        exact ⟨Function.update_self _ _ _, .nil, Or.inl ⟨hnew, rfl⟩⟩
      split at h
      · cases h
      · next s' decoded hrows =>
          have hserving := hstart.payloads hrows
          split at h
          · cases h
          · next last hclose =>
              obtain ⟨rfl, rfl⟩ := Prod.mk.inj (Except.ok.inj h)
              obtain ⟨hwritten, c, hc, hcount⟩ := hserving.close hclose
              rw [List.nil_append] at hwritten hcount
              rw [List.nil_append] at hwritten
              obtain ⟨hflatten, hbatches⟩ := isBatch_of_batchOf hwritten
              exact ⟨_, hflatten, hbatches, c, hc, by rw [hflatten, hcount]⟩

/-- A block of one column, with at most two rows a batch. -/
def twoRows : BlockCtx where
  generation := 1
  uri := "/out/t"
  schema := [⟨"a", .utf8, true⟩]
  columns := [("a", resolve "text")]
  arity := 1
  limits := {}
  batchRows := 2
  batchBytes := 64
  wideNumericAsDecimal := false
  nativeArrays := false

theorem batches_partition_two :
    ∃ closed written,
      serve .plain {} twoRows ⟨0, 1, 0, 0⟩ {} [(ascii "a\nb\nc\n", {})] {}
        = .ok (closed, written) ∧
      ∃ groups : List (List Bytes),
        groups.flatten = Copy.rows (ascii "a\nb\nc\n") ++ [] ∧
        List.Forall₂ (IsBatch twoRows) written groups ∧
        ∃ c, closed = some c ∧ c.rows = groups.flatten.length := by
  have hok : (serve .plain {} twoRows ⟨0, 1, 0, 0⟩ {} [(ascii "a\nb\nc\n", {})] {}).toBool
      = true := by
    decide +kernel
  cases h : serve .plain {} twoRows ⟨0, 1, 0, 0⟩ {} [(ascii "a\nb\nc\n", {})] {} with
  | error e =>
      rw [h] at hok
      cases hok
  | ok r => exact ⟨r.1, r.2, rfl, batches_partition rfl h⟩

end LoopState

end PgDelta.Pipeline
