import PgDelta.Pipeline.Accounting
import PgDelta.Pipeline.Script

/-!
What the acknowledgements of a block add up to.

When the last worker has acknowledged a block, the batches that were written
hold the rows of the lines that were dispatched, and the counts that the reader
has added up are those of the block decoded in order.
-/

namespace PgDelta.Lib

variable {α : Type*} {n : ℕ}

/-- A sum over everything held is a sum over the members. -/
theorem sum_map_gather (f : α → ℕ) (g : Fin n → List α) :
    ((gather g).map f).sum = ((List.finRange n).map fun i => ((g i).map f).sum).sum := by
  unfold gather
  induction List.finRange n with
  | nil => rfl
  | cons i is ih => simp [ih]

end PgDelta.Lib

namespace PgDelta.Pipeline

open PgDelta.Lib PgDelta.Builders PgDelta.Types PgDelta.Scan PgDelta.Sink

variable {P : Platform} {n : ℕ}

/-! ### Adding up -/

theorem getD_zeros {α : Type*} (xs : List α) (j : ℕ) : (xs.map fun _ => 0).getD j 0 = 0 := by
  rw [List.getD_eq_getElem?_getD, List.getElem?_map]
  cases xs[j]? <;> rfl

@[simp] theorem length_addCounts (as bs : List ℕ) : (addCounts as bs).length = as.length := by
  induction as generalizing bs with
  | nil => cases bs <;> rfl
  | cons a as ih =>
    cases bs with
    | nil => rfl
    | cons b bs => simp [addCounts, ih]

theorem getD_addCounts {as : List ℕ} (bs : List ℕ) {j : ℕ} (hj : j < as.length) :
    (addCounts as bs).getD j 0 = as.getD j 0 + bs.getD j 0 := by
  induction as generalizing bs j with
  | nil => simp at hj
  | cons a as ih =>
    cases bs with
    | nil => simp [addCounts]
    | cons b bs =>
      cases j with
      | zero => rfl
      | succ j => simpa [addCounts] using ih bs (by simpa using hj)

theorem rows_foldl_add (a : Acks P) (cs : List (BlockClosed P)) :
    (cs.foldl Acks.add a).rows = a.rows + (cs.map BlockClosed.rows).sum := by
  induction cs generalizing a with
  | nil => rfl
  | cons c cs ih =>
    rw [List.foldl_cons, ih]
    simp only [Acks.add, List.map_cons, List.sum_cons]
    omega

@[simp] theorem length_foldl_add (a : Acks P) (cs : List (BlockClosed P)) :
    (cs.foldl Acks.add a).substitutions.length = a.substitutions.length := by
  induction cs generalizing a with
  | nil => rfl
  | cons c cs ih =>
    rw [List.foldl_cons, ih]
    simp [Acks.add]

theorem getD_foldl_add (a : Acks P) (cs : List (BlockClosed P)) {j : ℕ}
    (hj : j < a.substitutions.length) :
    (cs.foldl Acks.add a).substitutions.getD j 0 =
      a.substitutions.getD j 0 + (cs.map fun c => c.substitutions.getD j 0).sum := by
  induction cs generalizing a with
  | nil => rfl
  | cons c cs ih =>
    rw [List.foldl_cons, ih _ (by simpa [Acks.add] using hj)]
    simp only [Acks.add, getD_addCounts _ hj, List.map_cons, List.sum_cons]
    omega

/-! ### The workers together -/

namespace Crewed

variable {run : ℕ} {ctx : BlockCtx} {stage : Fin n → Stage} {collected : List (BlockClosed P)}
  {l : Ledger P n} {p : Pool P n}

theorem contents (h : Crewed run ctx stage collected l p) (hall : n ≤ collected.length) :
    ((p.trace.batchesOf ctx.generation).flatMap RecordBatch.rows).Perm
      ((p.trace.linesOf ctx.generation).map ctx.rowOf) := by
  obtain ⟨-, -, -, hdata⟩ := h.finished hall
  calc
    ((p.trace.batchesOf ctx.generation).flatMap RecordBatch.rows).Perm
        ((gather l.written).flatMap RecordBatch.rows) := h.batches.flatMap_right _
    _ = gather fun i => (l.written i).flatMap RecordBatch.rows := List.flatMap_assoc ..
    _ = gather fun i => (l.lines i).map ctx.rowOf :=
      congrArg gather (funext fun i => (hdata i).contents)
    _ = (gather l.lines).map ctx.rowOf := (gather_map ctx.rowOf l.lines).symm
    ((gather l.lines).map ctx.rowOf).Perm ((p.trace.linesOf ctx.generation).map ctx.rowOf) :=
      (h.lines.map _).symm

/-- What each worker computes from its lines adds up to what all lines give. -/
theorem sum_collected (h : Crewed run ctx stage collected l p) (hall : n ≤ collected.length)
    {f : BlockClosed P → ℕ} {g : Bytes → ℕ}
    (hfg : ∀ (i : ℕ) lines written c, ClosedData run ctx i lines written c →
      f c = (lines.map g).sum) :
    (collected.map f).sum = ((p.trace.linesOf ctx.generation).map g).sum := by
  obtain ⟨-, -, hcollected, hdata⟩ := h.finished hall
  calc
    (collected.map f).sum = (((List.finRange n).map l.contribution).map f).sum :=
      (hcollected.map f).sum_eq
    _ = ((List.finRange n).map fun i => ((l.lines i).map g).sum).sum := by
      rw [List.map_map]
      exact congrArg List.sum (List.map_congr_left fun i _ => hfg i _ _ _ (hdata i))
    _ = ((gather l.lines).map g).sum := (sum_map_gather g l.lines).symm
    _ = ((p.trace.linesOf ctx.generation).map g).sum := (h.lines.map g).sum_eq.symm

end Crewed

/-- A block as the reader holds it, and as it stands in the dump. -/
structure Copied (block : OpenBlock) (b : DumpBlock) (lines : List Bytes) : Prop where
  table : b.table = block.table
  qualified : block.qualified = b.table.qualified
  columns : b.columns = block.columns
  lines : lines = b.lines

/-- What a load has made of a block: every line was dispatched in its turn, and
the batches and the counts are those of the block decoded in order. -/
structure Loaded (cfg : LoadConfig) (t : Trace) (generation : ℕ) (b : DumpBlock)
    (stats : TableStats) : Prop where
  table : stats.table = b.table.qualified
  rows : stats.rows = b.lines.length
  lines : t.linesOf generation = b.lines
  written : ((t.batchesOf generation).flatMap RecordBatch.rows).Perm
    (b.lines.map (b.ctx cfg).rowOf)
  contents : ∀ builder, (b.ctx cfg).sequential b.lines = .ok builder →
    ((t.batchesOf generation).flatMap RecordBatch.rows).Perm builder.contents ∧
      stats.nullSubstitutions = nullSubstitutions b.columns builder.substitutions

theorem Loaded.congr {cfg : LoadConfig} {t t' : Trace} {generation : ℕ} {b : DumpBlock}
    {stats : TableStats} (h : Loaded cfg t generation b stats)
    (hlines : t'.linesOf generation = t.linesOf generation)
    (hbatches : t'.batchesOf generation = t.batchesOf generation) :
    Loaded cfg t' generation b stats :=
  ⟨h.table, h.rows, hlines.trans h.lines, by rw [hbatches]; exact h.written,
    by rw [hbatches]; exact h.contents⟩

/-- Decoding a block in order counts for each of its columns. -/
theorem length_substitutions {cfg : LoadConfig} {b : DumpBlock} {builder : BatchBuilder}
    (h : Accumulated (b.ctx cfg) builder) :
    builder.substitutions.length = b.columns.length := by
  have hcolumns := congrArg List.length h.shape.columns
  rw [List.length_map, List.length_map] at hcolumns
  rw [h.agrees.substitutions, hcolumns]
  simp [BlockCtx.builder, BatchBuilder.new, DumpBlock.ctx, Reader.blockCtx]

theorem Crewed.written {cfg : LoadConfig} {run : ℕ} {block : OpenBlock} {uri : String}
    {stage : Fin n → Stage} {collected : List (BlockClosed P)} {l : Ledger P n} {p : Pool P n}
    (h : Crewed run (Reader.blockCtx cfg block.generation uri block.columns) stage collected l p)
    (hall : n ≤ collected.length) {b : DumpBlock}
    (hb : Copied block b (p.trace.linesOf block.generation)) :
    ((p.trace.batchesOf block.generation).flatMap RecordBatch.rows).Perm
      (b.lines.map (b.ctx cfg).rowOf) := by
  have hrows := h.contents hall
  have hlines : p.trace.linesOf (Reader.blockCtx cfg block.generation uri block.columns).generation
      = b.lines := hb.lines
  have hrowOf : (Reader.blockCtx cfg block.generation uri block.columns).rowOf =
      (b.ctx cfg).rowOf := by
    rw [DumpBlock.ctx, hb.columns]
    rfl
  rw [hlines, hrowOf] at hrows
  exact hrows

/-- A block is loaded once every worker has acknowledged it. -/
theorem Crewed.loaded {cfg : LoadConfig} {run : ℕ} {block : OpenBlock} {uri : String}
    {stage : Fin n → Stage} {collected : List (BlockClosed P)} {l : Ledger P n} {p : Pool P n}
    (h : Crewed run (Reader.blockCtx cfg block.generation uri block.columns) stage collected l p)
    (hall : n ≤ collected.length) {b : DumpBlock}
    (hb : Copied block b (p.trace.linesOf block.generation)) :
    Loaded cfg p.trace block.generation b
      (blockStats block (collected.foldl Acks.add (.start block))) where
  table := hb.qualified
  lines := hb.lines
  rows := by
    have hsum := h.sum_collected hall (f := BlockClosed.rows) (g := fun _ => 1)
      fun i lines written c hc => by simpa using hc.rows
    have hlines :
        p.trace.linesOf (Reader.blockCtx cfg block.generation uri block.columns).generation
        = b.lines := hb.lines
    rw [hlines] at hsum
    simpa [blockStats, rows_foldl_add, Acks.start] using hsum
  written := h.written hall hb
  contents builder hbuilder := by
    obtain ⟨hacc, hcontents, -, hcount⟩ := decodeAll_spec (.start _) hbuilder
    have hlines :
        p.trace.linesOf (Reader.blockCtx cfg block.generation uri block.columns).generation
        = b.lines := hb.lines
    have hcountOf : (Reader.blockCtx cfg block.generation uri block.columns).countOf =
        (b.ctx cfg).countOf := by
      rw [DumpBlock.ctx, hb.columns]
      rfl
    refine ⟨?_, ?_⟩
    · have hempty : (b.ctx cfg).builder.contents = [] := rfl
      rw [hcontents, hempty, List.nil_append]
      exact h.written hall hb
    · have hcounts : (collected.foldl Acks.add (.start block)).substitutions =
          builder.substitutions := by
        have hlen := length_substitutions hacc
        apply List.ext_getElem
        · simp [Acks.start, hlen, hb.columns]
        · intro j hj hj'
          have hsum := h.sum_collected hall (f := fun c => c.substitutions.getD j 0)
            (g := (b.ctx cfg).countOf j) fun i lines written c hc => by
              rw [← hcountOf]
              exact hc.count j
          rw [length_foldl_add] at hj
          have hzero : (Acks.start block : Acks P).substitutions.getD j 0 = 0 := getD_zeros _ j
          have hstart : (b.ctx cfg).builder.substitutions.getD j 0 = 0 := getD_zeros _ j
          have hleft := getD_foldl_add (.start block) collected hj
          rw [hzero, Nat.zero_add, hsum, hlines] at hleft
          have hright := hcount j
          rw [hstart, Nat.zero_add, ← hleft] at hright
          simpa [List.getD_eq_getElem?_getD, hj, hj'] using hright.symm
      rw [blockStats, hcounts, hb.columns]

end PgDelta.Pipeline
