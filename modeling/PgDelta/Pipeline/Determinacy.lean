import PgDelta.Dump.ChunkReader
import PgDelta.Pipeline.Snapshots

/-!
What a load leaves behind depends on the bytes of its dump.

The chunk reader cuts a stream behind newlines only. However it cuts it, the
scanner sees the same, so that a load has the same blocks. From there on neither
the number of workers nor the schedule matters for the rows of a table.
-/

namespace PgDelta.Pipeline

open PgDelta.Lib PgDelta.Types PgDelta.Scan PgDelta.Sink PgDelta.Dump

variable {P : Platform} {n m : ℕ}

theorem LineAligned.of_chunks {stream : Bytes} {chunks : List Bytes}
    (h : ChunkReader.Chunks stream chunks) : LineAligned chunks :=
  fun c hc => .inr (h.aligned c hc)

/-- The scanner sees the same in the same lines, and stops for the same reason. -/
theorem observed_of_aligned (schemas : List String) {cs ds : List Bytes} (hcs : LineAligned cs)
    (hds : LineAligned ds) (hbytes : cs.flatten = ds.flatten) :
    observed ((Scanner.new.setExcludedSchemas schemas).feedAll cs) =
      observed ((Scanner.new.setExcludedSchemas schemas).feedAll ds) := by
  have hpending : (Scanner.new.setExcludedSchemas schemas).pending = [] := rfl
  have hnone : newline ∉ (Scanner.new.setExcludedSchemas schemas).pending := by simp [hpending]
  rw [Scanner.feedAll_observed _ hnone, Scanner.feedAll_observed _ hnone, hpending,
    cutLines_aligned newline cs hcs, cutLines_aligned newline ds hds, hbytes]

theorem Load.blocks_of_stream {L L' : Load} (hcfg : L.cfg = L'.cfg) {stream : Bytes}
    (h : ChunkReader.Chunks stream (L.input.chunks.map Chunk.bytes))
    (h' : ChunkReader.Chunks stream (L'.input.chunks.map Chunk.bytes)) : L.blocks = L'.blocks := by
  have hsame := observed_of_aligned (L.cfg.excludedSchemas.getD []) (.of_chunks h) (.of_chunks h')
    (h.flatten.trans h'.flatten.symm)
  change observed (L.cfg.scanner.feedAll _) = observed (L.cfg.scanner.feedAll _) at hsame
  unfold Load.blocks
  rw [← hcfg]
  cases hfeed : L.cfg.scanner.feedAll (L.input.chunks.map Chunk.bytes) with
  | error e =>
    cases hfeed' : L.cfg.scanner.feedAll (L'.input.chunks.map Chunk.bytes) with
    | error e' => rfl
    | ok r =>
      rw [hfeed, hfeed'] at hsame
      cases hsame
  | ok r =>
    cases hfeed' : L.cfg.scanner.feedAll (L'.input.chunks.map Chunk.bytes) with
    | error e' =>
      rw [hfeed, hfeed'] at hsame
      cases hsame
    | ok r' =>
      obtain ⟨t, events⟩ := r
      obtain ⟨t', events'⟩ := r'
      rw [hfeed, hfeed', observed_ok, observed_ok, Except.ok.injEq, Prod.mk.injEq] at hsame
      simp only [wantedBlocks, hsame.2]

namespace System

variable {L L' : Load} {s : System P n} {s' : System P m} {σ σ' : Store P}
  {report report' : LoadReport} {name : TableName} {uri : String}

/-- Two loads of the same bytes that succeed, cut into chunks in any way, with
any numbers of workers and under any schedules, leave the same rows in a table
that showed the same before them. -/
theorem tables_depend_on_bytes [NeZero n] [NeZero m] (hcfg : L.cfg = L'.cfg) {stream : Bytes}
    (hchunks : ChunkReader.Chunks stream (L.input.chunks.map Chunk.bytes))
    (hchunks' : ChunkReader.Chunks stream (L'.input.chunks.map Chunk.bytes))
    (h : Reachable L σ s) (h' : Reachable L' σ' s') (hp : s.point = .done (.ok report))
    (hp' : s'.point = .done (.ok report')) (huri : tableUri P L.cfg.outputUri name = .ok uri)
    (hreserved : L.cfg.writeManifest = true → Manifest.reservedCollision name = false)
    (hone : L.cfg.mode = .overwrite →
      (L.blocks.filter fun b => b.table.qualified = name.qualified).length ≤ 1)
    (hbefore : σ.visible uri = σ'.visible uri) :
    (s.store.visible uri).Perm (s'.store.visible uri) := by
  have hblocks := Load.blocks_of_stream hcfg hchunks hchunks'
  have hrows : L.rows name.qualified = L'.rows name.qualified := by
    rw [Load.rows, Load.rows, hcfg, hblocks]
  have hfirst := h.shows_all hp huri hreserved hone
  rw [hcfg] at huri hreserved hone
  rw [hblocks] at hone
  have hsecond := h'.shows_all hp' huri hreserved hone
  rw [hcfg, hblocks, hbefore, hrows] at hfirst
  exact hfirst.trans hsecond.symm

/-- The dump of `single` behind a chunk reader that cuts it in two. -/
def cutInTwo : Load where
  cfg := (narrower .append).cfg
  input :=
    { chunks :=
        [⟨unlines newline [ascii "-- Dumped by pg_dump version 17.2", ascii "CREATE TABLE t (",
            ascii "    a integer", ascii ");"], 0⟩,
          ⟨unlines newline [ascii "COPY t (a) FROM stdin;", ascii "1", ascii "\\."], 0⟩] }

/-- The only worker decodes the block of the second chunk. -/
def cutThrough : List (Label 1) :=
  List.replicate 11 (.reader {}) ++ blockDecoded ++ List.replicate 7 (.reader {})

theorem tables_depend_on_bytes_cutInTwo :
    ∃ s s' : System .plain 1, Reachable (narrower .append) (fun _ => []) s ∧
      Reachable cutInTwo (fun _ => []) s' ∧ s.store.visible "out/t" = [[.value (.int 1)]] ∧
      (s.store.visible "out/t").Perm (s'.store.visible "out/t") := by
  have hrun : (runFrom (step (narrower .append))
      (start (narrower .append) (fun _ => []) {} : System .plain 1) loadedThrough).any
        (fun s => decide (s.reportedVersions = some [("t", 1)]) &&
          decide (s.store.visible "out/t" = [[.value (.int 1)]])) = true := by decide +kernel
  have hrun' : (runFrom (step cutInTwo)
      (start cutInTwo (fun _ => []) {} : System .plain 1) cutThrough).any
        (fun s => decide (s.reportedVersions = some [("t", 1)])) = true := by decide +kernel
  have hchunks : ChunkReader.Chunks (cutInTwo.input.chunks.map Chunk.bytes).flatten
      ((narrower .append).input.chunks.map Chunk.bytes) :=
    ⟨by decide +kernel, by decide +kernel, by decide +kernel⟩
  have hchunks' : ChunkReader.Chunks (cutInTwo.input.chunks.map Chunk.bytes).flatten
      (cutInTwo.input.chunks.map Chunk.bytes) := ⟨rfl, by decide +kernel, by decide +kernel⟩
  have hcfg : (narrower .append).cfg = cutInTwo.cfg := rfl
  have huri : tableUri .plain "out" ⟨none, "t"⟩ = .ok "out/t" := by decide +kernel
  obtain ⟨s, hreach, hcheck⟩ := exists_reachable hrun
  obtain ⟨hversions, hvisible⟩ := Bool.and_eq_true_iff.mp hcheck
  obtain ⟨s', hreach', hversions'⟩ := exists_reachable hrun'
  obtain ⟨report, hp, -⟩ := point_of_reportedVersions (of_decide_eq_true hversions)
  obtain ⟨report', hp', -⟩ := point_of_reportedVersions (of_decide_eq_true hversions')
  exact ⟨s, s', hreach, hreach', of_decide_eq_true hvisible,
    tables_depend_on_bytes hcfg hchunks hchunks' hreach hreach' hp hp' huri (fun h => by cases h)
      (fun h => by cases h) rfl⟩

end System

end PgDelta.Pipeline
