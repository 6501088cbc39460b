import PgDelta.Manifest.History
import PgDelta.Sink.Growth

/-!
What an append to the load history does to storage.
-/

namespace PgDelta.Manifest

open PgDelta.Builders PgDelta.Sink PgDelta.Pipeline

variable {P : Platform} {pre : String} {run : ℕ} {σ : Store P} {faults : HistoryFaults}

theorem openSink_store (P : Platform) (pre : String) (run : ℕ) (σ : Store P)
    (faults : HistoryFaults) :
    (openSink P pre run σ faults).2 = σ ∨ ∃ preloaded,
      preloadTable P pre manifestTable σ faults.preload = .ok preloaded ∧
      (openSink P pre run σ faults).2 =
        (finishOpen P preloaded manifestTable schema .append σ faults.openTable).2 := by
  unfold openSink
  split
  next => exact .inl rfl
  next =>
    split
    next => exact .inl rfl
    next preloaded hpreloaded =>
      right
      refine ⟨preloaded, hpreloaded, ?_⟩
      split
      next hopen => rw [hopen]
      next hopen =>
        rw [hopen]
        split <;> rfl

theorem openSink_call (P : Platform) (pre : String) (run : ℕ) (σ : Store P)
    (faults : HistoryFaults) : σ.Call (openSink P pre run σ faults).2 := by
  rcases openSink_store P pre run σ faults with hsame | ⟨preloaded, -, hopen⟩
  · rw [hsame]
    exact .nothing
  · rw [hopen]
    exact finishOpen_call P _ _ _ _ σ _

theorem append_calls (P : Platform) (pre : String) (run : ℕ) (report : LoadReport) (σ : Store P)
    (faults : HistoryFaults) :
    (append P pre run report σ faults).2 = σ ∨
      (openSink P pre run σ faults).2.Call (append P pre run report σ faults).2 := by
  unfold append
  simp only
  split
  next => exact .inl rfl
  next batch _ =>
    right
    split
    next hopen =>
      rw [hopen]
      exact .nothing
    next opened writer σ' hopen =>
      rw [hopen]
      split
      next => exact .nothing
      next staged _ =>
        have hcall := commitTable_call P σ' opened.table staged .append
          (if opened.drift.isEmpty = true then none else some schema) faults.commit
        split
        next hcommit => rwa [hcommit] at hcall
        next hcommit => rwa [hcommit] at hcall

theorem openSink_ok {opened : OpenedTable P} {writer : TableWriter}
    (h : (openSink P pre run σ faults).1 = .ok (opened, writer)) :
    (∃ preloaded, preloadTable P pre manifestTable σ faults.preload = .ok preloaded ∧
      finishOpen P preloaded manifestTable schema .append σ faults.openTable =
        (.ok opened, (openSink P pre run σ faults).2)) ∧
      writer = ⟨opened.uri, schema, ⟨run, 0, 0, 0⟩, [], 0⟩ := by
  unfold openSink at h ⊢
  split at h
  next => cases h
  next hresolve =>
    split at h
    next => cases h
    next preloaded hpreloaded =>
      split at h
      next => cases h
      next opened' σ' hopen =>
        split at h
        next => cases h
        next writer' hwriter =>
          simp only [Except.ok.injEq, Prod.mk.injEq] at h
          obtain ⟨rfl, rfl⟩ := h
          refine ⟨⟨preloaded, hpreloaded, ?_⟩, ?_⟩
          · simp only [hopen]
          · unfold TableWriter.new at hwriter
            split at hwriter
            next => cases hwriter
            next => exact (Except.ok.inj hwriter).symm

theorem stageBatch_ok {writer : TableWriter} {batch : RecordBatch} {staged : List (Action P)}
    (hempty : writer.batches = []) (h : stageBatch P writer batch faults = .ok staged) :
    (∀ a ∈ staged, ∃ f, a = .add f ∧ f.schema = writer.schema) ∧
      (added staged).flatMap File.batches = [batch] := by
  unfold stageBatch TableWriter.write at h
  split at h
  next => cases h
  next writer' hwrite =>
    split at hwrite
    next => cases hwrite
    next =>
      obtain rfl := Except.ok.inj hwrite
      unfold TableWriter.stage at h
      split at h
      next => cases h
      next =>
        obtain rfl := Except.ok.inj h
        refine ⟨?_, ?_⟩
        · intro a ha
          obtain ⟨i, hi, rfl⟩ := List.mem_mapIdx.mp ha
          exact ⟨_, rfl, rfl⟩
        · have hbatches : ∀ (groups : List (List RecordBatch)) (path : ℕ → FilePath),
              (added (groups.mapIdx fun i batches =>
                (.add ⟨path i, writer.schema, batches⟩ : Action P))).flatMap File.batches =
                groups.flatten := by
            intro groups
            induction groups with
            | nil => exact fun _ => rfl
            | cons group groups ih =>
              intro path
              simp only [List.mapIdx_cons, added, List.flatMap_cons, List.flatten_cons]
              rw [ih fun i => path (i + 1)]
          rw [hbatches _ fun i => { writer.path with part := i }, P.flush_covers, hempty]
          rfl

/-- How an append ends: with an error before its commit, or with what its
commit came to. -/
theorem append_cases (P : Platform) (pre : String) (run : ℕ) (report : LoadReport) (σ : Store P)
    (faults : HistoryFaults) :
    ((∃ e, (append P pre run report σ faults).1 = .error e) ∧
      ((append P pre run report σ faults).2 = σ ∨
        (append P pre run report σ faults).2 = (openSink P pre run σ faults).2)) ∨
    ∃ batch opened writer staged newSchema,
      rowsFor report (padded faults.now) faults.now = .ok batch ∧
      (openSink P pre run σ faults).1 = .ok (opened, writer) ∧
      stageBatch P writer batch faults = .ok staged ∧
      (append P pre run report σ faults).2 = (commitTable P (openSink P pre run σ faults).2
        opened.table staged .append newSchema faults.commit).2 ∧
      ∀ loadId, (append P pre run report σ faults).1 = .ok loadId → loadId = padded faults.now ∧
        ∃ version, (commitTable P (openSink P pre run σ faults).2 opened.table staged .append
          newSchema faults.commit).1 = .ok version := by
  unfold append
  simp only
  split
  next e _ => exact .inl ⟨⟨e, rfl⟩, .inl rfl⟩
  next batch hbatch =>
    split
    next e σ' hopen =>
      left
      rw [hopen]
      exact ⟨⟨e, rfl⟩, .inr rfl⟩
    next opened writer σ' hopen =>
      rw [hopen]
      split
      next e _ => exact .inl ⟨⟨e, rfl⟩, .inr rfl⟩
      next staged hstaged =>
        refine .inr ⟨batch, opened, writer, staged,
          if opened.drift.isEmpty = true then none else some schema, hbatch, rfl, hstaged, ?_⟩
        split
        next e σ'' hcommit =>
          rw [hcommit]
          exact ⟨rfl, fun loadId h => by cases h⟩
        next version σ'' hcommit =>
          rw [hcommit]
          exact ⟨rfl, fun loadId h => ⟨(Except.ok.inj h).symm, version, rfl⟩⟩

/-- The history only grows, and so does everything else. -/
theorem append_grows (P : Platform) (pre : String) (run : ℕ) (report : LoadReport) (σ : Store P)
    (faults : HistoryFaults) : σ.Grows (append P pre run report σ faults).2 := by
  rcases append_calls P pre run report σ faults with hsame | hcall
  · rw [hsame]
    exact .refl σ
  · exact (openSink_call P pre run σ faults).grows.trans hcall.grows

end PgDelta.Manifest
