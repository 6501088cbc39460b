import PgDelta.Pipeline.Snapshots

/-!
Where a load may write.

Whatever becomes of a load, storage differs only at the locations of tables that
are wanted, and at that of the history where one is kept. All of them lie below
the prefix, and what was there stays the beginning of what is there.
-/

namespace PgDelta.Pipeline

open PgDelta.Lib PgDelta.Builders PgDelta.Types PgDelta.Scan PgDelta.Sink

variable {P : Platform} {n : ℕ}

/-- The locations that a load is asked to write to. -/
def LoadConfig.Writes (P : Platform) (cfg : LoadConfig) (uri : String) : Prop :=
  (∃ table : TableName, cfg.wanted table = true ∧
      (cfg.writeManifest && Manifest.reservedCollision table) = false ∧
      Placed P cfg table.qualified uri) ∨
    cfg.writeManifest = true ∧ tableUri P cfg.outputUri Manifest.manifestTable = .ok uri

/-- Such a location is one or two plain components below the prefix. -/
theorem LoadConfig.Writes.contained {cfg : LoadConfig} {uri : String} (h : cfg.Writes P uri) :
    ∃ rel, Contained rel ∧
      uri = String.ofList (cfg.outputUri.toList.rdropWhile (· = '/')) ++ "/" ++ rel := by
  have hname : ∃ name, tableUri P cfg.outputUri name = .ok uri := by
    rcases h with ⟨table, -, -, name, -, huri⟩ | ⟨-, huri⟩
    · exact ⟨name, huri⟩
    · exact ⟨Manifest.manifestTable, huri⟩
  obtain ⟨name, huri⟩ := hname
  obtain ⟨rel, hrel, heq⟩ := relativePath_of_tableUri huri
  exact ⟨rel, relativePath_contained hrel, heq⟩

/-- Storage differs at those locations alone. -/
def Confined (cfg : LoadConfig) (σ σ' : Store P) : Prop :=
  ∀ uri, σ' uri ≠ σ uri → cfg.Writes P uri

theorem Confined.refl (cfg : LoadConfig) (σ : Store P) : Confined cfg σ σ :=
  fun _ hne => absurd rfl hne

theorem Confined.trans {cfg : LoadConfig} {σ σ' σ'' : Store P} (h : Confined cfg σ σ')
    (h' : Confined cfg σ' σ'') : Confined cfg σ σ'' := by
  intro uri hne
  by_cases hsame : σ'' uri = σ' uri
  · rw [hsame] at hne
    exact h uri hne
  · exact h' uri hsame

/-! ### Phase one -/

namespace Reader

variable {cfg : LoadConfig} {σ : Store P} {r : Reader P}

theorem openWanted_elsewhere (h : Charted cfg r σ) {table : TableName} {names : List String}
    {o : Outside} {uri : String}
    (hne : (r.openWanted (n := n) cfg σ table names o).2 uri ≠ σ uri) :
    Placed P cfg table.qualified uri := by
  unfold openWanted at hne
  split at hne
  next => exact absurd rfl hne
  next definition hdefinition =>
    split at hne
    next => exact absurd rfl hne
    next columns hcolumns =>
      split at hne
      next => exact absurd rfl hne
      next preloaded hpreloaded =>
        have hopens : (finishOpen P preloaded table
            (arrowSchema columns cfg.wideNumericAsDecimal cfg.nativeArrays) cfg.mode σ
            o.openTable).2 uri ≠ σ uri := by
          split at hne
          next hopen => rwa [hopen]
          next hopen => rwa [hopen]
        rcases finishOpen_store P preloaded table
          (arrowSchema columns cfg.wideNumericAsDecimal cfg.nativeArrays) cfg.mode σ
          o.openTable with
          hsame | ⟨-, kernel, hcreate⟩
        · exact absurd (congrFun hsame uri) hopens
        · rw [hcreate] at hopens
          rcases create_cases σ preloaded.uri kernel o.openTable.create with
            ⟨hsame, -⟩ | ⟨-, hpush, -⟩
          · exact absurd (congrFun hsame uri) hopens
          · rw [hpush] at hopens
            have huri : uri = preloaded.uri := by
              by_contra hother
              exact hopens (Store.push_of_ne _ _ hother)
            rw [huri]
            exact (h.takePreload hpreloaded).placed

theorem onEvent_confined [NeZero n] (h : Charted cfg r σ) (event : Event) (o : Outside) :
    Confined cfg σ (r.onEvent (n := n) cfg σ event o).2 := by
  cases event with
  | copyStart table names =>
    simp only [onEvent, onCopyStart]
    split_ifs with hcurrent hreserved hwanted
    · exact .refl cfg σ
    · exact .refl cfg σ
    · have hseen : Charted cfg { r with seenTables := r.seenTables.insert table.qualified } σ :=
        h.congr rfl rfl
      intro uri hne
      refine .inl ⟨table, hwanted, by simpa using hreserved, ?_⟩
      exact openWanted_elsewhere hseen hne
    · exact .refl cfg σ
  | _ => exact .refl cfg σ

end Reader

namespace System

variable {L : Load} {s s₁ : System P n} {σ : Store P} {uri : String}

theorem Reachable.confined_before [NeZero n] (h : Reachable L σ s) :
    Confined L.cfg σ s.store ∧ s.pastPhaseOne = false ∨ ∃ s₁, PhaseTwo L σ s₁ s := by
  refine h.untilPhaseTwo (fun s => Confined L.cfg σ s.store) (fun _ => Confined.refl L.cfg σ)
    fun s a t hreach hbefore hconfined hmove => ?_
  cases hmove with
  | event o event events hp reaction σ' hevent =>
    have hcharted := hreach.charted (by simp [isLate, hp])
    have hopens := Reader.onEvent_confined (n := n) hcharted event o
    rw [hevent] at hopens
    rw [dispatching_store]
    exact hconfined.trans hopens
  | stopEvent o event events hp e σ' hevent =>
    have hcharted := hreach.charted (by simp [isLate, hp])
    have hopens := Reader.onEvent_confined (n := n) hcharted event o
    rw [hevent] at hopens
    exact hconfined.trans hopens
  | send o i job rest after events hp halive hroom =>
    rw [dispatching_store]
    exact hconfined
  | burst o dumpedBy b hp hover b' σ' attempts hburst => simp [pastPhaseOne, hp] at hbefore
  | recorded o report hp loadId σ' hrecorded => simp [pastPhaseOne, hp] at hbefore
  | stopRecord o report hp e σ' hrecord => simp [pastPhaseOne, hp] at hbefore
  | _ => exact hconfined

/-! ### Phase two -/

/-- The commits are made to opened tables, and the history lies at its own
location. -/
theorem Replays.confined (h : Replays L s₁ s)
    (hopened : ∀ t ∈ s₁.targets, ∃ v kernel, Opened L.cfg s₁.store t v kernel) :
    Confined L.cfg s₁.store s.store := by
  obtain ⟨σ₂, log, hreplayed, hstore⟩ := h
  have hcommits : Confined L.cfg s₁.store σ₂ := by
    intro uri hne
    have hmem : uri ∈ log.edits.map Prod.fst := by
      by_contra hnone
      rw [hreplayed.store, CommitLog.on, replay_of_notMem hnone] at hne
      exact hne rfl
    rw [CommitLog.edits, List.map_map] at hmem
    obtain ⟨e, he, rfl⟩ := List.mem_map.mp hmem
    obtain ⟨v, kernel, htarget⟩ :=
      hopened e.1 (hreplayed.targets.subset (List.mem_map_of_mem he))
    obtain ⟨table, hname, hwanted, hreserved⟩ := htarget.wanted
    exact .inl ⟨table, hwanted, hreserved, hname ▸ htarget.placed⟩
  rcases hstore with heq | ⟨hmanifest, report, faults, heq⟩
  · rwa [heq]
  · rw [heq]
    apply hcommits.trans
    intro uri hne
    refine .inr ⟨hmanifest, ?_⟩
    by_contra hother
    apply hne
    exact append_elsewhere σ₂ L.run report faults
      fun history hhistory heq => hother (heq ▸ hhistory)

theorem Reachable.confined [NeZero n] (h : Reachable L σ s) : Confined L.cfg σ s.store := by
  rcases h.confined_before with ⟨hconfined, -⟩ | ⟨s₁, hphase⟩
  · exact hconfined
  · obtain ⟨parts, hprovided⟩ := hphase.provided
    have hcommits := hphase.replays.confined hprovided.opened
    rcases hphase.reachable.confined_before with ⟨hconfined, -⟩ | ⟨s₀, hearlier⟩
    · exact hconfined.trans hcommits
    · -- before phase two there is none
      have hlate := hearlier.inPhaseTwo.isLate
      rw [hphase.isLate] at hlate
      cases hlate

/-- Whatever becomes of a load, and at every moment of it, storage differs only
at locations that the load is asked to write to. They lie below the prefix, and
the versions that were there are still there. -/
theorem writes_are_confined [NeZero n] (h : Reachable L σ s) (hne : s.store uri ≠ σ uri) :
    L.cfg.Writes P uri ∧
      (∃ rel, Contained rel ∧
        uri = String.ofList (L.cfg.outputUri.toList.rdropWhile (· = '/')) ++ "/" ++ rel) ∧
      σ uri <+: s.store uri :=
  ⟨h.confined uri hne, (h.confined uri hne).contained, h.grows uri⟩

theorem writes_are_confined_narrower :
    ∃ s : System .plain 1, Reachable (narrower .overwrite) filled s ∧
      (s.store "out/t").length = 2 ∧ (narrower .overwrite).cfg.Writes .plain "out/t" ∧
      (∃ rel, Contained rel ∧
        "out/t" = String.ofList ("out".toList.rdropWhile (· = '/')) ++ "/" ++ rel) ∧
      filled "out/t" <+: s.store "out/t" := by
  have hrun : (runFrom (step (narrower .overwrite))
      (start (narrower .overwrite) filled {} : System .plain 1) committedThrough).any
        (fun s => decide ((s.store "out/t").length = 2)) = true := by decide +kernel
  obtain ⟨s, hreach, hcheck⟩ := exists_reachable hrun
  have hlength := of_decide_eq_true hcheck
  have hbefore : (filled "out/t").length = 1 := by decide +kernel
  refine ⟨s, hreach, hlength, writes_are_confined hreach fun hsame => ?_⟩
  rw [hsame, hbefore] at hlength
  cases hlength

end System

end PgDelta.Pipeline
