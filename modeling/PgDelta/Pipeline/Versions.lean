import PgDelta.Pipeline.Concluding

/-!
The versions that a load reports.

The outcome of a commit is matched with the first entry under its name. Each
entry so gets the version of its own commit where the names are different, and
where one name comes twice the second entry is left without a version.
-/

namespace PgDelta.Pipeline

open PgDelta.Lib PgDelta.Builders PgDelta.Types PgDelta.Scan PgDelta.Sink

variable {P : Platform} {n : ℕ}

/-! ### Matching outcomes with entries -/

def stamp (t : TableStats) : String × Except Error ℕ → TableStats
  | (name, .ok version) => if t.table = name then { t with deltaVersion := version } else t
  | (_, .error _) => t

@[simp] theorem stamp_table (t : TableStats) (o : String × Except Error ℕ) :
    (stamp t o).table = t.table := by
  obtain ⟨name, outcome⟩ := o
  cases outcome with
  | error e => rfl
  | ok version =>
    simp only [stamp]
    split_ifs <;> rfl

theorem setVersion_of_notMem {name : String} {tables : List TableStats}
    (h : name ∉ tables.map TableStats.table) (version : ℕ) :
    setVersion name version tables = tables := by
  induction tables with
  | nil => rfl
  | cons t tables ih =>
    rw [List.map_cons, List.mem_cons, not_or] at h
    rw [setVersion, if_neg (Ne.symm h.1), ih h.2]

theorem setVersion_of_nodup {tables : List TableStats} (h : (tables.map TableStats.table).Nodup)
    (name : String) (version : ℕ) :
    setVersion name version tables = tables.map fun t => stamp t (name, .ok version) := by
  induction tables with
  | nil => rfl
  | cons t tables ih =>
    rw [List.map_cons, List.nodup_cons] at h
    rw [setVersion, List.map_cons]
    by_cases hname : t.table = name
    · have hrest : tables.map (fun t => stamp t (name, .ok version)) = tables := by
        rw [← ih h.2, setVersion_of_notMem (hname ▸ h.1)]
      rw [if_pos hname, hrest, stamp, if_pos hname]
    · rw [if_neg hname, ih h.2, stamp, if_neg hname]

theorem tally_of_nodup {tables : List TableStats} (h : (tables.map TableStats.table).Nodup)
    (outcomes : List (String × Except Error ℕ)) :
    (tally tables outcomes).tables = tables.map fun t => outcomes.foldl stamp t := by
  have hfold : ∀ (outcomes : List (String × Except Error ℕ)) (t : Tally),
      (t.tables.map TableStats.table).Nodup →
        (outcomes.foldl Tally.add t).tables = t.tables.map fun e => outcomes.foldl stamp e := by
    intro outcomes
    induction outcomes with
    | nil => exact fun t _ => (List.map_id _).symm
    | cons o outcomes ih =>
      intro t ht
      have hadd : (Tally.add t o).tables = t.tables.map fun e => stamp e o := by
        obtain ⟨name, outcome⟩ := o
        cases outcome with
        | ok version => exact setVersion_of_nodup ht name version
        | error e => exact (List.map_id _).symm
      rw [List.foldl_cons, ih, hadd, List.map_map]
      · rfl
      · rw [hadd, List.map_map]
        simpa [Function.comp_def] using ht
  exact hfold outcomes _ h

theorem foldl_stamp_of_mem {outcomes : List (String × Except Error ℕ)}
    (hnodup : (outcomes.map Prod.fst).Nodup) {t : TableStats} {version : ℕ}
    (h : (t.table, .ok version) ∈ outcomes) :
    (outcomes.foldl stamp t).deltaVersion = version := by
  have hkeep : ∀ (outcomes : List (String × Except Error ℕ)) (t : TableStats),
      t.table ∉ outcomes.map Prod.fst → outcomes.foldl stamp t = t := by
    intro outcomes
    induction outcomes with
    | nil => exact fun _ _ => rfl
    | cons o outcomes ih =>
      intro t ht
      rw [List.map_cons, List.mem_cons, not_or] at ht
      have hsame : stamp t o = t := by
        obtain ⟨name, outcome⟩ := o
        cases outcome with
        | ok version => exact if_neg ht.1
        | error e => rfl
      rw [List.foldl_cons, hsame, ih t ht.2]
  induction outcomes generalizing t with
  | nil => cases h
  | cons o outcomes ih =>
    rw [List.map_cons, List.nodup_cons] at hnodup
    rw [List.foldl_cons]
    rcases List.mem_cons.mp h with rfl | h
    · rw [hkeep]
      · rw [stamp, if_pos rfl]
      · rw [stamp_table]
        exact hnodup.1
    · exact ih hnodup.2 (by rwa [stamp_table])

theorem setVersion_of_ne {name : String} {tables : List TableStats} {g : ℕ} {t : TableStats}
    (ht : tables[g]? = some t) (hne : t.table ≠ name) (version : ℕ) :
    (setVersion name version tables)[g]? = some t := by
  induction tables generalizing g with
  | nil => cases ht
  | cons u tables ih =>
    rw [setVersion]
    cases g with
    | zero =>
      obtain rfl : u = t := by simpa using ht
      rw [if_neg hne]
      rfl
    | succ g =>
      rw [List.getElem?_cons_succ] at ht
      split_ifs
      · exact ht
      · exact ih ht

theorem setVersion_of_earlier {tables : List TableStats} {g g' : ℕ} {t t' : TableStats}
    (hlt : g < g') (ht : tables[g]? = some t) (ht' : tables[g']? = some t')
    (hsame : t.table = t'.table) (name : String) (version : ℕ) :
    (setVersion name version tables)[g']? = some t' := by
  by_cases hne : t'.table = name
  · induction tables generalizing g g' with
    | nil => cases ht
    | cons u tables ih =>
      obtain ⟨k', rfl⟩ : ∃ k', g' = k' + 1 := ⟨g' - 1, by omega⟩
      rw [List.getElem?_cons_succ] at ht'
      rw [setVersion]
      by_cases hname : u.table = name
      · rw [if_pos hname, List.getElem?_cons_succ, ht']
      · rw [if_neg hname, List.getElem?_cons_succ]
        cases g with
        | zero =>
          obtain rfl : u = t := by simpa using ht
          exact absurd (hsame.trans hne) hname
        | succ k =>
          rw [List.getElem?_cons_succ] at ht
          exact ih (Nat.lt_of_succ_lt_succ hlt) ht ht'
  · exact setVersion_of_ne ht' hne version

/-- The second entry under a name keeps what it had. -/
theorem tally_of_earlier {tables : List TableStats} {g g' : ℕ} {t t' : TableStats} (hlt : g < g')
    (ht : tables[g]? = some t) (ht' : tables[g']? = some t') (hsame : t.table = t'.table)
    (outcomes : List (String × Except Error ℕ)) :
    (tally tables outcomes).tables[g']? = some t' := by
  have hkeep : ∀ (u : Tally) o, (u.tables.map TableStats.table = tables.map TableStats.table ∧
      u.tables[g']? = some t') → ((Tally.add u o).tables.map TableStats.table =
        tables.map TableStats.table ∧ (Tally.add u o).tables[g']? = some t') := by
    rintro u ⟨name, outcome⟩ ⟨hnames, hu⟩
    cases outcome with
    | error e => exact ⟨hnames, hu⟩
    | ok version =>
      refine ⟨?_, ?_⟩
      · have hunversioned := congrArg (List.map TableStats.table)
          (unversioned_setVersion name version u.tables)
        rw [List.map_map, List.map_map] at hunversioned
        exact hunversioned.trans hnames
      · -- the earlier entry is still under the name
        have hearlier := congrArg (fun names => names[g]?) hnames
        simp only [List.getElem?_map, ht, Option.map_some] at hearlier
        obtain ⟨u₀, hu₀, htable⟩ := Option.map_eq_some_iff.mp hearlier
        exact setVersion_of_earlier hlt hu₀ hu (htable.trans hsame) name version
  have hfold : ∀ (outcomes : List (String × Except Error ℕ)) (u : Tally),
      (u.tables.map TableStats.table = tables.map TableStats.table ∧ u.tables[g']? = some t') →
        (outcomes.foldl Tally.add u).tables[g']? = some t' := by
    intro outcomes
    induction outcomes with
    | nil => exact fun u hu => hu.2
    | cons o outcomes ih => exact fun u hu => ih _ (hkeep u o hu)
  exact hfold outcomes _ ⟨rfl, ht'⟩

/-! ### Reading a table at its version -/

/-- The version of an entry is one that the load has committed, and shows what
the load leaves in the table: what the table had shown, unless it is
overwritten, and the rows of all blocks under its name. -/
def Reconstructs (cfg : LoadConfig) (σ σ' : Store P) (blocks : List DumpBlock)
    (stats : TableStats) : Prop :=
  ∃ uri v, Placed P cfg stats.table uri ∧ 0 < stats.deltaVersion ∧
    (σ uri).length ≤ stats.deltaVersion ∧ (σ' uri)[stats.deltaVersion]? = some v ∧
      v.rows.Perm ((if cfg.mode = .overwrite then [] else σ.visible uri) ++
        rowsUnder cfg stats.table blocks)

/-- The history shows the entries of a report behind what it showed. -/
def RecordedIn (L : Load) (report : LoadReport) (σ σ' : Store P) : Prop :=
  ∃ loadId now batch history, report.loadId = some loadId ∧
    Manifest.rowsFor { report with loadId := none } loadId now = .ok batch ∧
    tableUri P L.cfg.outputUri Manifest.manifestTable = .ok history ∧
    σ'.visible history = σ.visible history ++ batch.rows

theorem filter_of_nodup {α : Type*} {nameOf : α → String} {xs : List α}
    (h : (xs.map nameOf).Nodup) {x : α} (hx : x ∈ xs) :
    xs.filter (fun y => nameOf y = nameOf x) = [x] := by
  induction xs with
  | nil => cases hx
  | cons y xs ih =>
    rw [List.map_cons, List.nodup_cons] at h
    rcases List.mem_cons.mp hx with rfl | hx
    · have hnone : xs.filter (fun y => nameOf y = nameOf x) = [] := by
        rw [List.filter_eq_nil_iff]
        intro y hy heq
        exact h.1 (List.mem_map.mpr ⟨y, hy, by simpa using heq⟩)
      simp [hnone]
    · have hne : nameOf y ≠ nameOf x := by
        intro heq
        exact h.1 (heq ▸ List.mem_map_of_mem hx)
      simpa [hne] using ih h.2 hx

namespace System

variable {L : Load} {s s₁ : System P n} {σ σ₂ : Store P} {report : LoadReport} {b : Burst P}
  {log : CommitLog P} {settled : List (CommitResult P)} {parts : List (List (Action P))}

theorem Succeeded.entries [NeZero n] (h : Succeeded L σ s report s₁ σ₂ b log settled parts)
    {blocks : List DumpBlock} (haccomplished : Accomplished L s report blocks) :
    s₁.reader.tables.map TableStats.table = blocks.map (fun b => b.table.qualified) ∧
      ∀ stats ∈ s₁.reader.tables, stats.deltaVersion = 0 := by
  refine ⟨?_, ?_⟩
  · have hunversioned := unversioned_tally s₁.reader.tables b.outcomes
    rw [← h.concluded.tables] at hunversioned
    have htables := congrArg (List.map TableStats.table) hunversioned
    rw [List.map_map, List.map_map] at htables
    rw [← haccomplished.names]
    exact htables.symm
  · have hstored := h.phaseTwo.reachable_last.stored.unversioned
    rwa [h.phaseTwo.inPhaseTwo.1] at hstored

/-- Under different names, every entry has the version of its commit. -/
theorem Succeeded.reconstructs [NeZero n] (h : Succeeded L σ s report s₁ σ₂ b log settled parts)
    {blocks : List DumpBlock} (haccomplished : Accomplished L s report blocks)
    (hnodup : (blocks.map fun b => b.table.qualified).Nodup) {stats : TableStats}
    (hstats : stats ∈ report.tables) : Reconstructs L.cfg σ s.store blocks stats := by
  have hnames := h.names haccomplished
  -- the target of the entry
  have hmem : stats.table ∈ s₁.targets.map CommitTarget.qualified := by
    rw [hnames, ← haccomplished.names]
    exact List.mem_map_of_mem hstats
  obtain ⟨t, ht, hname⟩ := List.mem_map.mp hmem
  have hone : s₁.targets.filter (fun t' => t'.qualified = t.qualified) = [t] :=
    filter_of_nodup (by rwa [hnames]) ht
  obtain ⟨v, kernel, hopened⟩ := h.provided.opened t ht
  obtain ⟨actions, hprepares, hstore, hsettled⟩ := h.concluded.single h.provided hone hopened
  have hversion : stats.deltaVersion = (s₁.store t.table.uri).length := by
    have houtcomes : (b.outcomes.map Prod.fst).Nodup := by
      have hperm := h.concluded.settled_perm.map CommitTarget.qualified
      rw [hnames, List.map_map] at hperm
      rw [h.concluded.serial.outcomes, List.map_map]
      exact hperm.nodup_iff.mp hnodup
    obtain ⟨hentries, -⟩ := h.entries haccomplished
    rw [h.concluded.tables, tally_of_nodup (by rwa [hentries])] at hstats
    obtain ⟨entry, -, rfl⟩ := List.mem_map.mp hstats
    have htable : ∀ (outcomes : List (String × Except Error ℕ)) (e : TableStats),
        (outcomes.foldl stamp e).table = e.table := by
      intro outcomes
      induction outcomes with
      | nil => exact fun _ => rfl
      | cons o outcomes ih => exact fun e => (ih _).trans (stamp_table e o)
    apply foldl_stamp_of_mem houtcomes
    rw [htable] at hname
    rw [h.concluded.serial.outcomes, ← hname]
    exact List.mem_map.mpr ⟨_, hsettled, rfl⟩
  have hstanding : s₁.store t.table.uri ≠ [] := by
    intro hnone
    have hcurrent := hopened.current
    rw [hnone] at hcurrent
    cases hcurrent
  refine ⟨t.table.uri, v.apply actions, hname ▸ hopened.placed, ?_, ?_, ?_, ?_⟩
  · rw [hversion]
    exact List.length_pos_iff.mpr hstanding
  · rw [hversion]
    exact (h.created.grows t.table.uri).length_le
  · rw [h.store_target ht, hstore, hversion]
    simp
  · have hvisible : v.rows = σ.visible t.table.uri := by
      rw [← h.created.visible, Store.visible, hopened.current]
      rfl
    have hactions : actionsUnder t.qualified s₁.targets = t.actions := by
      rw [actionsUnder, hone]
      simp
    have hrows := h.provided.rows haccomplished (h.titles haccomplished) t.qualified
    rw [hactions, hname] at hrows
    rw [hopened.rows_apply (h.provided.onlyAdds ht) hprepares, hvisible]
    exact hrows.append_left _

/-- The history of a load that keeps one. -/
theorem Succeeded.recordedIn [NeZero n] (h : Succeeded L σ s report s₁ σ₂ b log settled parts)
    (hmanifest : L.cfg.writeManifest = true) : RecordedIn L report σ s.store := by
  rcases h.recorded with ⟨hnone, -⟩ | ⟨-, o, loadId, hloadId, happend⟩
  · rw [hmanifest] at hnone
    cases hnone
  · obtain ⟨now, batch, history, hbatch, hhistory, hvisible⟩ := append_recorded happend
    refine ⟨loadId, now, batch, history, hloadId, hbatch, hhistory, ?_⟩
    -- no commit of phase two is one of the history
    have hsame : σ₂ history = s₁.store history := by
      rw [h.concluded.serial.store]
      apply replay_of_notMem
      intro hmem
      obtain ⟨edit, hedit, heq⟩ := List.mem_map.mp hmem
      obtain ⟨e, he, rfl⟩ := List.mem_map.mp hedit
      obtain ⟨v, kernel, hopened⟩ := h.provided.opened e.1 (h.concluded.serial.mem_targets he)
      exact hopened.apart hmanifest hhistory heq
    rw [hvisible, ← h.created.visible, Store.visible, Store.visible, hsame]

/-- The versions that a successful load reports, and records in its history,
reconstruct it exactly when no two blocks of the dump that it loads are of one
table. -/
theorem versions_reconstruct_iff [NeZero n] (h : Reachable L σ s)
    (hp : s.point = .done (.ok report)) {scanner : Scanner} {events : List Event}
    (hscan : L.cfg.scanner.feedAll (L.input.chunks.map Chunk.bytes) = .ok (scanner, events)) :
    ((∀ stats ∈ report.tables, Reconstructs L.cfg σ s.store (wantedBlocks L.cfg events) stats) ↔
      ((wantedBlocks L.cfg events).map fun b => b.table.qualified).Nodup) ∧
      (L.cfg.writeManifest = true → RecordedIn L report σ s.store) := by
  obtain ⟨s₁, σ₂, b, log, settled, parts, hsucceeded⟩ := h.succeeded hp
  obtain ⟨scanner', events', hfeed, haccomplished⟩ := h.accomplished hp
  obtain ⟨rfl, rfl⟩ := Prod.mk.inj (Except.ok.inj (hscan.symm.trans hfeed))
  refine ⟨⟨fun hall => ?_, fun hnodup stats => hsucceeded.reconstructs haccomplished hnodup⟩,
    hsucceeded.recordedIn⟩
  by_contra hrepeated
  rw [← haccomplished.names, List.Nodup, List.pairwise_iff_getElem] at hrepeated
  push Not at hrepeated
  obtain ⟨g, g', hg, hg', hlt, hsame⟩ := hrepeated
  obtain ⟨hentries, hzero⟩ := hsucceeded.entries haccomplished
  -- the second entry under the name is as it was before the commits
  simp only [List.length_map] at hg hg'
  have hentry : ∀ (k : ℕ) (hk : k < report.tables.length), ∃ entry : TableStats,
      s₁.reader.tables[k]? = some entry ∧ entry.table = report.tables[k].table := by
    intro k hk
    have hk' := congrArg (fun names => names[k]?) (hentries.trans haccomplished.names.symm)
    simp only [List.getElem?_map, List.getElem?_eq_getElem hk, Option.map_some] at hk'
    obtain ⟨entry, hentry, htable⟩ := Option.map_eq_some_iff.mp hk'
    exact ⟨entry, hentry, htable⟩
  obtain ⟨entry, hentry₁, htable⟩ := hentry g hg
  obtain ⟨entry', hentry₁', htable'⟩ := hentry g' hg'
  have hkept := tally_of_earlier hlt hentry₁ hentry₁'
    (by rw [htable, htable']; simpa using hsame) b.outcomes
  rw [← hsucceeded.concluded.tables, List.getElem?_eq_getElem hg', Option.some.injEq] at hkept
  obtain ⟨-, -, -, hpos, -⟩ := hall _ (List.getElem_mem hg')
  rw [hkept, hzero _ (List.mem_of_getElem? hentry₁')] at hpos
  exact absurd hpos (lt_irrefl 0)

def reportedVersions (s : System P n) : Option (List (String × ℕ)) :=
  match s.point with
  | .done (.ok report) => some (report.tables.map fun stats => (stats.table, stats.deltaVersion))
  | _ => none

theorem point_of_reportedVersions {versions : List (String × ℕ)}
    (h : s.reportedVersions = some versions) : ∃ report, s.point = .done (.ok report) ∧
      report.tables.map (fun stats => (stats.table, stats.deltaVersion)) = versions := by
  unfold reportedVersions at h
  split at h
  next report hp => exact ⟨report, hp, Option.some.inj h⟩
  next => cases h

/-- One row each in two blocks of one table, to be appended. -/
def twice : Load where
  cfg := { outputUri := "out", mode := .append, writeManifest := false }
  input :=
    { chunks :=
        [⟨unlines newline [ascii "-- Dumped by pg_dump version 17.2", ascii "CREATE TABLE t (",
            ascii "    a integer", ascii ");", ascii "COPY t (a) FROM stdin;", ascii "1",
            ascii "\\.", ascii "COPY t (a) FROM stdin;", ascii "2", ascii "\\."], 0⟩] }

/-- Both blocks are decoded, and their commits come one after the other. -/
def twiceThrough : List (Label 1) :=
  blockClosed ++ List.replicate 6 (.reader {}) ++ blockDecoded ++ List.replicate 10 (.reader {})

theorem versions_reconstruct_iff_single :
    ∃ (events : List Event) (s : System .plain 1) (report : LoadReport),
      Reachable single (fun _ => []) s ∧ s.point = .done (.ok report) ∧
      report.tables.map (fun stats => (stats.table, stats.deltaVersion)) = [("t", 1)] ∧
      ((∀ stats ∈ report.tables, Reconstructs single.cfg (fun _ => []) s.store
          (wantedBlocks single.cfg events) stats) ↔
        ((wantedBlocks single.cfg events).map fun b => b.table.qualified).Nodup) ∧
      (single.cfg.writeManifest = true → RecordedIn single report (fun _ => []) s.store) := by
  have hrun : (runFrom (step single) (start single (fun _ => []) {} : System .plain 1)
      (blockClosed ++ List.replicate 7 (.reader {}))).any
        (fun s => decide (s.reportedVersions = some [("t", 1)])) = true := by decide +kernel
  obtain ⟨s, hs, hversions⟩ := exists_reachable hrun
  obtain ⟨report, hp, hreport⟩ := point_of_reportedVersions (of_decide_eq_true hversions)
  obtain ⟨scanner, events, hscan, -⟩ := hs.accomplished hp
  exact ⟨events, s, report, hs, hp, hreport, versions_reconstruct_iff hs hp hscan⟩

/-- The entry of the second block names the version that was there before. -/
theorem versions_reconstruct_counterexample :
    ∃ (events : List Event) (s : System .plain 1) (report : LoadReport),
      Reachable twice (fun _ => []) s ∧ s.point = .done (.ok report) ∧
      report.tables.map (fun stats => (stats.table, stats.deltaVersion)) = [("t", 2), ("t", 0)] ∧
      (twice.cfg.scanner.feedAll (twice.input.chunks.map Chunk.bytes)).map Prod.snd = .ok events ∧
      ¬ ∀ stats ∈ report.tables, Reconstructs twice.cfg (fun _ => []) s.store
        (wantedBlocks twice.cfg events) stats := by
  have hrun : (runFrom (step twice) (start twice (fun _ => []) {} : System .plain 1)
      twiceThrough).any (fun s => decide (s.reportedVersions = some [("t", 2), ("t", 0)]))
        = true := by
    decide +kernel
  obtain ⟨s, hs, hversions⟩ := exists_reachable hrun
  obtain ⟨report, hp, hreport⟩ := point_of_reportedVersions (of_decide_eq_true hversions)
  obtain ⟨scanner, events, hscan, -⟩ := hs.accomplished hp
  refine ⟨events, s, report, hs, hp, hreport, by rw [hscan]; rfl, fun hall => ?_⟩
  have hmem : ("t", 0) ∈ report.tables.map fun stats => (stats.table, stats.deltaVersion) := by
    rw [hreport]
    simp
  obtain ⟨stats, hstats, heq⟩ := List.mem_map.mp hmem
  obtain ⟨-, -, -, hpos, -⟩ := hall stats hstats
  rw [(Prod.mk.inj heq).2] at hpos
  exact absurd hpos (lt_irrefl 0)

end System

end PgDelta.Pipeline
