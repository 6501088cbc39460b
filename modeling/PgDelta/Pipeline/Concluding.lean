import PgDelta.Pipeline.Declared

/-!
What a load that has succeeded leaves in storage.

Every target has its commit in the log, so that a table has one new version for
each target under its name, and the commits under a name bring between them the
rows of all blocks under it. The append to the history goes elsewhere.
-/

namespace PgDelta.Pipeline

open PgDelta.Lib PgDelta.Builders PgDelta.Types PgDelta.Scan PgDelta.Sink

variable {P : Platform} {n : ℕ}

/-! ### The rows under a name -/

/-- The rows that the lines of a block decode to. -/
def DumpBlock.rows (cfg : LoadConfig) (b : DumpBlock) : List Row := b.lines.map (b.ctx cfg).rowOf

def rowsUnder (cfg : LoadConfig) (name : String) (blocks : List DumpBlock) : List Row :=
  (blocks.filter fun b => b.table.qualified = name).flatMap (DumpBlock.rows cfg)

/-- The rows in the files that some actions add. -/
def addedRows (actions : List (Action P)) : List Row := (added actions).flatMap File.rows

@[simp] theorem addedRows_append (as bs : List (Action P)) :
    addedRows (as ++ bs) = addedRows as ++ addedRows bs := by
  simp [addedRows]

theorem addedRows_eq (actions : List (Action P)) :
    addedRows actions = ((added actions).flatMap File.batches).flatMap RecordBatch.rows := by
  rw [addedRows, List.flatMap_assoc]
  rfl

theorem perm_rowsUnder {cfg : LoadConfig} {name : String} {blocks : List DumpBlock}
    {pairs : List (CommitTarget P × List (Action P))}
    (h : List.Forall₂ (fun e b => e.1.qualified = b.table.qualified ∧
      (addedRows e.2).Perm (b.rows cfg)) pairs blocks) :
    (addedRows ((pairs.filter fun e => e.1.qualified = name).flatMap Prod.snd)).Perm
      (rowsUnder cfg name blocks) := by
  induction h with
  | nil => exact List.Perm.refl _
  | @cons e b pairs blocks hhead _ ih =>
    obtain ⟨hname, hrows⟩ := hhead
    unfold rowsUnder at ih ⊢
    by_cases heq : b.table.qualified = name
    · have heq' : e.1.qualified = name := hname.trans heq
      simpa [heq, heq'] using hrows.append ih
    · have heq' : e.1.qualified ≠ name := by rwa [hname]
      simpa [heq, heq'] using ih

theorem Provided.rows {L : Load} {σ₁ : Store P} {s : System P n} {targets : List (CommitTarget P)}
    {parts : List (List (Action P))} {report : LoadReport} {blocks : List DumpBlock}
    (h : Provided L σ₁ s.trace targets parts)
    (haccomplished : System.Accomplished L s report blocks)
    (htitles : targets.map CommitTarget.title = blocks.map (DumpBlock.title L.cfg))
    (name : String) :
    (addedRows (actionsUnder name targets)).Perm (rowsUnder L.cfg name blocks) := by
  rw [h.actions]
  apply perm_rowsUnder
  have hlength : targets.length = blocks.length := by
    simpa using congrArg List.length htitles
  rw [List.forall₂_iff_get]
  refine ⟨by simp [h.length, hlength], fun g hg hg' => ?_⟩
  simp only [List.length_zip, h.length, min_self] at hg
  have hpart := List.getElem?_eq_getElem (hg.trans_eq h.length.symm)
  have htitle := congrArg (fun titles => titles[g]?) htitles
  simp only [List.getElem?_map, List.getElem?_eq_getElem hg, List.getElem?_eq_getElem hg',
    Option.map_some, Option.some.injEq] at htitle
  have hstats := List.getElem?_eq_getElem (hg'.trans_eq haccomplished.length.symm)
  have hloaded := haccomplished.loaded g _ _ (List.getElem?_eq_getElem hg') hstats
  have hcovers := (h.contributes g _ _ hpart (List.getElem?_eq_getElem hg)).covers
  simp only [List.get_eq_getElem, List.getElem_zip]
  refine ⟨congrArg Prod.fst htitle, ?_⟩
  rw [addedRows_eq]
  exact (hcovers.flatMap_right _).trans hloaded.written

/-! ### The log of a load that has succeeded -/

/-- Where no failure is found, every outcome is one of success. -/
theorem isOk_of_tally {tables : List TableStats} {outcomes : List (String × Except Error ℕ)}
    (h : (tally tables outcomes).failure = none) : ∀ o ∈ outcomes, o.2.isOk = true := by
  have hfold : ∀ (outcomes : List (String × Except Error ℕ)) (t : Tally),
      (outcomes.foldl Tally.add t).failure = none →
        t.failure = none ∧ ∀ o ∈ outcomes, o.2.isOk = true := by
    intro outcomes
    induction outcomes with
    | nil => exact fun t ht => ⟨ht, by simp⟩
    | cons o outcomes ih =>
      intro t ht
      obtain ⟨name, outcome⟩ := o
      obtain ⟨hfirst, hrest⟩ := ih _ ht
      cases outcome with
      | ok version => exact ⟨hfirst, by simpa [Except.isOk, Except.toBool] using hrest⟩
      | error e => simp [Tally.add] at hfirst
  exact (hfold _ _ h).2

namespace System.Concluded

variable {L : Load} {s₁ : System P n} {σ : Store P} {report : LoadReport} {b : Burst P}
  {attempts : List Attempt} {log : CommitLog P} {settled : List (CommitResult P)}

theorem isOk (h : Concluded L s₁ σ report b attempts log settled) :
    ∀ c ∈ settled, c.outcome.isOk = true := by
  intro c hc
  apply isOk_of_tally h.succeeded (c.target.qualified, c.outcome)
  rw [h.serial.outcomes]
  exact List.mem_map_of_mem hc

theorem settled_perm (h : Concluded L s₁ σ report b attempts log settled) :
    s₁.targets.Perm (settled.map CommitResult.target) := by
  have hpartition := h.serial.partition
  rwa [Burst.isOver_iff.mp h.isOver, List.append_nil] at hpartition

theorem log_perm (h : Concluded L s₁ σ report b attempts log settled) :
    (log.map Prod.fst).Perm s₁.targets := by
  have hflight : b.flight = [] := by
    have hnone := Burst.isOver_iff.mp h.isOver
    simpa using (List.append_eq_nil_iff.mp hnone).1
  have hvisible := h.serial.visible
  rw [hflight, List.filter_nil, List.map_nil, List.append_nil] at hvisible
  have hall : settled.filter CommitResult.visible = settled :=
    List.filter_eq_self.mpr fun c hc => h.serial.succeeded c hc (h.isOk c hc)
  rw [hall] at hvisible
  exact hvisible.trans h.settled_perm.symm

/-- The commits at the location of a target are those of the targets under its
name. -/
theorem edits_perm {trace : Trace} {parts : List (List (Action P))}
    (h : Concluded L s₁ σ report b attempts log settled)
    (hprovided : Provided L s₁.store trace s₁.targets parts) {t : CommitTarget P}
    (ht : t ∈ s₁.targets) :
    ((log.filter fun e => e.1.table.uri = t.table.uri).map Prod.fst).Perm
      (s₁.targets.filter fun t' => t'.qualified = t.qualified) := by
  have hfilter : (log.filter fun e => e.1.table.uri = t.table.uri).map Prod.fst =
      (log.map Prod.fst).filter fun t' => t'.table.uri = t.table.uri := by
    rw [List.filter_map]
    rfl
  have hsame : s₁.targets.filter (fun t' => t'.table.uri = t.table.uri) =
      s₁.targets.filter fun t' => t'.qualified = t.qualified := by
    apply List.filter_congr
    intro t' ht'
    simpa using hprovided.uri_iff ht' ht
  rw [hfilter, ← hsame]
  exact h.log_perm.filter _

theorem tables (h : Concluded L s₁ σ report b attempts log settled) :
    report.tables = (tally s₁.reader.tables b.outcomes).tables := by
  obtain ⟨dumpedBy, hreport⟩ := h.report
  exact congrArg LoadReport.tables hreport

end System.Concluded

theorem editsOf_edits (log : CommitLog P) (uri : String) :
    editsOf log.edits uri = (log.filter fun e => e.1.table.uri = uri).map Prod.snd := by
  rw [editsOf, CommitLog.edits, List.filter_map, List.map_map]
  rfl

/-- The commit of a target that has its name for itself. -/
theorem System.Concluded.single {L : Load} {s₁ : System P n} {σ : Store P} {report : LoadReport}
    {b : Burst P} {attempts : List Attempt} {log : CommitLog P} {settled : List (CommitResult P)}
    {trace : Trace} {parts : List (List (Action P))}
    (h : Concluded L s₁ σ report b attempts log settled)
    (hprovided : Provided L s₁.store trace s₁.targets parts) {t : CommitTarget P}
    (hone : s₁.targets.filter (fun t' => t'.qualified = t.qualified) = [t]) {v : Version P}
    {kernel : StructType P} (hopened : Opened L.cfg s₁.store t v kernel) :
    ∃ actions, Prepares L.cfg t actions ∧
      σ t.table.uri = s₁.store t.table.uri ++ [v.apply actions] ∧
      ⟨t, .ok (s₁.store t.table.uri).length, true⟩ ∈ settled := by
  have ht : t ∈ s₁.targets := List.mem_of_mem_filter (hone ▸ List.mem_singleton_self t)
  have hfilter : ∃ actions, log.filter (fun e => e.1.table.uri = t.table.uri) = [(t, actions)] := by
    have hperm := h.edits_perm hprovided ht
    rw [hone, List.perm_singleton] at hperm
    obtain ⟨⟨t', actions⟩, heq, rfl⟩ := List.map_eq_singleton_iff.mp hperm
    exact ⟨actions, heq⟩
  obtain ⟨actions, hfilter⟩ := hfilter
  have hmem : (t, actions) ∈ log := List.mem_of_mem_filter (hfilter ▸ List.mem_singleton_self _)
  refine ⟨actions, h.serial.prepared _ hmem, ?_, ?_⟩
  · rw [h.serial.store, CommitLog.on, replay_apply hopened.current, editsOf_edits, hfilter]
    rfl
  · obtain ⟨c, hc, rfl⟩ := List.mem_map.mp (h.settled_perm.mem_iff.mp ht)
    have hok := h.isOk c hc
    have hvisible := h.serial.succeeded c hc hok
    obtain ⟨target, outcome, visible⟩ := c
    obtain rfl : visible = true := hvisible
    cases outcome with
    | error e => cases hok
    | ok version =>
      obtain ⟨before, actions', after, hlog, hversion⟩ := h.serial.versions _ _ (.inr hc)
      -- nothing was committed at the location before
      have hnone : editsOf before.edits target.table.uri = [] := by
        have hlength := congrArg List.length hfilter
        rw [hlog, List.filter_append, List.filter_cons_of_pos (by simp), List.length_append]
          at hlength
        rw [editsOf_edits, List.map_eq_nil_iff, List.eq_nil_iff_length_eq_zero]
        simp only [List.length_cons, List.length_nil] at hlength
        omega
      have hsame : CommitLog.on before s₁.store target.table.uri = s₁.store target.table.uri := by
        rw [CommitLog.on, replay_apply hopened.current, hnone]
        simp
      rw [hsame] at hversion
      rwa [← hversion]

theorem Opened.rows_apply {cfg : LoadConfig} {σ : Store P} {t : CommitTarget P} {v : Version P}
    {kernel : StructType P} (h : Opened cfg σ t v kernel) (hadds : OnlyAdds t.actions)
    {actions : List (Action P)} (hprepares : Prepares cfg t actions) :
    (v.apply actions).rows =
      (if cfg.mode = .overwrite then [] else v.rows) ++ addedRows t.actions := by
  rcases h.prepares hadds hprepares with ⟨hmode, rfl⟩ | ⟨hmode, hreplaces⟩
  · rw [if_neg hmode, hadds.apply, Version.rows, List.flatMap_append]
    rfl
  · rw [if_pos hmode, Version.rows, hreplaces.apply_self.1]
    rfl

/-! ### The history -/

/-- The append to the history leaves every other location as it was. -/
theorem append_elsewhere (σ : Store P) {pre : String} (run : ℕ) (report : LoadReport)
    (faults : Manifest.HistoryFaults) {uri : String}
    (h : ∀ history, tableUri P pre Manifest.manifestTable = .ok history → uri ≠ history) :
    (Manifest.append P pre run report σ faults).2 uri = σ uri := by
  have hanswer : ∀ preloaded, preloadTable P pre Manifest.manifestTable σ faults.preload =
      .ok preloaded → uri ≠ preloaded.uri := by
    intro preloaded hpreloaded
    have hanswers : Answers { outputUri := pre } σ Manifest.manifestTable.qualified preloaded :=
      preloadTable_answers hpreloaded
    obtain ⟨⟨name, hname, huri⟩, -⟩ := hanswers
    obtain ⟨rel, hrel, heq⟩ := relativePath_of_tableUri huri
    unfold preloadTable at hpreloaded
    split at hpreloaded
    next => cases hpreloaded
    next history hhistory =>
      have hplaced : Placed P { outputUri := pre } Manifest.manifestTable.qualified history :=
        ⟨_, rfl, hhistory⟩
      have hsame := (hplaced.uri_iff ⟨name, hname, huri⟩).mpr rfl
      rw [← hsame]
      exact h history hhistory
  have hopenSink : (Manifest.openSink P pre run σ faults).2 uri = σ uri := by
    rcases Manifest.openSink_store P pre run σ faults with hsame | ⟨preloaded, hpreloaded, hopen⟩
    · rw [hsame]
    · rw [hopen]
      rcases finishOpen_store P preloaded Manifest.manifestTable Manifest.schema .append σ
        faults.openTable with hsame | ⟨-, kernel, hcreate⟩
      · rw [hsame]
      · rw [hcreate]
        rcases create_cases σ preloaded.uri kernel faults.openTable.create with
          ⟨hsame, -⟩ | ⟨-, hpush, -⟩
        · rw [hsame]
        · rw [hpush, Store.push_of_ne _ _ (hanswer preloaded hpreloaded)]
  rcases Manifest.append_cases P pre run report σ faults with ⟨-, hsame | hopen⟩ |
    ⟨batch, opened, writer, staged, newSchema, -, hopen, -, hstore, -⟩
  · rw [hsame]
  · rw [hopen, hopenSink]
  · rw [hstore, (commitTable_append ..).1, ← hopenSink]
    obtain ⟨⟨preloaded, hpreloaded, hfinish⟩, -⟩ := Manifest.openSink_ok hopen
    have hanswers : Answers { outputUri := pre, mode := .append } σ
        Manifest.manifestTable.qualified preloaded := preloadTable_answers hpreloaded
    obtain ⟨-, huri, -⟩ := finishOpen_opened hanswers hfinish
    rcases commit_cases (Manifest.openSink P pre run σ faults).2 opened.table.uri staged
      faults.commit.commit with ⟨hsame, -⟩ | ⟨latest, -, -, hpush, -⟩
    · rw [hsame]
    · rw [hpush, Store.push_of_ne]
      rw [huri]
      exact hanswer preloaded hpreloaded

theorem Opened.apart {cfg : LoadConfig} {σ : Store P} {t : CommitTarget P} {v : Version P}
    {kernel : StructType P} (h : Opened cfg σ t v kernel) (hmanifest : cfg.writeManifest = true)
    {history : String} (hhistory : tableUri P cfg.outputUri Manifest.manifestTable = .ok history) :
    t.table.uri ≠ history := by
  intro heq
  have hplaced : Placed P cfg Manifest.manifestTable.qualified history := ⟨_, rfl, hhistory⟩
  have hname := (h.placed.uri_iff hplaced).mp heq
  obtain ⟨⟨schema, table⟩, hqualified, -, hreserved⟩ := h.wanted
  rw [hname] at hqualified
  cases schema with
  | none =>
    obtain rfl : table = Manifest.manifestName := hqualified
    simp [hmanifest, Manifest.reservedCollision] at hreserved
  | some schema =>
    -- a rendered name with a schema has a dot
    have hdot : '.' ∈ (schema ++ "." ++ table).toList := by simp
    have hqualified : schema ++ "." ++ table = Manifest.manifestName := hqualified
    rw [hqualified] at hdot
    revert hdot
    decide

/-- An append that succeeds puts the rows of its batch behind those that the
history shows. -/
theorem append_recorded {σ σ' : Store P} {pre : String} {run : ℕ} {report : LoadReport}
    {faults : Manifest.HistoryFaults} {loadId : String}
    (h : Manifest.append P pre run report σ faults = (.ok loadId, σ')) :
    ∃ now batch history, Manifest.rowsFor report loadId now = .ok batch ∧
      tableUri P pre Manifest.manifestTable = .ok history ∧
      σ'.visible history = σ.visible history ++ batch.rows := by
  have hresult : (Manifest.append P pre run report σ faults).1 = .ok loadId := by rw [h]
  have hσ' : σ' = (Manifest.append P pre run report σ faults).2 := by rw [h]
  rcases Manifest.append_cases P pre run report σ faults with ⟨⟨e, herror⟩, -⟩ |
    ⟨batch, opened, writer, staged, newSchema, hbatch, hopen, hstaged, hstore, hok⟩
  · rw [herror] at hresult
    cases hresult
  · obtain ⟨rfl, version, hcommit⟩ := hok loadId hresult
    obtain ⟨⟨preloaded, hpreloaded, hfinish⟩, hwriter⟩ := Manifest.openSink_ok hopen
    have hanswers : Answers { outputUri := pre, mode := .append } σ
        Manifest.manifestTable.qualified preloaded := preloadTable_answers hpreloaded
    obtain ⟨-, huri, hopened, v, kernel, -, hlast, -⟩ := finishOpen_opened hanswers hfinish
    obtain ⟨hadds, hbatches⟩ := Manifest.stageBatch_ok (by rw [hwriter]) hstaged
    have honly : OnlyAdds staged := by
      intro a ha
      obtain ⟨f, hf, -⟩ := hadds a ha
      exact ⟨f, hf⟩
    have hhistory : tableUri P pre Manifest.manifestTable = .ok preloaded.uri := by
      unfold preloadTable at hpreloaded
      split at hpreloaded
      next => cases hpreloaded
      next history hhistory =>
        have hplaced : Placed P { outputUri := pre, mode := .append }
            Manifest.manifestTable.qualified history := ⟨_, rfl, hhistory⟩
        rw [hhistory, (hplaced.uri_iff hanswers.placed).mpr rfl]
    refine ⟨faults.now, batch, preloaded.uri, hbatch, hhistory, ?_⟩
    -- opening the history shows nothing new
    have hvisible : v.rows = σ.visible preloaded.uri := by
      have hcreated := (Store.OnlyCreated.refl σ).finishOpen preloaded Manifest.manifestTable
        Manifest.schema .append faults.openTable
      rw [hfinish] at hcreated
      have hsame := hcreated.visible preloaded.uri
      rw [Store.visible, hlast] at hsame
      exact hsame
    have hone := (commitTable_append _ _ _ _ _).2 version hcommit
    rcases commit_cases (Manifest.openSink P pre run σ faults).2 opened.table.uri staged
      faults.commit.commit with ⟨-, e, herror⟩ | ⟨latest, hlatest, -, hpush, -⟩
    · rw [herror] at hone
      cases hone
    · rw [huri] at hlatest hpush
      obtain rfl : v = latest := Option.some.inj (hlast.symm.trans hlatest)
      rw [hσ', hstore, (commitTable_append ..).1, huri, hpush, Store.visible, Store.push_self,
        List.getLast?_concat, Option.map_some, Option.getD_some, honly.apply, Version.rows,
        List.flatMap_append, ← hvisible]
      have hrows : (added staged).flatMap File.rows = batch.rows := by
        have hall := addedRows_eq staged
        rw [hbatches, List.flatMap_singleton] at hall
        exact hall
      rw [hrows]
      rfl

/-! ### A load that has succeeded -/

namespace System

variable {L : Load} {s s₁ : System P n}

/-- The whole of what a successful load has done. -/
structure Succeeded [NeZero n] (L : Load) (σ : Store P) (s : System P n) (report : LoadReport)
    (s₁ : System P n) (σ₂ : Store P) (b : Burst P) (log : CommitLog P)
    (settled : List (CommitResult P)) (parts : List (List (Action P))) : Prop where
  phaseTwo : PhaseTwo L σ s₁ s
  concluded : Concluded L s₁ σ₂ report b s.trace.attempts log settled
  recorded : Recorded L report σ₂ s.store
  provided : Provided L s₁.store s.trace s₁.targets parts
  created : σ.OnlyCreated s₁.store

theorem PhaseTwo.succeeded [NeZero n] {σ : Store P} (h : PhaseTwo L σ s₁ s) {report : LoadReport}
    (hp : s.point = .done (.ok report)) :
    ∃ σ₂ b log settled parts, Succeeded L σ s report s₁ σ₂ b log settled parts := by
  have hpoint := h.inPhaseTwo.2
  rw [hp] at hpoint
  obtain ⟨σ₂, b, log, settled, hconcluded, hrecorded⟩ := hpoint
  obtain ⟨parts, hprovided⟩ := h.provided
  exact ⟨σ₂, b, log, settled, parts, h, hconcluded, hrecorded, hprovided,
    h.reachable.onlyCreated h.isLate⟩

theorem Reachable.succeeded [NeZero n] {σ : Store P} (h : Reachable L σ s) {report : LoadReport}
    (hp : s.point = .done (.ok report)) :
    ∃ s₁ σ₂ b log settled parts, Succeeded L σ s report s₁ σ₂ b log settled parts := by
  obtain ⟨s₁, hphase⟩ := h.phaseTwo (by simp [pastPhaseOne, hp])
  exact ⟨s₁, hphase.succeeded hp⟩

namespace Succeeded

variable [NeZero n] {σ σ₂ : Store P} {report : LoadReport} {b : Burst P} {log : CommitLog P}
  {settled : List (CommitResult P)} {parts : List (List (Action P))}

/-- The history aside, storage is what the commits have left. -/
theorem store_apply (h : Succeeded L σ s report s₁ σ₂ b log settled parts) {uri : String}
    (hapart : L.cfg.writeManifest = true → ∀ history,
      tableUri P L.cfg.outputUri Manifest.manifestTable = .ok history → uri ≠ history) :
    s.store uri = σ₂ uri := by
  rcases h.recorded with ⟨-, -, hsame⟩ | ⟨hmanifest, o, loadId, -, happend⟩
  · rw [hsame]
  · have hstore := append_elsewhere σ₂ L.run { report with loadId := none } o (hapart hmanifest)
    rwa [happend] at hstore

theorem store_target (h : Succeeded L σ s report s₁ σ₂ b log settled parts) {t : CommitTarget P}
    (ht : t ∈ s₁.targets) : s.store t.table.uri = σ₂ t.table.uri := by
  obtain ⟨v, kernel, hopened⟩ := h.provided.opened t ht
  exact h.store_apply fun hmanifest history hhistory => hopened.apart hmanifest hhistory

theorem titles (h : Succeeded L σ s report s₁ σ₂ b log settled parts) {blocks : List DumpBlock}
    (haccomplished : Accomplished L s report blocks) :
    s₁.targets.map CommitTarget.title = blocks.map (DumpBlock.title L.cfg) := by
  rw [← haccomplished.titles, h.phaseTwo.inPhaseTwo.1]
  exact Burst.map_assign _ (fun _ _ => rfl) _ _

theorem names (h : Succeeded L σ s report s₁ σ₂ b log settled parts) {blocks : List DumpBlock}
    (haccomplished : Accomplished L s report blocks) :
    s₁.targets.map CommitTarget.qualified = blocks.map fun b => b.table.qualified := by
  have htitles := congrArg (List.map Prod.fst) (h.titles haccomplished)
  simpa [Function.comp_def, CommitTarget.title, DumpBlock.title] using htitles

end Succeeded

/-- The entries of a report are under the names of the blocks. -/
theorem Accomplished.names {report : LoadReport} {blocks : List DumpBlock}
    (h : Accomplished L s report blocks) :
    report.tables.map TableStats.table = blocks.map fun b => b.table.qualified := by
  apply List.ext_getElem
  · simpa using h.length
  · intro g hg hg'
    simp only [List.length_map] at hg hg'
    simpa using (h.loaded g _ _ (List.getElem?_eq_getElem hg') (List.getElem?_eq_getElem hg)).table

end System

end PgDelta.Pipeline
