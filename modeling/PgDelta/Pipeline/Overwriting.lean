import PgDelta.Pipeline.Versions

/-!
Overwriting forgets what was there.

A successful load in `Overwrite` mode leaves each of its tables with the rows
and the columns of the dump. Where a table has files, one commit takes them
away, and storage refuses a second commit that means to take them away again.
-/

namespace PgDelta.Pipeline

open PgDelta.Lib PgDelta.Builders PgDelta.Types PgDelta.Scan PgDelta.Sink

variable {P : Platform} {n : ℕ}

/-! ### Conflicting commits -/

/-- Where a commit takes effect, the files that it takes away are there. -/
def System.RefusesConflicts (s : System P n) : Label n → Prop
  | .worker _ _ => True
  | .reader o => ∀ dumpedBy b t actions latest, s.point = .committing dumpedBy b →
      b.flight[o.pick]? = some ⟨t, .prepared actions⟩ → o.commit.commit.takesEffect = true →
        (s.store t.table.uri).getLast? = some latest →
          ∀ path, .remove path ∈ actions → path ∈ latest.files.map File.path

/-- No file has a name that is one of the run's. -/
def FreshRun (run : ℕ) (σ : Store P) : Prop :=
  ∀ uri, ∀ v ∈ σ uri, ∀ f ∈ v.files, f.path.run ≠ run

theorem FreshRun.onlyCreated {run : ℕ} {σ σ' : Store P} (h : FreshRun run σ)
    (hcreated : σ.OnlyCreated σ') : FreshRun run σ' := by
  intro uri v hv f hf
  rcases hcreated uri with hsame | ⟨-, schema, hnew⟩
  · exact h uri v (hsame ▸ hv) f hf
  · rw [hnew, List.mem_singleton] at hv
    subst hv
    cases hf

def ReplacedOnce (uri : String) (v : Version P) (σ₁ σ : Store P) : Prop :=
  σ uri = σ₁ uri ∨ ∃ w, σ uri = σ₁ uri ++ [w] ∧ ∀ f ∈ w.files, f.path ∉ v.files.map File.path

theorem ReplacedOnce.congr {uri : String} {v : Version P} {σ₁ σ σ' : Store P}
    (h : ReplacedOnce uri v σ₁ σ) (hsame : σ' uri = σ uri) : ReplacedOnce uri v σ₁ σ' := by
  unfold ReplacedOnce
  rwa [hsame]

theorem Provided.replacedOnce {L : Load} {σ₁ σ : Store P} {trace : Trace}
    {targets : List (CommitTarget P)} {parts : List (List (Action P))}
    (h : Provided L σ₁ trace targets parts) (hmode : L.cfg.mode = .overwrite)
    (hfresh : FreshRun L.run σ₁) {uri : String} {v : Version P}
    (hv : (σ₁ uri).getLast? = some v) (hfiles : v.files ≠ []) (honce : ReplacedOnce uri v σ₁ σ)
    {t : CommitTarget P} (ht : t ∈ targets) {actions : List (Action P)}
    (hprepares : Prepares L.cfg t actions) {latest : Version P}
    (hlatest : (σ t.table.uri).getLast? = some latest)
    (hthere : ∀ path, .remove path ∈ actions → path ∈ latest.files.map File.path) :
    ReplacedOnce uri v σ₁ (σ.push t.table.uri (latest.apply actions)) := by
  by_cases huri : uri = t.table.uri
  · subst huri
    obtain ⟨v', kernel, hopened⟩ := h.opened t ht
    obtain rfl : v = v' := Option.some.inj (hv.symm.trans hopened.current)
    have hreplaces := hopened.replaces hmode (h.onlyAdds ht) hprepares
    rcases honce with hsame | ⟨w, hsame, hgone⟩
    · obtain rfl : latest = v := by
        rw [hsame, hv] at hlatest
        exact (Option.some.inj hlatest).symm
      refine .inr ⟨latest.apply actions, by rw [Store.push_self, hsame], ?_⟩
      intro f hf hpath
      rw [hreplaces.apply_self.1, mem_added] at hf
      obtain ⟨-, -, -, f', hadd, -, hrun⟩ := h.action ht hf
      obtain rfl : f = f' := by simpa using hadd
      obtain ⟨f', hf', heq⟩ := List.mem_map.mp hpath
      exact hfresh _ latest (List.mem_of_getLast? hv) f' hf' (by rw [heq, hrun])
    · -- the files are gone, and a commit that takes them away is refused
      exfalso
      obtain rfl : latest = w := by
        rw [hsame, List.getLast?_concat] at hlatest
        exact (Option.some.inj hlatest).symm
      obtain ⟨f, hf⟩ := List.exists_mem_of_ne_nil _ hfiles
      have hremove := (hreplaces.removes f.path).mpr (List.mem_map_of_mem hf)
      obtain ⟨f', hf', heq⟩ := List.mem_map.mp (hthere _ hremove)
      exact hgone f' hf' (heq ▸ List.mem_map_of_mem hf)
  · unfold ReplacedOnce
    rw [Store.push_of_ne _ _ huri]
    exact honce

namespace System

variable {L : Load} {s t s₁ : System P n}

def AllReplacedOnce (s₁ s : System P n) : Prop :=
  ∀ t ∈ s₁.targets, ∀ v, (s₁.store t.table.uri).getLast? = some v → v.files ≠ [] →
    ReplacedOnce t.table.uri v s₁.store s.store

theorem AllReplacedOnce.move [NeZero n] {σ : Store P} (hmode : L.cfg.mode = .overwrite)
    (hfresh : FreshRun L.run σ) (hphase : PhaseTwo L σ s₁ s) (h : AllReplacedOnce s₁ s)
    {a : Label n} (hrefuses : s.RefusesConflicts a) (hstep : step L s a = some t) :
    AllReplacedOnce s₁ t := by
  obtain ⟨parts, hprovided⟩ := hphase.provided
  have hcreated := hphase.reachable.onlyCreated hphase.isLate
  have hlate := hphase.inPhaseTwo.isLate
  have hpoint := hphase.inPhaseTwo.2
  have hhistory : ∀ (o : Outside) report, s.point = .recording report →
      ∀ t ∈ s₁.targets, ∀ v, (s₁.store t.table.uri).getLast? = some v → v.files ≠ [] →
        ReplacedOnce t.table.uri v s₁.store
          (Manifest.append P L.cfg.outputUri L.run report s.store o.history).2 := by
    intro o report hp t ht v hv hfiles
    obtain ⟨v', kernel, hopened⟩ := hprovided.opened t ht
    rw [hp] at hpoint
    refine (h t ht v hv hfiles).congr ?_
    exact append_elsewhere s.store L.run report o.history
      fun history hhistory => hopened.apart hpoint.1 hhistory
  cases step_move hstep with
  | burst o dumpedBy b hp hover b' σ' attempts hburst =>
    rw [hp] at hpoint
    obtain ⟨log, settled, hserial⟩ := hpoint
    have hcommit : ∀ (t' : CommitTarget P) (actions : List (Action P)) (latest : Version P),
        b.flight[o.pick]? = some ⟨t', .prepared actions⟩ → o.commit.commit.takesEffect = true →
        (s.store t'.table.uri).getLast? = some latest →
        ∀ t ∈ s₁.targets, ∀ v, (s₁.store t.table.uri).getLast? = some v → v.files ≠ [] →
          ReplacedOnce t.table.uri v s₁.store
            (s.store.push t'.table.uri (latest.apply actions)) := by
      intro t' actions latest hi heffect hlatest t ht v hv hfiles
      have ht' : t' ∈ s₁.targets := by
        rw [hserial.partition.mem_iff, List.mem_append]
        right
        exact List.mem_append_left _ (List.mem_map_of_mem (List.mem_of_getElem? hi))
      exact hprovided.replacedOnce hmode (hfresh.onlyCreated hcreated) hv hfiles
        (h t ht v hv hfiles) ht' (hserial.pending t' actions (List.mem_of_getElem? hi)) hlatest
        (hrefuses dumpedBy b t' actions latest hp hi heffect hlatest)
    cases Burst.step_moves hburst with
    | refused t' hi e hprepare => exact h
    | prepared t' hi actions hprepare => exact h
    | failed t' actions hi message => exact h
    | lost t' actions hi latest hlatest message hlost =>
      exact hcommit t' actions latest hi (by rw [hlost]; rfl) hlatest
    | committed t' actions hi latest hlatest hdone =>
      exact hcommit t' actions latest hi (by rw [hdone]; rfl) hlatest
    | unloaded t' version hi message hreload => exact h
    | finished t' version hi => exact h
  | recorded o report hp loadId σ' hrecorded =>
    have happend := hhistory o report hp
    rw [hrecorded] at happend
    exact happend
  | stopRecord o report hp e σ' hrecord =>
    have happend := hhistory o report hp
    rw [hrecord] at happend
    exact happend
  | event o event events hp reaction σ' hevent => simp [System.isLate, hp] at hlate
  | stopEvent o event events hp e σ' hevent => simp [System.isLate, hp] at hlate
  | send o i job rest after events hp halive hroom => simp [System.isLate, hp] at hlate
  | _ => exact h

end System

/-! ### What is left -/

/-- Commits that have nothing to take away add up, and leave the columns that
they all have. -/
theorem foldl_replaces {v : Version P} (hv : v.files = []) {kernel : StructType P}
    {log : CommitLog P}
    (h : ∀ e ∈ log, ∃ kernel', kernel.SameColumns kernel' ∧ Replaces v kernel' e.1.actions e.2) :
    (log.foldl (fun w e => w.apply e.2) v).rows =
        log.flatMap (fun e => addedRows e.1.actions) ∧
      (log ≠ [] → (log.foldl (fun w e => w.apply e.2) v).schema.SameColumns kernel) := by
  have hfold : ∀ (log : CommitLog P) (w : Version P),
      (∀ e ∈ log, ∃ kernel', kernel.SameColumns kernel' ∧ Replaces v kernel' e.1.actions e.2) →
      (w = v ∨ w.schema.SameColumns kernel) →
        (log.foldl (fun w e => w.apply e.2) w).rows =
          w.rows ++ log.flatMap (fun e => addedRows e.1.actions) ∧
        (log ≠ [] ∨ w.schema.SameColumns kernel →
          (log.foldl (fun w e => w.apply e.2) w).schema.SameColumns kernel) := by
    intro log
    induction log with
    | nil =>
      intro w _ hw
      exact ⟨by simp, fun hne => hne.resolve_left (by simp)⟩
    | cons e log ih =>
      intro w h hw
      obtain ⟨kernel', hsame, hreplaces⟩ := h e List.mem_cons_self
      have hrows : (w.apply e.2).rows = w.rows ++ addedRows e.1.actions := by
        have hkept : w.files.filter (fun f => (.remove f.path : Action P) ∉ e.2) = w.files := by
          rw [List.filter_eq_self]
          intro f _
          simp [hreplaces.removes, hv]
        rw [Version.rows, Version.apply, hkept, List.flatMap_append, hreplaces.adds]
        rfl
      have hschema : (w.apply e.2).schema.SameColumns kernel := by
        rcases hw with rfl | hw
        · exact hreplaces.apply_self.2.trans hsame.symm
        · rcases hreplaces.declares with ⟨hdeclared, -⟩ | hdeclared
          · simpa [Version.apply, hdeclared] using hw
          · simpa [Version.apply, hdeclared] using hsame.symm
      obtain ⟨hrest, hlast⟩ :=
        ih (w.apply e.2) (fun d hd => h d (List.mem_cons_of_mem _ hd)) (.inr hschema)
      refine ⟨?_, fun _ => hlast (.inr hschema)⟩
      rw [List.foldl_cons, hrest, hrows, List.flatMap_cons, List.append_assoc]
  obtain ⟨hrows, hschema⟩ := hfold log v h (.inl rfl)
  refine ⟨?_, fun hne => hschema (.inl hne)⟩
  rw [hrows, Version.rows, hv]
  rfl

/-- The blocks of the dump that belong to one table have one set of columns. -/
def OneColumnSet (P : Platform) (cfg : LoadConfig) (blocks : List DumpBlock) : Prop :=
  ∀ b ∈ blocks, ∀ b' ∈ blocks, b.table.qualified = b'.table.qualified → ∀ kernel kernel',
    tryIntoKernel P (b.ctx cfg).schema = .ok kernel →
      tryIntoKernel P (b'.ctx cfg).schema = .ok kernel' → kernel.SameColumns kernel'

/-- What overwriting makes of storage: the tables of the blocks show their rows
and declare their columns, a table that showed something never shows anything
else in between, and nothing else is touched. -/
structure Overwritten (cfg : LoadConfig) (blocks : List DumpBlock) (σ σ' : Store P) : Prop where
  latest : ∀ b ∈ blocks, ∃ uri w kernel, Placed P cfg b.table.qualified uri ∧
    (σ' uri).getLast? = some w ∧ tryIntoKernel P (b.ctx cfg).schema = .ok kernel ∧
    w.rows.Perm (rowsUnder cfg b.table.qualified blocks) ∧ w.schema.SameColumns kernel
  between : ∀ b ∈ blocks, ∀ uri, Placed P cfg b.table.qualified uri → σ.visible uri ≠ [] →
    ∀ k w, (σ uri).length ≤ k → (σ' uri)[k]? = some w →
      w.rows.Perm (σ.visible uri) ∨ w.rows.Perm (rowsUnder cfg b.table.qualified blocks)
  elsewhere : ∀ uri, (∀ b ∈ blocks, ¬ Placed P cfg b.table.qualified uri) →
    (cfg.writeManifest = true → ∀ history,
      tableUri P cfg.outputUri Manifest.manifestTable = .ok history → uri ≠ history) →
        σ' uri = σ uri

namespace System

variable {L : Load} {s s₁ : System P n} {σ σ₂ : Store P} {report : LoadReport} {b : Burst P}
  {log : CommitLog P} {settled : List (CommitResult P)} {parts : List (List (Action P))}

theorem Succeeded.overwrites [NeZero n] (h : Succeeded L σ s report s₁ σ₂ b log settled parts)
    (hmode : L.cfg.mode = .overwrite) {blocks : List DumpBlock}
    (haccomplished : Accomplished L s report blocks) (honce : AllReplacedOnce s₁ s)
    {t : CommitTarget P} (ht : t ∈ s₁.targets) {v : Version P} {kernel : StructType P}
    (hopened : Opened L.cfg s₁.store t v kernel)
    (hsame : ∀ t' ∈ s₁.targets, t'.qualified = t.qualified → ∀ kernel',
      tryIntoKernel P t'.schema = .ok kernel' → kernel.SameColumns kernel') :
    ∃ w, (s.store t.table.uri).getLast? = some w ∧
      w.rows.Perm (rowsUnder L.cfg t.qualified blocks) ∧ w.schema.SameColumns kernel ∧
        (v.files ≠ [] → s.store t.table.uri = s₁.store t.table.uri ++ [w]) := by
  have hrows := h.provided.rows haccomplished (h.titles haccomplished) t.qualified
  have hedits := h.concluded.edits_perm h.provided ht
  -- The versions at the location are those of the commits to it, one after another.
  have hstore : s.store t.table.uri = s₁.store t.table.uri ++
      chain Version.apply v (editsOf log.edits t.table.uri) := by
    rw [h.store_target ht, h.concluded.serial.store, CommitLog.on, replay_apply hopened.current]
  by_cases hfiles : v.files = []
  · -- each commit adds to those before it
    have hlog : ∀ e ∈ log.filter (fun e => e.1.table.uri = t.table.uri), ∃ kernel',
        kernel.SameColumns kernel' ∧ Replaces v kernel' e.1.actions e.2 := by
      intro e he
      obtain ⟨he, huri⟩ := List.mem_filter.mp he
      have huri : e.1.table.uri = t.table.uri := by simpa using huri
      have htarget := h.concluded.serial.mem_targets he
      obtain ⟨v', kernel', hopened'⟩ := h.provided.opened e.1 htarget
      obtain rfl : v = v' := by
        have hcurrent := hopened'.current
        rw [huri, hopened.current] at hcurrent
        exact Option.some.inj hcurrent
      have hname := (h.provided.uri_iff htarget ht).mp huri
      refine ⟨kernel', hsame e.1 htarget hname kernel' hopened'.converts, ?_⟩
      exact hopened'.replaces hmode (h.provided.onlyAdds htarget) (h.concluded.serial.prepared e he)
    obtain ⟨hshown, hschema⟩ := foldl_replaces hfiles hlog
    refine ⟨(editsOf log.edits t.table.uri).foldl Version.apply v, ?_, ?_, ?_,
      fun hne => absurd hfiles hne⟩
    · rw [hstore]
      exact getLast?_append_chain _ v _ hopened.current
    · rw [editsOf_edits, List.foldl_map, hshown]
      have hactions := hedits.flatMap_right fun t => addedRows t.actions
      rw [List.flatMap_map] at hactions
      refine hactions.trans ?_
      have hall : ∀ targets : List (CommitTarget P),
          addedRows (targets.flatMap CommitTarget.actions) =
            targets.flatMap fun t => addedRows t.actions := by
        intro targets
        induction targets with
        | nil => rfl
        | cons t targets ih => simp [ih]
      rw [← hall]
      exact hrows
    · rw [editsOf_edits, List.foldl_map]
      apply hschema
      intro hnil
      rw [hnil, List.map_nil] at hedits
      have hnone := List.Perm.nil_eq hedits
      have hmem : t ∈ s₁.targets.filter fun t' => t'.qualified = t.qualified :=
        List.mem_filter.mpr ⟨ht, by simp⟩
      rw [← hnone] at hmem
      cases hmem
  · -- one commit has taken the files away, and no other could have
    have hone : s₁.targets.filter (fun t' => t'.qualified = t.qualified) = [t] := by
      have hlength : (editsOf log.edits t.table.uri).length ≤ 1 := by
        rcases honce t ht v hopened.current hfiles with hkept | ⟨w, hw, -⟩
        · have hnone := congrArg List.length (hstore.symm.trans hkept)
          simp only [List.length_append, length_chain] at hnone
          omega
        · have hsingle := congrArg List.length (hstore.symm.trans hw)
          simp only [List.length_append, length_chain, List.length_singleton] at hsingle
          omega
      rw [editsOf_edits, List.length_map] at hlength
      have hcount := hedits.length_eq
      rw [List.length_map] at hcount
      have hmem : t ∈ s₁.targets.filter fun t' => t'.qualified = t.qualified :=
        List.mem_filter.mpr ⟨ht, by simp⟩
      obtain ⟨t', ht'⟩ := List.length_eq_one_iff.mp
        (le_antisymm (hcount ▸ hlength) (List.length_pos_of_mem hmem))
      rw [ht', List.mem_singleton] at hmem
      rw [ht', hmem]
    obtain ⟨actions, hprepares, hsingle, -⟩ := h.concluded.single h.provided hone hopened
    have hreplaces := hopened.replaces hmode (h.provided.onlyAdds ht) hprepares
    have hactions : actionsUnder t.qualified s₁.targets = t.actions := by
      rw [actionsUnder, hone]
      simp
    rw [hactions] at hrows
    refine ⟨v.apply actions, ?_, ?_, hreplaces.apply_self.2, fun _ => ?_⟩
    · rw [h.store_target ht, hsingle, List.getLast?_concat]
    · rw [Version.rows, hreplaces.apply_self.1]
      exact hrows
    · rw [h.store_target ht, hsingle]

theorem Succeeded.target [NeZero n] (h : Succeeded L σ s report s₁ σ₂ b log settled parts)
    {blocks : List DumpBlock} (haccomplished : Accomplished L s report blocks) {block : DumpBlock}
    (hblock : block ∈ blocks) : ∃ t ∈ s₁.targets, t.qualified = block.table.qualified ∧
      t.schema = (block.ctx L.cfg).schema := by
  have hmem := List.mem_map_of_mem (f := DumpBlock.title L.cfg) hblock
  rw [← h.titles haccomplished] at hmem
  obtain ⟨t, ht, htitle⟩ := List.mem_map.mp hmem
  exact ⟨t, ht, congrArg Prod.fst htitle, congrArg Prod.snd htitle⟩

theorem Succeeded.overwritten [NeZero n] (h : Succeeded L σ s report s₁ σ₂ b log settled parts)
    (hmode : L.cfg.mode = .overwrite) {blocks : List DumpBlock}
    (haccomplished : Accomplished L s report blocks) (honce : AllReplacedOnce s₁ s)
    (hcolumns : OneColumnSet P L.cfg blocks) : Overwritten L.cfg blocks σ s.store := by
  have hblock : ∀ t ∈ s₁.targets, ∃ block ∈ blocks, t.qualified = block.table.qualified ∧
      t.schema = (block.ctx L.cfg).schema := by
    intro t ht
    have hmem := List.mem_map_of_mem (f := CommitTarget.title) ht
    rw [h.titles haccomplished] at hmem
    obtain ⟨block, hblock, htitle⟩ := List.mem_map.mp hmem
    exact ⟨block, hblock, (congrArg Prod.fst htitle).symm, (congrArg Prod.snd htitle).symm⟩
  have hleft : ∀ t ∈ s₁.targets, ∀ v kernel, Opened L.cfg s₁.store t v kernel → ∃ w,
      (s.store t.table.uri).getLast? = some w ∧ w.rows.Perm (rowsUnder L.cfg t.qualified blocks) ∧
        w.schema.SameColumns kernel ∧
          (v.files ≠ [] → s.store t.table.uri = s₁.store t.table.uri ++ [w]) := by
    intro t ht v kernel hopened
    refine h.overwrites hmode haccomplished honce ht hopened fun t' ht' hname kernel' hkernel' => ?_
    obtain ⟨block, hmem, hqualified, hschema⟩ := hblock t ht
    obtain ⟨block', hmem', hqualified', hschema'⟩ := hblock t' ht'
    refine hcolumns block hmem block' hmem' ?_ kernel kernel' ?_ ?_
    · rw [← hqualified, ← hqualified', hname]
    · rw [← hschema]
      exact hopened.converts
    · rw [← hschema']
      exact hkernel'
  refine ⟨?_, ?_, ?_⟩
  · intro block hmem
    obtain ⟨t, ht, hname, hschema⟩ := h.target haccomplished hmem
    obtain ⟨v, kernel, hopened⟩ := h.provided.opened t ht
    obtain ⟨w, hlast, hrows, hsame, -⟩ := hleft t ht v kernel hopened
    rw [← hname, ← hschema]
    exact ⟨t.table.uri, w, kernel, hopened.placed, hlast, hopened.converts, hrows, hsame⟩
  · intro block hmem uri hplaced hshown k w hk hw
    right
    obtain ⟨t, ht, hname, -⟩ := h.target haccomplished hmem
    obtain ⟨v, kernel, hopened⟩ := h.provided.opened t ht
    obtain rfl : uri = t.table.uri := (hplaced.uri_iff hopened.placed).mpr hname.symm
    obtain ⟨w', -, hrows, -, hone⟩ := hleft t ht v kernel hopened
    have hfiles : v.files ≠ [] := by
      intro hnone
      apply hshown
      rw [← h.created.visible, Store.visible, hopened.current]
      simp [Version.rows, hnone]
    have hbefore : s₁.store t.table.uri = σ t.table.uri := by
      rcases h.created t.table.uri with hsame | ⟨hnone, -⟩
      · exact hsame
      · simp [Store.visible, hnone] at hshown
    -- the load has made one version of the table
    rw [hone hfiles, hbefore, List.getElem?_append_right hk, List.getElem?_singleton] at hw
    split at hw
    next =>
      obtain rfl := Option.some.inj hw
      rw [← hname]
      exact hrows
    next => cases hw
  · intro uri hnone hapart
    have htargets : ∀ t ∈ s₁.targets, t.table.uri ≠ uri := by
      intro t ht huri
      obtain ⟨v, kernel, hopened⟩ := h.provided.opened t ht
      obtain ⟨block, hmem, hname, -⟩ := hblock t ht
      exact hnone block hmem (hname ▸ huri ▸ hopened.placed)
    have huris : s₁.targets.map (fun t => t.table.uri) =
        s₁.reader.openTables.map fun t => t.table.uri := Burst.map_assign _ (fun _ _ => rfl) _ _
    rw [h.store_apply hapart, h.concluded.serial.store, CommitLog.on, replay_of_notMem]
    · apply h.phaseTwo.reachable.unopened h.phaseTwo.isLate
      intro t ht huri
      have hmem : uri ∈ s₁.targets.map fun t => t.table.uri := by
        rw [huris]
        exact List.mem_map.mpr ⟨t, ht, huri⟩
      obtain ⟨t', ht', huri'⟩ := List.mem_map.mp hmem
      exact htargets t' ht' huri'
    · intro hmem
      obtain ⟨edit, hedit, heq⟩ := List.mem_map.mp hmem
      obtain ⟨e, he, rfl⟩ := List.mem_map.mp hedit
      exact htargets e.1 (h.concluded.serial.mem_targets he) heq

/-- A run that overwrites, and never takes a file away that is not there. -/
theorem overwritten_of_run [NeZero n] {faults : StartFaults} {labels : List (Label n)}
    (hmode : L.cfg.mode = .overwrite) {scanner : Scanner} {events : List Event}
    (hscan : L.cfg.scanner.feedAll (L.input.chunks.map Chunk.bytes) = .ok (scanner, events))
    (hcolumns : OneColumnSet P L.cfg (wantedBlocks L.cfg events)) (hfresh : FreshRun L.run σ)
    (hrun : runFrom (step L) (start L σ faults) labels = some s)
    (hrefuses : Along (step L) RefusesConflicts (start L σ faults) labels)
    (hp : s.point = .done (.ok report)) :
    Overwritten L.cfg (wantedBlocks L.cfg events) σ s.store := by
  have hreach : Reachable L σ s := ⟨faults, labels, hrun⟩
  obtain ⟨scanner', events', hfeed, haccomplished⟩ := hreach.accomplished hp
  obtain ⟨rfl, rfl⟩ := Prod.mk.inj (Except.ok.inj (hscan.symm.trans hfeed))
  have henter : ∀ (s₁ : System P n) (o : Outside) t, PhaseTwo L σ s₁ t →
      step L s₁ (.reader o) = some t → s₁.RefusesConflicts (.reader o) →
        t.pastPhaseOne = true → AllReplacedOnce s₁ t := by
    intro s₁ o t hphase hstep _ hpast t' ht' v hv hfiles
    obtain ⟨dumpedBy, -, -, rfl⟩ := begins_of_pastPhaseOne hphase.reading hstep hpast
    exact .inl rfl
  have hkeep : ∀ (s₁ s : System P n) a t, PhaseTwo L σ s₁ s → AllReplacedOnce s₁ s →
      s.RefusesConflicts a → step L s a = some t → t.pastPhaseOne = true → AllReplacedOnce s₁ t :=
    fun s₁ s a t hphase honce hs hstep _ => honce.move hmode hfresh hphase hs hstep
  obtain ⟨s₁, hphase, honce⟩ :=
    phaseTwo_along henter hkeep hrefuses hrun (by simp [pastPhaseOne, hp])
  obtain ⟨σ₂, b, log, settled, parts, hsucceeded⟩ := hphase.succeeded hp
  exact hsucceeded.overwritten hmode haccomplished honce hcolumns

/-- Two loads of one dump that overwrite, whatever storage held before each of
them, leave the same rows and the same columns in every table that they load,
as long as the blocks of one table have one set of columns. -/
theorem overwrite_forgets {m : ℕ} [NeZero n] [NeZero m] {σ' : Store P}
    {faults faults' : StartFaults}
    {labels : List (Label n)} {labels' : List (Label m)} {s' : System P m} {report' : LoadReport}
    (run' : ℕ) (hmode : L.cfg.mode = .overwrite) {scanner : Scanner} {events : List Event}
    (hscan : L.cfg.scanner.feedAll (L.input.chunks.map Chunk.bytes) = .ok (scanner, events))
    (hcolumns : OneColumnSet P L.cfg (wantedBlocks L.cfg events))
    (hrun : runFrom (step L) (start L σ faults) labels = some s)
    (hrefuses : Along (step L) RefusesConflicts (start L σ faults) labels)
    (hfresh : FreshRun L.run σ) (hp : s.point = .done (.ok report))
    (hrun' :
      runFrom (step { L with run := run' }) (start { L with run := run' } σ' faults') labels' =
      some s')
    (hrefuses' : Along (step { L with run := run' }) RefusesConflicts
      (start { L with run := run' } σ' faults') labels')
    (hfresh' : FreshRun run' σ') (hp' : s'.point = .done (.ok report')) :
    Overwritten L.cfg (wantedBlocks L.cfg events) σ s.store ∧
      Overwritten L.cfg (wantedBlocks L.cfg events) σ' s'.store ∧
      ∀ block ∈ wantedBlocks L.cfg events, ∀ uri, Placed P L.cfg block.table.qualified uri →
        ∃ w w', (s.store uri).getLast? = some w ∧ (s'.store uri).getLast? = some w' ∧
          w.rows.Perm w'.rows ∧ w.schema.SameColumns w'.schema := by
  have hfirst := overwritten_of_run hmode hscan hcolumns hfresh hrun hrefuses hp
  have hsecond := overwritten_of_run (L := { L with run := run' }) hmode hscan hcolumns hfresh'
    hrun' hrefuses' hp'
  refine ⟨hfirst, hsecond, fun block hblock uri hplaced => ?_⟩
  obtain ⟨uri₁, w, kernel, hplaced₁, hw, hkernel, hrows, hschema⟩ := hfirst.latest block hblock
  obtain ⟨uri₂, w', kernel', hplaced₂, hw', hkernel', hrows', hschema'⟩ :=
    hsecond.latest block hblock
  obtain rfl : uri = uri₁ := (hplaced.uri_iff hplaced₁).mpr rfl
  obtain rfl : uri = uri₂ := (hplaced.uri_iff hplaced₂).mpr rfl
  obtain rfl : kernel = kernel' := Except.ok.inj (hkernel.symm.trans hkernel')
  exact ⟨w, w', hw, hw', hrows.trans hrows'.symm, hschema.trans hschema'.symm⟩

/-! ### Checked runs -/

def conflictFree (s : System P n) (o : Outside) : Bool :=
  match s.point with
  | .committing _ b =>
    match b.flight[o.pick]? with
    | some ⟨t, .prepared actions⟩ => (s.store t.table.uri).getLast?.all fun latest =>
        actions.all fun a =>
          match a with
          | .remove path => decide (path ∈ latest.files.map File.path)
          | _ => true
    | _ => true
  | _ => true

theorem refusesConflicts_of_conflictFree {o : Outside} (h : s.conflictFree o = true) :
    s.RefusesConflicts (.reader o) := by
  intro dumpedBy b t actions latest hp hi _ hlatest path hpath
  simp only [conflictFree, hp, hi, hlatest, Option.all_some, List.all_eq_true] at h
  simpa using h _ hpath

def stepsFreely (s : System P n) : Label n → Bool
  | .reader o => s.conflictFree o
  | .worker _ _ => true

theorem refusesConflicts_of_stepsFreely (s : System P n) (a : Label n)
    (h : s.stepsFreely a = true) : s.RefusesConflicts a := by
  cases a with
  | worker i faults => trivial
  | reader o => exact refusesConflicts_of_conflictFree h

/-- The table holds a row of another shape. -/
def filled : Store .plain :=
  fun uri => if uri = "out/t" then
    [⟨⟨[("b", .int32)], by simp⟩, [⟨⟨7, 1, 0, 0⟩, [⟨"b", .int32, true⟩],
      [⟨[⟨"b", .int32, true⟩], [.flat ⟨.int32, [some (.int 5)]⟩], 1⟩]⟩]⟩]
  else []

theorem overwrite_forgets_filled :
    ∃ (events : List Event) (s s' : System .plain 1),
      Reachable (narrower .overwrite) (fun _ => []) s ∧
      Reachable { narrower .overwrite with run := 1 } filled s' ∧
      (filled.visible "out/t").length = 1 ∧ (s'.store "out/t").length = 2 ∧
      Overwritten (narrower .overwrite).cfg (wantedBlocks (narrower .overwrite).cfg events)
        (fun _ => []) s.store ∧
      Overwritten (narrower .overwrite).cfg (wantedBlocks (narrower .overwrite).cfg events)
        filled s'.store ∧
      ∀ block ∈ wantedBlocks (narrower .overwrite).cfg events, ∀ uri,
        Placed .plain (narrower .overwrite).cfg block.table.qualified uri →
          ∃ w w', (s.store uri).getLast? = some w ∧ (s'.store uri).getLast? = some w' ∧
            w.rows.Perm w'.rows ∧ w.schema.SameColumns w'.schema := by
  have hrun : (runFrom (step (narrower .overwrite))
      (start (narrower .overwrite) (fun _ => []) {} : System .plain 1) loadedThrough).any
        (fun s => decide (s.reportedVersions = some [("t", 1)])) = true := by decide +kernel
  have hrun' : (runFrom (step { narrower .overwrite with run := 1 })
      (start { narrower .overwrite with run := 1 } filled {} : System .plain 1) loadedThrough).any
        (fun s => decide (s.reportedVersions = some [("t", 1)]) &&
          decide ((s.store "out/t").length = 2)) = true := by decide +kernel
  have hblocks : ((narrower .overwrite).cfg.scanner.feedAll
      ((narrower .overwrite).input.chunks.map Chunk.bytes)).toOption.map
        (fun r => (wantedBlocks (narrower .overwrite).cfg r.2).length) = some 1 := by decide +kernel
  obtain ⟨s, hs, hversions⟩ := (Option.any_eq_true _ _).mp hrun
  obtain ⟨s', hs', hcheck⟩ := (Option.any_eq_true _ _).mp hrun'
  obtain ⟨hversions', hlength⟩ := Bool.and_eq_true_iff.mp hcheck
  obtain ⟨report, hp, -⟩ := point_of_reportedVersions (of_decide_eq_true hversions)
  obtain ⟨report', hp', -⟩ := point_of_reportedVersions (of_decide_eq_true hversions')
  have hreach : Reachable (narrower .overwrite) (fun _ => []) s := ⟨{}, loadedThrough, hs⟩
  obtain ⟨scanner, events, hscan, -⟩ := hreach.accomplished hp
  have hcolumns : OneColumnSet .plain (narrower .overwrite).cfg
      (wantedBlocks (narrower .overwrite).cfg events) := by
    rw [hscan] at hblocks
    obtain ⟨block, hblock⟩ := List.length_eq_one_iff.mp (Option.some.inj hblocks)
    rw [hblock]
    intro b hb b' hb' _ kernel kernel' hkernel hkernel'
    rw [List.mem_singleton.mp hb] at hkernel
    rw [List.mem_singleton.mp hb', hkernel] at hkernel'
    rw [Except.ok.inj hkernel']
    exact .refl kernel'
  have hfresh : FreshRun 0 (fun _ => [] : Store .plain) := by
    intro uri v hv
    cases hv
  have hfresh' : FreshRun 1 filled := by
    intro uri v hv f hf
    unfold filled at hv
    split_ifs at hv with huri
    · rw [List.mem_singleton] at hv
      subst hv
      rw [List.mem_singleton] at hf
      subst hf
      decide
    · cases hv
  exact ⟨events, s, s', hreach, ⟨{}, loadedThrough, hs'⟩, by decide +kernel,
    of_decide_eq_true hlength, overwrite_forgets 1 rfl hscan hcolumns hs
      (along_of_checkedAlong refusesConflicts_of_stepsFreely (by decide +kernel)) hfresh hp hs'
        (along_of_checkedAlong refusesConflicts_of_stepsFreely (by decide +kernel)) hfresh' hp'⟩

/-- Two blocks of one table, the second of which leaves a column out. -/
def ragged : Load where
  cfg := { outputUri := "out", writeManifest := false }
  input :=
    { chunks :=
        [⟨unlines newline [ascii "-- Dumped by pg_dump version 17.2", ascii "CREATE TABLE t (",
            ascii "    a integer,", ascii "    b integer", ascii ");",
            ascii "COPY t (a, b) FROM stdin;", ascii "1\t2", ascii "\\.",
            ascii "COPY t (a) FROM stdin;", ascii "3", ascii "\\."], 0⟩] }

/-- As in `twiceThrough`, but the commit of the second block goes first. -/
def secondCommitFirst : List (Label 1) :=
  blockClosed ++ List.replicate 6 (.reader {}) ++ blockDecoded ++ List.replicate 3 (.reader {}) ++
    List.replicate 3 (.reader { pick := 1 }) ++ List.replicate 4 (.reader {})

/-- The columns that a table declares. -/
def columnNames (σ : Store P) (uri : String) : Option (List String) :=
  (σ uri).getLast?.map fun v => v.schema.fields.map Prod.fst

/-- From no table, and from an empty one with the columns of the second block,
one dump leaves two different declarations. -/
theorem overwrite_forgets_counterexample :
    ∃ s s' : System .plain 1,
      runFrom (step ragged) (start ragged (fun _ => []) {}) twiceThrough = some s ∧
      runFrom (step ragged) (start ragged standing {}) secondCommitFirst = some s' ∧
      Along (step ragged) RefusesConflicts (start ragged (fun _ => []) {} : System .plain 1)
        twiceThrough ∧
      Along (step ragged) RefusesConflicts (start ragged standing {} : System .plain 1)
        secondCommitFirst ∧
      (∃ report report', s.point = .done (.ok report) ∧ s'.point = .done (.ok report')) ∧
      columnNames s.store "out/t" = some ["a"] ∧ columnNames s'.store "out/t" = some ["a", "b"] ∧
      ¬ ∃ w w', (s.store "out/t").getLast? = some w ∧ (s'.store "out/t").getLast? = some w' ∧
        w.schema.SameColumns w'.schema := by
  have hrun : (runFrom (step ragged) (start ragged (fun _ => []) {} : System .plain 1)
      twiceThrough).any (fun s => decide (s.reportedVersions = some [("t", 2), ("t", 0)]) &&
        decide (columnNames s.store "out/t" = some ["a"])) = true := by decide +kernel
  have hrun' : (runFrom (step ragged) (start ragged standing {} : System .plain 1)
      secondCommitFirst).any (fun s => decide (s.reportedVersions = some [("t", 2), ("t", 0)]) &&
        decide (columnNames s.store "out/t" = some ["a", "b"])) = true := by decide +kernel
  obtain ⟨s, hs, hcheck⟩ := (Option.any_eq_true _ _).mp hrun
  obtain ⟨s', hs', hcheck'⟩ := (Option.any_eq_true _ _).mp hrun'
  obtain ⟨hversions, hnames⟩ := Bool.and_eq_true_iff.mp hcheck
  obtain ⟨hversions', hnames'⟩ := Bool.and_eq_true_iff.mp hcheck'
  have hnames := of_decide_eq_true hnames
  have hnames' := of_decide_eq_true hnames'
  obtain ⟨report, hp, -⟩ := point_of_reportedVersions (of_decide_eq_true hversions)
  obtain ⟨report', hp', -⟩ := point_of_reportedVersions (of_decide_eq_true hversions')
  refine ⟨s, s', hs, hs',
    along_of_checkedAlong refusesConflicts_of_stepsFreely (by decide +kernel),
    along_of_checkedAlong refusesConflicts_of_stepsFreely (by decide +kernel),
    ⟨report, report', hp, hp'⟩, hnames, hnames', ?_⟩
  rintro ⟨w, w', hw, hw', hsame⟩
  rw [columnNames, hw, Option.map_some, Option.some.injEq] at hnames
  rw [columnNames, hw', Option.map_some, Option.some.injEq] at hnames'
  -- the column that one of them has and the other has not
  have hmem : "b" ∈ w'.schema.fields.map Prod.fst := by rw [hnames']; simp
  obtain ⟨column, hcolumn, hname⟩ := List.mem_map.mp hmem
  have hleft : "b" ∈ w.schema.fields.map Prod.fst :=
    List.mem_map.mpr ⟨column, (hsame column).mpr hcolumn, hname⟩
  rw [hnames] at hleft
  simp at hleft

end System

end PgDelta.Pipeline
