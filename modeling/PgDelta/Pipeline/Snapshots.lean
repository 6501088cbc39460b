import PgDelta.Pipeline.Counts
import PgDelta.Pipeline.Overwriting

/-!
What a reader of the tables sees, while a load is on its way and behind it.

At any moment of phase two storage holds what a log of commits has left, each of
a target of its own, and perhaps an entry of the history. Of the targets under
one name the first has all of the staged files. So a table shows what it showed
before the load, or all of the rows that the dump has for it.
-/

namespace PgDelta.Pipeline

open PgDelta.Lib PgDelta.Builders PgDelta.Types PgDelta.Scan PgDelta.Sink

variable {P : Platform} {n : ℕ}

/-! ### The rows of a dump -/

/-- The blocks of its dump that a load wants. A dump that does not scan has
none. -/
def Load.blocks (L : Load) : List DumpBlock :=
  match L.cfg.scanner.feedAll (L.input.chunks.map Chunk.bytes) with
  | .ok (_, events) => wantedBlocks L.cfg events
  | .error _ => []

/-- The rows that the dump has under a name. -/
def Load.rows (L : Load) (name : String) : List Row := rowsUnder L.cfg name L.blocks

theorem Load.blocks_eq {L : Load} {scanner : Scanner} {events : List Event}
    (h : L.cfg.scanner.feedAll (L.input.chunks.map Chunk.bytes) = .ok (scanner, events)) :
    L.blocks = wantedBlocks L.cfg events := by
  rw [Load.blocks, h]

/-! ### All of the staged files or none -/

theorem filter_assign (name : String) (targets : List (CommitTarget P))
    (staged : String → Option (List (Action P))) :
    ((Burst.assign targets staged).filter fun t => t.qualified = name) = [] ∨
      ∃ t rest, ((Burst.assign targets staged).filter fun t => t.qualified = name) = t :: rest ∧
        ∀ t' ∈ rest, t'.actions = [] := by
  induction targets generalizing staged with
  | nil => exact .inl rfl
  | cons t targets ih =>
    rw [Burst.assign]
    by_cases hname : t.qualified = name
    · right
      refine ⟨_, _, List.filter_cons_of_pos (by simpa using hname), fun t' ht' => ?_⟩
      obtain ⟨ht', hname'⟩ := List.mem_filter.mp ht'
      -- what was staged under the name is gone
      have hnothing : actionsUnder name
          (Burst.assign targets (Function.update staged t.qualified none)) = [] := by
        by_cases hmem : name ∈ targets.map CommitTarget.qualified
        · rw [actionsUnder_assign _ hmem, hname, Function.update_self]
          rfl
        · apply actionsUnder_of_notMem
          rwa [Burst.map_assign _ (fun _ _ => rfl)]
      exact List.flatMap_eq_nil_iff.mp hnothing t' (List.mem_filter.mpr ⟨ht', hname'⟩)
    · rw [List.filter_cons_of_neg (by simpa using hname)]
      exact ih _

/-- Some of the targets under a name have between them all of its actions, or
none. -/
theorem whole_or_nothing {s₁ : System P n} {name : String} {part : List (CommitTarget P)}
    (h : part.Subperm (s₁.targets.filter fun t => t.qualified = name)) :
    part.flatMap CommitTarget.actions = [] ∨
      (part.flatMap CommitTarget.actions).Perm (actionsUnder name s₁.targets) := by
  obtain ⟨ys, hperm, hsub⟩ := h
  have hflat := hperm.flatMap_right CommitTarget.actions
  have hempty : ys.flatMap CommitTarget.actions = [] → part.flatMap CommitTarget.actions = [] :=
    fun hnil => List.perm_nil.mp (hnil ▸ hflat).symm
  rcases filter_assign name s₁.reader.openTables s₁.reader.staged
    with hnil | ⟨t, rest, hcons, hrest⟩
  · rw [System.targets, hnil, List.sublist_nil] at hsub
    left
    apply hempty
    rw [hsub]
    rfl
  · rw [System.targets, hcons, List.sublist_cons_iff] at hsub
    have hnothing : ∀ zs : List (CommitTarget P), zs.Sublist rest →
        zs.flatMap CommitTarget.actions = [] :=
      fun zs hzs => List.flatMap_eq_nil_iff.mpr fun t' ht' => hrest t' (hzs.subset ht')
    rcases hsub with hsub | ⟨zs, rfl, hsub⟩
    · exact .inl (hempty (hnothing ys hsub))
    · right
      rw [actionsUnder, System.targets, hcons, List.flatMap_cons,
        hnothing rest (List.Sublist.refl _)]
      rw [List.flatMap_cons, hnothing zs hsub] at hflat
      exact hflat.symm

/-! ### A log at any moment -/

/-- Storage holds what a log leaves in which every target has one commit at
most. -/
structure Replayed (L : Load) (s₁ : System P n) (σ : Store P) (log : CommitLog P) : Prop where
  store : σ = log.on s₁.store
  targets : (log.map Prod.fst).Subperm s₁.targets
  prepared : ∀ e ∈ log, Prepares L.cfg e.1 e.2

theorem Serial.replayed {L : Load} {s₁ : System P n} {σ : Store P} {b : Burst P}
    {attempts : List Attempt} {log : CommitLog P} {settled : List (CommitResult P)}
    (h : Serial L.cfg s₁.store s₁.targets σ b attempts log settled) : Replayed L s₁ σ log := by
  refine ⟨h.store, ?_, h.prepared⟩
  have hsub : ((settled.filter CommitResult.visible).map CommitResult.target ++
      (b.flight.filter InFlight.isCommitted).map InFlight.target).Sublist
        (settled.map CommitResult.target ++ b.unsettled) := by
    refine List.Sublist.append (List.filter_sublist.map _) ?_
    exact (List.filter_sublist.map _).trans (List.sublist_append_left _ _)
  exact (h.visible.subperm.trans hsub.subperm).trans h.partition.symm.subperm

namespace System

variable {L : Load} {s t s₁ : System P n} {σ : Store P} {log : CommitLog P}

/-- Where phase two has come to: a log, and perhaps an append to the history
behind it. -/
def Replays (L : Load) (s₁ s : System P n) : Prop :=
  ∃ σ log, Replayed L s₁ σ log ∧ (s.store = σ ∨ L.cfg.writeManifest = true ∧ ∃ report faults,
    s.store = (Manifest.append P L.cfg.outputUri L.run report σ faults).2)

theorem Replays.move [NeZero n] {a : Label n} (h : Replays L s₁ s) (hphase : InPhaseTwo L s₁ s)
    (hmove : Move L s a t) : Replays L s₁ t := by
  have hlate := hphase.isLate
  have hpoint := (hphase.move hmove).2
  cases hmove with
  | burst o dumpedBy b hp hover b' σ attempts hburst =>
    obtain ⟨log, settled, hserial⟩ := hpoint
    exact ⟨_, log, hserial.replayed, .inl rfl⟩
  | recorded o report hp loadId σ hrecorded =>
    have hbefore := hphase.2
    rw [hp] at hbefore
    obtain ⟨hmanifest, -, b, log, settled, hconcluded⟩ := hbefore
    exact ⟨_, log, hconcluded.serial.replayed,
      .inr ⟨hmanifest, report, o.history, by rw [hrecorded]⟩⟩
  | stopRecord o report hp e σ hrecord =>
    have hbefore := hphase.2
    rw [hp] at hbefore
    obtain ⟨hmanifest, -, b, log, settled, hconcluded⟩ := hbefore
    exact ⟨_, log, hconcluded.serial.replayed,
      .inr ⟨hmanifest, report, o.history, by rw [hrecord]⟩⟩
  | event o event events hp reaction σ hevent => simp [System.isLate, hp] at hlate
  | stopEvent o event events hp e σ hevent => simp [System.isLate, hp] at hlate
  | send o i job rest after events hp halive hroom => simp [System.isLate, hp] at hlate
  | _ => exact h

theorem PhaseTwo.replays [NeZero n] (h : PhaseTwo L σ s₁ s) : Replays L s₁ s := by
  obtain ⟨o, t, labels, hstep, hpast, hrun⟩ := h.run
  have hbegin : PhaseTwo L σ s₁ t := ⟨h.reachable, h.reading, o, t, [], hstep, hpast, rfl⟩
  have hkeep : ∀ (s : System P n) a t, InPhaseTwo L s₁ s ∧ Replays L s₁ s → step L s a = some t →
      InPhaseTwo L s₁ t ∧ Replays L s₁ t :=
    fun s a t hs hstep => ⟨hs.1.move (step_move hstep), hs.2.move hs.1 (step_move hstep)⟩
  refine (runFrom_invariant hkeep ⟨hbegin.inPhaseTwo, ?_⟩ hrun).2
  obtain ⟨dumpedBy, -, -, rfl⟩ := begins_of_pastPhaseOne h.reading hstep hpast
  exact ⟨_, [], ⟨rfl, List.nil_subperm, by simp⟩, .inl rfl⟩

theorem PhaseTwo.rows [NeZero n] (h : PhaseTwo L σ s₁ s) :
    s₁.targets.map CommitTarget.qualified = L.blocks.map (fun b => b.table.qualified) ∧
      ∀ name, (addedRows (actionsUnder name s₁.targets)).Perm (L.rows name) := by
  obtain ⟨o, t, labels, hstep, hpast, -⟩ := h.run
  have hbegin : PhaseTwo L σ s₁ t := ⟨h.reachable, h.reading, o, t, [], hstep, hpast, rfl⟩
  obtain ⟨parts, hprovided⟩ := hbegin.provided
  obtain ⟨dumpedBy, -, -, rfl⟩ := begins_of_pastPhaseOne h.reading hstep hpast
  obtain ⟨events, hscan, htitled, hscripted, hcomplete⟩ := hbegin.reachable_last.read rfl
  have haccomplished : Accomplished L _ (s₁.reader.report L dumpedBy s₁.reader.tables)
      (wantedBlocks L.cfg events) := .of_scripted htitled hscripted hcomplete rfl
  have htitles : s₁.targets.map CommitTarget.title =
      (wantedBlocks L.cfg events).map (DumpBlock.title L.cfg) := by
    rw [← haccomplished.titles]
    exact Burst.map_assign _ (fun _ _ => rfl) _ _
  have hblocks := Load.blocks_eq hscan
  refine ⟨?_, fun name => ?_⟩
  · have hnames := congrArg (List.map Prod.fst) htitles
    rw [hblocks]
    simpa [Function.comp_def, CommitTarget.title, DumpBlock.title] using hnames
  · rw [Load.rows, hblocks]
    exact hprovided.rows haccomplished htitles name

end System

/-! ### The rows behind a log -/

def CommitLog.atLocation (log : CommitLog P) (uri : String) : CommitLog P :=
  log.filter fun e => e.1.table.uri = uri

theorem CommitLog.visible_on (log : CommitLog P) {σ : Store P} {uri : String} {v : Version P}
    (h : (σ uri).getLast? = some v) :
    (log.on σ).visible uri = ((log.atLocation uri).foldl (fun w e => w.apply e.2) v).rows := by
  have hlatest := @getLast?_append_chain _ _ Version.apply (σ uri) v (editsOf log.edits uri) h
  rw [Store.visible, CommitLog.on, replay_apply h, hlatest, editsOf_edits, List.foldl_map]
  rfl

theorem CommitLog.rows_foldl {log : CommitLog P}
    (h : ∀ e ∈ log, e.2 = e.1.actions ∧ OnlyAdds e.1.actions) (v : Version P) :
    (log.foldl (fun w e => w.apply e.2) v).rows =
      v.rows ++ addedRows ((log.map Prod.fst).flatMap CommitTarget.actions) := by
  induction log generalizing v with
  | nil => simp [addedRows, added]
  | cons e log ih =>
    obtain ⟨heq, hadds⟩ := h e List.mem_cons_self
    have hrows : (v.apply e.2).rows = v.rows ++ addedRows e.1.actions := by
      rw [heq, hadds.apply, Version.rows, List.flatMap_append]
      rfl
    rw [List.foldl_cons, ih fun d hd => h d (List.mem_cons_of_mem _ hd), hrows]
    simp

theorem addedRows_perm {actions actions' : List (Action P)} (h : actions.Perm actions') :
    (addedRows actions).Perm (addedRows actions') := by
  have hcons : ∀ (a : Action P) (as : List (Action P)),
      addedRows (a :: as) = addedRows [a] ++ addedRows as := fun a as => addedRows_append [a] as
  induction h with
  | nil => exact List.Perm.refl _
  | @cons a as as' _ ih =>
    rw [hcons a as, hcons a as']
    exact ih.append_left _
  | swap a b as =>
    rw [hcons b (a :: as), hcons a as, hcons a (b :: as), hcons b as, ← List.append_assoc,
      ← List.append_assoc]
    exact List.perm_append_comm.append_right _
  | trans _ _ ih ih' => exact ih.trans ih'

section

variable {L : Load} {s₁ : System P n} {σ₂ : Store P} {log : CommitLog P}

theorem CommitLog.targets_atLocation (log : CommitLog P) (uri : String) :
    (log.atLocation uri).map Prod.fst = (log.map Prod.fst).filter fun t => t.table.uri = uri := by
  rw [CommitLog.atLocation, List.filter_map]
  rfl

theorem Provided.filter_uri {trace : Trace} {parts : List (List (Action P))}
    (h : Provided L s₁.store trace s₁.targets parts) {name uri : String}
    (hplaced : Placed P L.cfg name uri) :
    s₁.targets.filter (fun t => t.table.uri = uri) =
      s₁.targets.filter fun t => t.qualified = name := by
  apply List.filter_congr
  intro t ht
  obtain ⟨v, kernel, hopened⟩ := h.opened t ht
  simpa using hopened.placed.uri_iff hplaced

/-- What a location shows behind a log: the files of its commits, and before
them what was there, unless a commit has replaced it. -/
theorem Replayed.visible (h : Replayed L s₁ σ₂ log) {trace : Trace}
    {parts : List (List (Action P))} (hprovided : Provided L s₁.store trace s₁.targets parts)
    {uri : String}
    (hone : L.cfg.mode = .overwrite → (log.atLocation uri).length ≤ 1) :
    σ₂.visible uri =
      (if L.cfg.mode = .overwrite ∧ log.atLocation uri ≠ [] then [] else s₁.store.visible uri) ++
        addedRows (((log.atLocation uri).map Prod.fst).flatMap CommitTarget.actions) := by
  have hopened : ∀ e ∈ log.atLocation uri, Prepares L.cfg e.1 e.2 ∧ OnlyAdds e.1.actions ∧
      ∃ v kernel, (s₁.store uri).getLast? = some v ∧ Opened L.cfg s₁.store e.1 v kernel := by
    intro e he
    obtain ⟨hlog, huri⟩ := List.mem_filter.mp he
    have ht : e.1 ∈ s₁.targets := h.targets.subset (List.mem_map_of_mem hlog)
    obtain ⟨v, kernel, hopened⟩ := hprovided.opened e.1 ht
    have hcurrent := hopened.current
    rw [of_decide_eq_true huri] at hcurrent
    exact ⟨h.prepared e hlog, hprovided.onlyAdds ht, v, kernel, hcurrent, hopened⟩
  cases hv : (s₁.store uri).getLast? with
  | none =>
    have hnone : log.atLocation uri = [] := by
      rw [List.eq_nil_iff_forall_not_mem]
      intro e he
      obtain ⟨-, -, v, kernel, hcurrent, -⟩ := hopened e he
      rw [hv] at hcurrent
      cases hcurrent
    have hnil : s₁.store uri = [] := List.getLast?_eq_none_iff.mp hv
    rw [h.store, Store.visible, CommitLog.on, replay_of_nil hnil, Store.visible, hnil, hnone]
    simp [addedRows, added]
  | some v =>
    have hbefore : s₁.store.visible uri = v.rows := by
      rw [Store.visible, hv]
      rfl
    rw [h.store, CommitLog.visible_on log hv, hbefore]
    by_cases hmode : L.cfg.mode = .overwrite
    · cases hcommits : log.atLocation uri with
      | nil => simp [addedRows, added]
      | cons e rest =>
        have hlength := hone hmode
        rw [hcommits, List.length_cons] at hlength
        obtain rfl : rest = [] := List.eq_nil_of_length_eq_zero (by omega)
        obtain ⟨hprepares, honly, w, kernel, hcurrent, htarget⟩ :=
          hopened e (hcommits ▸ List.mem_singleton_self e)
        obtain rfl : v = w := Option.some.inj (hv.symm.trans hcurrent)
        rw [List.foldl_cons, List.foldl_nil, htarget.rows_apply honly hprepares, if_pos hmode,
          if_pos ⟨hmode, List.cons_ne_nil e []⟩, List.map_singleton, List.flatMap_singleton]
    · rw [if_neg fun hover => hmode hover.1]
      apply CommitLog.rows_foldl
      intro e he
      obtain ⟨hprepares, honly, w, kernel, -, htarget⟩ := hopened e he
      rcases htarget.prepares honly hprepares with ⟨-, heq⟩ | ⟨hover, -⟩
      · exact ⟨heq, honly⟩
      · exact absurd hover hmode

end

namespace System

variable {L : Load} {s s₁ : System P n} {σ : Store P} {report : LoadReport} {name : TableName}
  {uri : String}

theorem ne_history {cfg : LoadConfig} (huri : tableUri P cfg.outputUri name = .ok uri)
    (hreserved : Manifest.reservedCollision name = false) {history : String}
    (hhistory : tableUri P cfg.outputUri Manifest.manifestTable = .ok history) : uri ≠ history := by
  rintro rfl
  obtain ⟨rel, hrel, heq⟩ := relativePath_of_tableUri huri
  obtain ⟨rel', hrel', heq'⟩ := relativePath_of_tableUri hhistory
  have hsame : rel = rel' := (String.append_right_inj _).mp (heq.symm.trans heq')
  rw [(relativePath_inj hrel hrel').1 hsame] at hreserved
  exact absurd hreserved (by decide)

theorem PhaseTwo.length_filter [NeZero n] (h : PhaseTwo L σ s₁ s) (name : String) :
    (s₁.targets.filter fun t => t.qualified = name).length =
      (L.blocks.filter fun b => b.table.qualified = name).length := by
  have hlength : ∀ {α : Type} (f : α → String) (xs : List α),
      (xs.filter fun x => f x = name).length = ((xs.map f).filter fun q => q = name).length := by
    intro α f xs
    rw [List.filter_map, List.length_map]
    rfl
  rw [hlength CommitTarget.qualified, h.rows.1, ← hlength]

theorem Reachable.shows [NeZero n] (h : Reachable L σ s)
    (huri : tableUri P L.cfg.outputUri name = .ok uri)
    (hreserved : L.cfg.writeManifest = true → Manifest.reservedCollision name = false)
    (hone : L.cfg.mode = .overwrite →
      (L.blocks.filter fun b => b.table.qualified = name.qualified).length ≤ 1) :
    s.store.visible uri = σ.visible uri ∨
      (s.store.visible uri).Perm
        ((if L.cfg.mode = .overwrite then [] else σ.visible uri) ++ L.rows name.qualified) := by
  rcases h.begins with ⟨hcreated, -⟩ | ⟨s₁, hphase⟩
  · exact .inl (hcreated.visible uri)
  · obtain ⟨parts, hprovided⟩ := hphase.provided
    obtain ⟨σ₂, log, hreplayed, hstore⟩ := hphase.replays
    have hcreated := hphase.reachable.onlyCreated hphase.isLate
    have hsame : s.store.visible uri = σ₂.visible uri := by
      rcases hstore with heq | ⟨hmanifest, report, faults, heq⟩
      · rw [heq]
      · rw [heq, Store.visible, Store.visible, append_elsewhere σ₂ L.run report faults
          fun history hhistory => ne_history huri (hreserved hmanifest) hhistory]
    have hplaced : Placed P L.cfg name.qualified uri := ⟨name, rfl, huri⟩
    have hat : ((log.atLocation uri).map Prod.fst).Subperm
        (s₁.targets.filter fun t => t.qualified = name.qualified) := by
      rw [log.targets_atLocation, ← hprovided.filter_uri hplaced]
      exact hreplayed.targets.filter _
    have hle : L.cfg.mode = .overwrite →
        (s₁.targets.filter fun t => t.qualified = name.qualified).length ≤ 1 :=
      fun hmode => (hphase.length_filter _).trans_le (hone hmode)
    have hlog : L.cfg.mode = .overwrite → (log.atLocation uri).length ≤ 1 := by
      intro hmode
      have hlength := hat.length_le.trans (hle hmode)
      rwa [List.length_map] at hlength
    have hvisible := hreplayed.visible hprovided hlog
    rw [hcreated.visible] at hvisible
    rw [hsame, hvisible]
    by_cases hmode : L.cfg.mode = .overwrite
    · by_cases hnil : log.atLocation uri = []
      · left
        rw [hnil]
        simp [addedRows, added]
      · -- the one target under the name has its commit
        right
        have hperm := hat.perm_of_length_le (by
          rw [List.length_map]
          exact (hle hmode).trans (List.length_pos_iff.mpr hnil))
        rw [if_pos ⟨hmode, hnil⟩, if_pos hmode]
        apply List.Perm.append_left
        exact (addedRows_perm (hperm.flatMap_right CommitTarget.actions)).trans (hphase.rows.2 _)
    · rw [if_neg fun hover => hmode hover.1, if_neg hmode]
      rcases whole_or_nothing hat with hnil | hall
      · left
        rw [hnil]
        simp [addedRows, added]
      · right
        exact ((addedRows_perm hall).trans (hphase.rows.2 _)).append_left _

theorem Reachable.shows_all [NeZero n] (h : Reachable L σ s) (hp : s.point = .done (.ok report))
    (huri : tableUri P L.cfg.outputUri name = .ok uri)
    (hreserved : L.cfg.writeManifest = true → Manifest.reservedCollision name = false)
    (hone : L.cfg.mode = .overwrite →
      (L.blocks.filter fun b => b.table.qualified = name.qualified).length ≤ 1) :
    (s.store.visible uri).Perm
      ((if L.cfg.mode = .overwrite ∧ name.qualified ∈ L.blocks.map (fun b => b.table.qualified)
        then [] else σ.visible uri) ++ L.rows name.qualified) := by
  obtain ⟨s₁, σ₂, b, log, settled, parts, hs⟩ := h.succeeded hp
  have hphase := hs.phaseTwo
  obtain ⟨hnames, hrows⟩ := hphase.rows
  have hsame : s.store.visible uri = σ₂.visible uri := by
    rw [Store.visible, Store.visible, hs.store_apply fun hmanifest history hhistory =>
      ne_history huri (hreserved hmanifest) hhistory]
  have hplaced : Placed P L.cfg name.qualified uri := ⟨name, rfl, huri⟩
  have hperm : ((log.atLocation uri).map Prod.fst).Perm
      (s₁.targets.filter fun t => t.qualified = name.qualified) := by
    rw [log.targets_atLocation, ← hs.provided.filter_uri hplaced]
    exact hs.concluded.log_perm.filter _
  have hcommits : log.atLocation uri ≠ [] ↔
      name.qualified ∈ L.blocks.map fun b => b.table.qualified := by
    rw [← hnames]
    constructor
    · intro hne
      obtain ⟨e, he⟩ := List.exists_mem_of_ne_nil _ hne
      obtain ⟨ht, hname⟩ := List.mem_filter.mp (hperm.subset (List.mem_map_of_mem he))
      exact List.mem_map.mpr ⟨e.1, ht, by simpa using hname⟩
    · intro hmem hnil
      obtain ⟨t, ht, hname⟩ := List.mem_map.mp hmem
      have hin := hperm.mem_iff.mpr (List.mem_filter.mpr ⟨ht, by simpa using hname⟩)
      rw [hnil] at hin
      cases hin
  have hlog : L.cfg.mode = .overwrite → (log.atLocation uri).length ≤ 1 := by
    intro hmode
    have hlength := hperm.length_eq.trans (hphase.length_filter name.qualified)
    rw [List.length_map] at hlength
    exact hlength.trans_le (hone hmode)
  have hvisible := hs.concluded.serial.replayed.visible hs.provided hlog
  rw [hs.created.visible] at hvisible
  rw [hsame, hvisible]
  simp only [hcommits]
  apply List.Perm.append_left
  exact (addedRows_perm (hperm.flatMap_right CommitTarget.actions)).trans (hrows _)

/-- At every moment of a load, and behind it whatever has come of it, a table
shows the rows that it showed before, or has all rows of the dump for it. Behind
a load that has succeeded it has them all. -/
theorem reads_are_whole [NeZero n] (h : Reachable L σ s)
    (huri : tableUri P L.cfg.outputUri name = .ok uri)
    (hreserved : L.cfg.writeManifest = true → Manifest.reservedCollision name = false)
    (hone : L.cfg.mode = .overwrite →
      (L.blocks.filter fun b => b.table.qualified = name.qualified).length ≤ 1) :
    (s.store.visible uri = σ.visible uri ∨
      (s.store.visible uri).Perm
        ((if L.cfg.mode = .overwrite then [] else σ.visible uri) ++ L.rows name.qualified)) ∧
    ∀ report, s.point = .done (.ok report) → (s.store.visible uri).Perm
      ((if L.cfg.mode = .overwrite ∧ name.qualified ∈ L.blocks.map (fun b => b.table.qualified)
        then [] else σ.visible uri) ++ L.rows name.qualified) :=
  ⟨h.shows huri hreserved hone, fun _ hp => h.shows_all hp huri hreserved hone⟩

def committedThrough : List (Label 1) := blockClosed ++ List.replicate 4 (.reader {})

/-- The row that was there is gone, and the row of the dump is there, before
the load has come to its end. -/
theorem reads_are_whole_narrower :
    ∃ s : System .plain 1, Reachable (narrower .overwrite) filled s ∧ s.isCommitting = true ∧
      filled.visible "out/t" = [[.value (.int 5)]] ∧
      s.store.visible "out/t" = [[.value (.int 1)]] ∧
      (s.store.visible "out/t").Perm ((narrower .overwrite).rows "t") := by
  have hrun : (runFrom (step (narrower .overwrite))
      (start (narrower .overwrite) filled {} : System .plain 1) committedThrough).any
        (fun s => s.isCommitting && decide (s.store.visible "out/t" = [[.value (.int 1)]]))
          = true := by
    decide +kernel
  have hbefore : filled.visible "out/t" = [[.value (.int 5)]] := by decide +kernel
  have huri : tableUri .plain "out" ⟨none, "t"⟩ = .ok "out/t" := by decide +kernel
  have hone : ((narrower .overwrite).blocks.filter
      fun b => b.table.qualified = "t").length ≤ 1 := by decide +kernel
  obtain ⟨s, hreach, hcheck⟩ := exists_reachable hrun
  obtain ⟨hcommitting, hvisible⟩ := Bool.and_eq_true_iff.mp hcheck
  have hvisible := of_decide_eq_true hvisible
  refine ⟨s, hreach, hcommitting, hbefore, hvisible, ?_⟩
  have hwhole := (reads_are_whole hreach huri (fun h => by cases h) fun _ => hone).1
  refine hwhole.resolve_left fun hsame => ?_
  rw [hvisible, hbefore] at hsame
  exact absurd hsame (by decide)

/-! ### Appending day by day -/

/-- Loads over one prefix, one after another, each with whether it has come to
its end with success. -/
inductive Series (P : Platform) (outputUri : String) (σ : Store P) :
    List (Load × Bool) → Store P → Prop
  | none : Series P outputUri σ [] σ
  | next {σ' : Store P} {days : List (Load × Bool)} (before : Series P outputUri σ days σ')
      (L : Load) (huri : L.cfg.outputUri = outputUri) (n : ℕ) [NeZero n] (s : System P n)
      (h : Reachable L σ' s) (succeeded : Bool)
      (hsucceeded : succeeded = true → ∃ report, s.point = .done (.ok report)) :
      Series P outputUri σ (days ++ [(L, succeeded)]) s.store

/-- Of loads that append, each adds all rows of its dump to a table or none, and
all of them where it succeeds. -/
theorem series_accumulates {outputUri : String} {σ' : Store P} {days : List (Load × Bool)}
    (h : Series P outputUri σ days σ') (happend : ∀ d ∈ days, d.1.cfg.mode = .append)
    (huri : tableUri P outputUri name = .ok uri)
    (hreserved : Manifest.reservedCollision name = false) :
    ∃ parts : List (List Row),
      List.Forall₂ (fun d rows => rows = d.1.rows name.qualified ∨ d.2 = false ∧ rows = [])
        days parts ∧
      (σ'.visible uri).Perm (σ.visible uri ++ parts.flatten) := by
  induction h with
  | none => exact ⟨[], .nil, by simp⟩
  | @next σ₂ days before L hprefix n _ s hreach succeeded hsucceeded ih =>
    obtain ⟨parts, hparts, hperm⟩ := ih fun d hd => happend d (List.mem_append_left _ hd)
    have hmode : L.cfg.mode = .append := happend (L, succeeded) (by simp)
    have hne : L.cfg.mode ≠ .overwrite := by simp [hmode]
    rw [← hprefix] at huri
    have hadds : ∃ rows, (rows = L.rows name.qualified ∨ succeeded = false ∧ rows = []) ∧
        (s.store.visible uri).Perm (σ₂.visible uri ++ rows) := by
      cases succeeded with
      | true =>
        obtain ⟨report, hp⟩ := hsucceeded rfl
        have hall := hreach.shows_all hp huri (fun _ => hreserved) fun hover => absurd hover hne
        rw [if_neg fun hover => hne hover.1] at hall
        exact ⟨_, .inl rfl, hall⟩
      | false =>
        rcases hreach.shows huri (fun _ => hreserved) fun hover => absurd hover hne
          with hsame | hall
        · exact ⟨[], .inr ⟨rfl, rfl⟩, by rw [hsame, List.append_nil]⟩
        · rw [if_neg hne] at hall
          exact ⟨_, .inl rfl, hall⟩
    obtain ⟨rows, hrows, hvisible⟩ := hadds
    refine ⟨parts ++ [rows], List.rel_append hparts (.cons hrows .nil), ?_⟩
    rw [List.flatten_append, List.flatten_singleton, ← List.append_assoc]
    exact hvisible.trans (hperm.append_right rows)

/-- A first load comes to its end, and a second one is given up before its
commit. -/
theorem series_accumulates_narrower :
    ∃ (σ : Store .plain) (parts : List (List Row)),
      Series .plain "out" (fun _ => [])
        [(narrower .append, true), ({ narrower .append with run := 1 }, false)] σ ∧
      σ.visible "out/t" = [[.value (.int 1)]] ∧
      List.Forall₂ (fun d rows => rows = d.1.rows "t" ∨ d.2 = false ∧ rows = [])
        [(narrower .append, true), ({ narrower .append with run := 1 }, false)] parts ∧
      (σ.visible "out/t").Perm parts.flatten := by
  have hrun : ((runFrom (step (narrower .append))
      (start (narrower .append) (fun _ => []) {} : System .plain 1) loadedThrough).any fun s =>
        decide (s.reportedVersions = some [("t", 1)]) &&
          (runFrom (step { narrower .append with run := 1 })
            (start { narrower .append with run := 1 } s.store {} : System .plain 1) blockClosed).any
              fun s' => decide (s'.store.visible "out/t" = [[.value (.int 1)]])) = true := by
    decide +kernel
  have huri : tableUri .plain "out" ⟨none, "t"⟩ = .ok "out/t" := by decide +kernel
  obtain ⟨s, hs, hcheck⟩ := (Option.any_eq_true _ _).mp hrun
  obtain ⟨hversions, hany⟩ := Bool.and_eq_true_iff.mp hcheck
  obtain ⟨report, hp, -⟩ := point_of_reportedVersions (of_decide_eq_true hversions)
  obtain ⟨s', hs', hvisible⟩ := (Option.any_eq_true _ _).mp hany
  have hfirst : Series .plain "out" (fun _ => []) [(narrower .append, true)] s.store :=
    .next .none (narrower .append) rfl 1 s ⟨{}, loadedThrough, hs⟩ true fun _ => ⟨report, hp⟩
  have hboth := hfirst.next { narrower .append with run := 1 } rfl 1 s' ⟨{}, blockClosed, hs'⟩ false
    fun h => by cases h
  obtain ⟨parts, hparts, hperm⟩ := series_accumulates hboth (by simp [narrower]) huri (by decide)
  exact ⟨s'.store, parts, hboth, of_decide_eq_true hvisible, hparts,
    by simpa [Store.visible] using hperm⟩

end System

end PgDelta.Pipeline
