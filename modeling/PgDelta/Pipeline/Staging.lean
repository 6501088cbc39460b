import PgDelta.Pipeline.Placement
import PgDelta.Pipeline.Refinement

/-!
What a load has staged for each table.

The reader opens a target for each block and keeps what the workers stage under
the name of the block's table. `Stored` says which part of the staged files
belongs to which block, whatever the order in which the workers contribute.
-/

namespace PgDelta.Pipeline

open PgDelta.Lib PgDelta.Builders PgDelta.Types PgDelta.Scan PgDelta.Sink

variable {P : Platform} {n : ℕ}

/-! ### The contribution of a block -/

/-- What was staged for a block: files with its schema, whose batches are those
that the workers wrote for it. -/
structure Contributes (run : ℕ) (t : Trace) (generation : ℕ) (schema : Schema)
    (actions : List (Action P)) : Prop where
  files : ∀ a ∈ actions, ∃ f, a = .add f ∧ f.schema = schema ∧ f.path.run = run ∧
    f.path.block = generation
  covers : ((added actions).flatMap File.batches).Perm (t.batchesOf generation)

theorem Contributes.onlyAdds {run : ℕ} {t : Trace} {generation : ℕ} {schema : Schema}
    {actions : List (Action P)} (h : Contributes run t generation schema actions) :
    OnlyAdds actions := by
  intro a ha
  obtain ⟨f, hf, -⟩ := h.files a ha
  exact ⟨f, hf⟩

/-- What is written for later blocks is no part of an earlier one. -/
theorem Contributes.write {run : ℕ} {t : Trace} {generation : ℕ} {schema : Schema}
    {actions : List (Action P)} (h : Contributes run t generation schema actions)
    {written : List (ℕ × RecordBatch)} (hwritten : ∀ w ∈ written, generation < w.1) :
    Contributes run { t with written := t.written ++ written } generation schema actions := by
  refine ⟨h.files, ?_⟩
  have hnone : written.filter (fun w => w.1 = generation) = [] := by
    rw [List.filter_eq_nil_iff]
    intro w hw
    have := hwritten w hw
    simp only [decide_eq_true_eq]
    omega
  simpa [Trace.batchesOf, List.filter_append, hnone] using h.covers

theorem staged_foldl_add (a : Acks P) (cs : List (BlockClosed P)) :
    (cs.foldl Acks.add a).staged = a.staged ++ cs.flatMap BlockClosed.staged := by
  induction cs generalizing a with
  | nil => simp
  | cons c cs ih =>
    rw [List.foldl_cons, ih]
    simp [Acks.add]

theorem flatMap_added (cs : List (BlockClosed P)) :
    (added (cs.flatMap BlockClosed.staged)).flatMap File.batches =
      cs.flatMap fun c => (added c.staged).flatMap File.batches := by
  induction cs with
  | nil => rfl
  | cons c cs ih => simp [ih]

theorem Crewed.contributes {run : ℕ} {ctx : BlockCtx} {stage : Fin n → Stage}
    {collected : List (BlockClosed P)} {l : Ledger P n} {p : Pool P n}
    (h : Crewed run ctx stage collected l p) (hall : n ≤ collected.length) :
    Contributes run p.trace ctx.generation ctx.schema (collected.flatMap BlockClosed.staged) := by
  obtain ⟨-, -, hcollected, hdata⟩ := h.finished hall
  refine ⟨?_, ?_⟩
  · intro a ha
    obtain ⟨c, hc, hac⟩ := List.mem_flatMap.mp ha
    obtain ⟨i, -, rfl⟩ := List.mem_map.mp (hcollected.mem_iff.mp hc)
    obtain ⟨f, hf, hschema, hrun, hblock, -⟩ := (hdata i).staged a hac
    exact ⟨f, hf, hschema, hrun, hblock⟩
  · rw [flatMap_added]
    calc
      (collected.flatMap fun c => (added c.staged).flatMap File.batches).Perm
          (((List.finRange n).map l.contribution).flatMap fun c =>
            (added c.staged).flatMap File.batches) := hcollected.flatMap_right _
      _ = gather fun i => (added (l.contribution i).staged).flatMap File.batches :=
        List.flatMap_map ..
      _ = gather l.written := congrArg gather (funext fun i => (hdata i).covers)
      (gather l.written).Perm (p.trace.batchesOf ctx.generation) := h.batches.symm

/-! ### The block in hand -/

/-- The block that the jobs of an event are about. -/
def After.block : After → Option OpenBlock
  | .opened block | .collect block => some block
  | .resume => none

/-- The target of a block. -/
structure Heads (cfg : LoadConfig) (t : CommitTarget P) (block : OpenBlock) : Prop where
  qualified : t.qualified = block.qualified
  schema : t.schema = arrowSchema block.columns cfg.wideNumericAsDecimal cfg.nativeArrays
  drift : t.drift = block.drift

/-- What is staged under a name, block by block. -/
def under (name : String) (tables : List TableStats) (parts : List (List (Action P))) :
    List (Action P) :=
  ((tables.zip parts).filter fun e => e.1.table = name).flatMap Prod.snd

theorem under_concat (name : String) {tables : List TableStats} {parts : List (List (Action P))}
    (h : parts.length = tables.length) (stats : TableStats) (part : List (Action P)) :
    under name (tables ++ [stats]) (parts ++ [part]) =
      under name tables parts ++ if stats.table = name then part else [] := by
  rw [under, List.zip_append h.symm, List.filter_append, List.flatMap_append]
  by_cases hname : stats.table = name <;> simp [under, hname]

/-- The targets and the staged files, block by block. -/
structure Stored (L : Load) (r : Reader P) (t : Trace) (hand : Option OpenBlock) : Prop where
  length : r.openTables.length = r.generation
  names : ∀ (g : ℕ) (stats : TableStats), r.tables[g]? = some stats →
    ∃ target, r.openTables[g]? = some target ∧ target.qualified = stats.table ∧
      target.drift = stats.schemaDrift
  unversioned : ∀ stats ∈ r.tables, stats.deltaVersion = 0
  parts : ∃ parts : List (List (Action P)), parts.length = r.tables.length ∧
    (∀ (g : ℕ) (part : List (Action P)) (target : CommitTarget P), parts[g]? = some part →
      r.openTables[g]? = some target → Contributes L.run t (g + 1) target.schema part) ∧
    ∀ name, (r.staged name).getD [] = under name r.tables parts
  hand : ∀ block, hand = some block → ∃ target, r.openTables.getLast? = some target ∧
    Heads L.cfg target block

namespace Stored

variable {L : Load} {r r' : Reader P} {t : Trace} {hand hand' : Option OpenBlock}

theorem congr (h : Stored L r t hand) (hgeneration : r'.generation = r.generation)
    (hopen : r'.openTables = r.openTables) (htables : r'.tables = r.tables)
    (hstaged : r'.staged = r.staged) (hhand : ∀ block, hand' = some block → hand = some block) :
    Stored L r' t hand' where
  length := by rw [hopen, hgeneration]; exact h.length
  names := by rw [hopen, htables]; exact h.names
  unversioned := by rw [htables]; exact h.unversioned
  parts := by rw [hopen, htables, hstaged]; exact h.parts
  hand block hblock := by rw [hopen]; exact h.hand block (hhand block hblock)

/-- A block is over as far as its target is concerned. -/
theorem leave (h : Stored L r t hand) : Stored L r t none :=
  h.congr rfl rfl rfl rfl fun _ hnone => by cases hnone

theorem write (h : Stored L r t hand) {written : List (ℕ × RecordBatch)}
    (hwritten : ∀ w ∈ written, r.tables.length < w.1) :
    Stored L r { t with written := t.written ++ written } hand where
  length := h.length
  names := h.names
  unversioned := h.unversioned
  parts := by
    obtain ⟨parts, hlength, hparts, hstaged⟩ := h.parts
    refine ⟨parts, hlength, fun g part target hpart htarget => ?_, hstaged⟩
    apply (hparts g part target hpart htarget).write
    intro w hw
    have hg : g < parts.length := (List.getElem?_eq_some_iff.mp hpart).1
    have := hwritten w hw
    omega
  hand := h.hand

theorem trace (h : Stored L r t hand) {t' : Trace} (hwritten : t'.written = t.written) :
    Stored L r t' hand where
  length := h.length
  names := h.names
  unversioned := h.unversioned
  parts := by
    obtain ⟨parts, hlength, hparts, hunder⟩ := h.parts
    refine ⟨parts, hlength, fun g part target hpart htarget => ?_, hunder⟩
    obtain ⟨hfiles, hcovers⟩ := hparts g part target hpart htarget
    exact ⟨hfiles, by rw [Trace.batchesOf, hwritten]; exact hcovers⟩
  hand := h.hand

theorem openBlock (h : Stored L r t hand) (target : CommitTarget P) (block : OpenBlock)
    (hgeneration : r'.generation = r.generation + 1)
    (hopen : r'.openTables = r.openTables ++ [target]) (htables : r'.tables = r.tables)
    (hstaged : r'.staged = r.staged) (hheads : Heads L.cfg target block) :
    Stored L r' t (some block) where
  length := by
    rw [hopen, hgeneration, List.length_append, h.length]
    rfl
  names g stats hstats := by
    rw [htables] at hstats
    obtain ⟨target', htarget', hmore⟩ := h.names g stats hstats
    refine ⟨target', ?_, hmore⟩
    rw [hopen, List.getElem?_append_left (List.getElem?_eq_some_iff.mp htarget').1, htarget']
  unversioned := by rw [htables]; exact h.unversioned
  parts := by
    obtain ⟨parts, hlength, hparts, hunder⟩ := h.parts
    rw [htables, hstaged]
    refine ⟨parts, hlength, ?_, hunder⟩
    intro g part target' hpart htarget'
    have hg : g < r.tables.length := hlength ▸ (List.getElem?_eq_some_iff.mp hpart).1
    obtain ⟨target'', htarget'', -⟩ := h.names g _ (List.getElem?_eq_getElem hg)
    have hlt := (List.getElem?_eq_some_iff.mp htarget'').1
    rw [hopen, List.getElem?_append_left hlt] at htarget'
    exact hparts g part target' hpart htarget'
  hand block' hblock' := by
    obtain rfl := Option.some.inj hblock'
    exact ⟨target, by simp [hopen], hheads⟩

theorem closeBlock {block : OpenBlock} (h : Stored L r t (some block)) (acks : Acks P)
    (hlength : r.tables.length + 1 = r.generation)
    (hacks : Contributes L.run t r.generation
      (arrowSchema block.columns L.cfg.wideNumericAsDecimal L.cfg.nativeArrays) acks.staged) :
    Stored L (r.closeBlock block acks) t none where
  length := h.length
  names g stats hstats := by
    simp only [Reader.closeBlock] at hstats ⊢
    rcases lt_or_ge g r.tables.length with hg | hg
    · rw [List.getElem?_append_left hg] at hstats
      exact h.names g stats hstats
    · rw [List.getElem?_append_right hg, List.getElem?_singleton] at hstats
      split at hstats
      next hzero =>
        obtain rfl := Option.some.inj hstats
        -- the new entry is that of the block, whose target was opened last
        obtain ⟨target, htarget, hheads⟩ := h.hand block rfl
        refine ⟨target, ?_, hheads.qualified, hheads.drift⟩
        have hlast : g = r.openTables.length - 1 := by
          rw [h.length]
          omega
        rw [hlast, ← List.getLast?_eq_getElem?, htarget]
      next => cases hstats
  unversioned := by
    intro stats hstats
    rcases List.mem_append.mp hstats with hstats | hstats
    · exact h.unversioned stats hstats
    · rw [List.mem_singleton.mp hstats]
      rfl
  parts := by
    obtain ⟨parts, hparts, hcontributes, hunder⟩ := h.parts
    obtain ⟨last, hlast, hheads⟩ := h.hand block rfl
    refine ⟨parts ++ [acks.staged], by simp [Reader.closeBlock, hparts], ?_, ?_⟩
    · intro g part target hpart htarget
      rcases lt_or_ge g parts.length with hg | hg
      · rw [List.getElem?_append_left hg] at hpart
        exact hcontributes g part target hpart htarget
      · rw [List.getElem?_append_right hg, List.getElem?_singleton] at hpart
        split at hpart
        next hzero =>
          obtain rfl := Option.some.inj hpart
          have hgeneration : g + 1 = r.generation := by omega
          have htarget : r.openTables.getLast? = some target := by
            rw [List.getLast?_eq_getElem?, h.length, ← hgeneration]
            exact htarget
          obtain rfl : last = target := Option.some.inj (hlast.symm.trans htarget)
          rw [hgeneration, hheads.schema]
          exact hacks
        next => cases hpart
    · intro name
      simp only [Reader.closeBlock]
      rw [under_concat name hparts]
      -- only what is staged under the block's name has changed
      by_cases hname : name = block.qualified
      · subst hname
        rw [Function.update_self, Option.getD_some, hunder]
        simp [blockStats]
      · rw [Function.update_of_ne hname, hunder]
        simp [blockStats, Ne.symm hname]
  hand block' hnone := by cases hnone

/-- Every answer to an event keeps the targets and the staged files. -/
theorem reacts [NeZero n] {σ σ' : Store P} {o : Outside} {event : Event} {reaction : Reaction P n}
    (h : Stored L r t r.current) (hreacts : Reader.Reacts L.cfg σ r o event reaction σ') :
    Stored L reaction.reader t (reaction.after.block.or reaction.reader.current) := by
  cases hreacts with
  | opens table names hcurrent hwanted hreserved definition hdefinition columns hcolumns preloaded
      hpreloaded opened σ' hopened =>
    exact h.openBlock _
      ⟨r.generation + 1, table, table.qualified, columns, opened.drift⟩ rfl rfl rfl
      rfl ⟨rfl, rfl, rfl⟩
  | ends table hskipping block hcurrent htable =>
    exact h.congr rfl rfl rfl rfl fun block' hblock' => hcurrent.trans hblock'
  | skips table columns hcurrent hwanted => exact h.congr rfl rfl rfl rfl fun _ hb => hb
  | version dumpedBy fromDatabase => exact h.congr rfl rfl rfl rfl fun _ hb => hb
  | table definition => exact h.congr rfl rfl rfl rfl fun _ hb => hb
  | skipRows payload hskipping => exact h
  | rows payload hskipping block hcurrent => exact h.congr rfl rfl rfl rfl fun _ hb => hb
  | skipEnd table hskipping => exact h.congr rfl rfl rfl rfl fun _ hb => hb

end Stored

namespace System

variable {L : Load} {s t : System P n}

def hand (s : System P n) : Option OpenBlock :=
  match s.point with
  | .reading | .handling _ => s.reader.current
  | .dispatching _ _ _ after _ => after.block.or s.reader.current
  | .collecting block _ _ => some block
  | _ => none

theorem Stored.dispatching {sends : List (Fin n × Job)} {after : After} {events : List Event}
    (h : Stored L s.reader s.trace (after.block.or s.reader.current)) :
    Stored L (s.dispatching sends after events).reader (s.dispatching sends after events).trace
      (s.dispatching sends after events).hand := by
  cases sends with
  | cons send sends => exact h
  | nil =>
    cases after with
    | resume => exact h
    | opened block => exact h.congr rfl rfl rfl rfl fun _ hb => hb
    | collect block => exact h

/-- The last acknowledgement brings what was staged for the block. -/
theorem Stored.close {block : OpenBlock} {acks : Acks P} {c : BlockClosed P}
    {queue : List (WorkerEvent P)} {events : List Event}
    (h : Stored L s.reader s.trace (some block)) (hp : s.point = .collecting block acks events)
    (hstanding : s.Standing L) (hq : s.events = .closed c :: queue) (hlast : n ≤ acks.acked + 1) :
    Stored L (s.reader.closeBlock block (acks.add c)) s.trace none := by
  simp only [Standing, hp] at hstanding
  obtain ⟨hcurrent, ctx, collected, hhand, hacks, hlen⟩ := hstanding
  obtain ⟨uri, hctx⟩ := hhand.context
  obtain ⟨l, hcrew⟩ := hhand.crew
  have hall : n ≤ (collected ++ [c]).length := by
    rw [hacks, length_collected] at hlast
    simpa [Acks.start] using hlast
  have hcontributes := (hcrew.collect hq).contributes hall
  have hstaged : (acks.add c).staged = (collected ++ [c]).flatMap BlockClosed.staged := by
    have hfold : acks.add c = (collected ++ [c]).foldl Acks.add (.start block) := by
      rw [List.foldl_append, ← hacks]
      rfl
    rw [hfold, staged_foldl_add]
    rfl
  apply h.closeBlock _ hhand.tables
  rw [hstaged, ← hhand.generation]
  rw [hctx] at hcontributes
  exact hcontributes

theorem Stored.move [NeZero n] {a : Label n} (h : Stored L s.reader s.trace s.hand)
    (haccounted : s.Accounted L) (hmove : Move L s a t) : Stored L t.reader t.trace t.hand := by
  have hworker : ∀ {i : Fin n} {w : Worker P} {more : List (WorkerEvent P)}
      {written : List (ℕ × RecordBatch)}, WorkerMove L.run i (s.workers i) w more written →
        Stored L (s.moved i w more written).reader (s.moved i w more written).trace s.hand := by
    intro i w more written hmove
    apply h.write
    intro b hb
    obtain ⟨job, hjob, hgeneration⟩ := hmove.jobs_subset.2 b hb
    rw [hgeneration]
    exact (haccounted.jobs i job hjob).1
  unfold hand at h
  cases hmove with
  | read o hp chunk chunks hc scanner events hf =>
    rw [hp] at h
    exact h.congr rfl rfl rfl rfl fun _ hb => hb
  | finish o hp hc he hf dumpedBy hd => exact h.leave
  | next o hp =>
    rw [hp] at h
    exact h
  | event o event events hp reaction σ hevent =>
    rw [hp] at h
    exact Stored.dispatching (s := { s with store := σ, reader := reaction.reader })
      (h.reacts (Reader.onEvent_reacts hevent))
  | send o i job rest after events hp halive hroom =>
    rw [hp] at h
    exact Stored.dispatching (s := { s.setWorker i { s.workers i with
      jobs := (s.workers i).jobs ++ [job] } with trace := recordDispatch s.trace job })
        (by cases job <;> exact h.trace rfl)
  | ack o block acks events hp c queue hq hmore =>
    rw [hp] at h
    exact h
  | close o block acks events hp c queue hq hlast =>
    rw [hp] at h
    have hclosed := Stored.close h hp haccounted.standing hq hlast
    have hstanding := haccounted.standing
    simp only [Standing, hp] at hstanding
    apply hclosed.congr rfl rfl rfl rfl
    intro block' hblock'
    have hcurrent : (s.reader.closeBlock block (acks.add c)).current = none := hstanding.1
    have hblock' : (s.reader.closeBlock block (acks.add c)).current = some block' := hblock'
    rw [hcurrent] at hblock'
    cases hblock'
  | burst o dumpedBy b hp hover b' σ attempts hburst => exact h.leave.trace rfl
  | interrupt o block acks events hp c queue hq hlast =>
    rw [hp] at h
    exact Stored.close h hp haccounted.standing hq hlast
  | job i faults hrun job jobs hjobs handled hhandle =>
    exact hworker (.job job jobs faults handled hrun hjobs hhandle)
  | jobFailed i faults hrun job jobs hjobs e hhandle => exact h
  | sendAck i faults c hstatus hroom => exact h
  | sendFailure i faults e hstatus hroom => exact h
  | exit i faults hstatus => exact h
  | leave i faults hstatus hjobs hdone => exact h
  | _ => exact h.leave

/-- In every state of a load, what is staged is what was written for the blocks
that are over. -/
theorem Reachable.stored [NeZero n] {σ : Store P} (h : Reachable L σ s) :
    Stored L s.reader s.trace s.hand := by
  obtain ⟨faults, labels, hrun⟩ := h
  have hkeep : ∀ (s : System P n) a t,
      (s.Accounted L ∧ s.Aligned L) ∧ Stored L s.reader s.trace s.hand →
      step L s a = some t → (t.Accounted L ∧ t.Aligned L) ∧ Stored L t.reader t.trace t.hand := by
    rintro s a t ⟨⟨haccounted, haligned⟩, hstored⟩ hstep
    have hmove := step_move hstep
    exact ⟨⟨haccounted.move haligned hmove, haligned.move hmove⟩,
      Stored.move hstored haccounted hmove⟩
  have hstart : Stored L (start L σ faults : System P n).reader
      (start L σ faults : System P n).trace
      (start L σ faults : System P n).hand := by
    refine ⟨rfl, ?_, ?_, ⟨[], rfl, ?_, fun _ => rfl⟩, ?_⟩
    · intro g stats hstats
      cases hstats
    · intro stats hstats
      cases hstats
    · intro g part target hpart
      cases hpart
    · intro block hblock
      unfold hand start at hblock
      cases hfault : startError L faults <;> simp [hfault] at hblock
  exact (runFrom_invariant hkeep ⟨⟨accounted_start L σ faults, aligned_start L σ faults⟩, hstart⟩
    hrun).2

end System

end PgDelta.Pipeline
