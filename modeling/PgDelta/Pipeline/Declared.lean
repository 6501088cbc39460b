import PgDelta.Pipeline.Commits

/-!
Declared schemas and the files beneath them.

A version agrees where it declares the columns with which each of its files was
written. Loads keep that up, one after another, as long as phase two finds the
schemas of its targets to meet: in `ErrorIfExists` mode with what their tables
declare, in `Overwrite` mode with one another.
-/

namespace PgDelta.Pipeline

open PgDelta.Lib PgDelta.Builders PgDelta.Types PgDelta.Scan PgDelta.Sink

variable {P : Platform} {n : ℕ}

/-! ### Agreement -/

def Fits (schema : StructType P) (f : File) : Prop :=
  ∃ kernel, tryIntoKernel P f.schema = .ok kernel ∧ schema.SameColumns kernel

def Agrees (v : Version P) : Prop := ∀ f ∈ v.files, Fits v.schema f

def StoreAgrees (σ : Store P) : Prop := ∀ uri, ∀ v ∈ σ uri, Agrees v

theorem Fits.congr {schema schema' : StructType P} {f : File} (h : Fits schema f)
    (hsame : schema'.SameColumns schema) : Fits schema' f := by
  obtain ⟨kernel, hkernel, hcolumns⟩ := h
  exact ⟨kernel, hkernel, hsame.trans hcolumns⟩

namespace StoreAgrees

variable {σ σ' : Store P}

theorem push (h : StoreAgrees σ) (uri : String) {v : Version P} (hv : Agrees v) :
    StoreAgrees (σ.push uri v) := by
  intro other w hw
  by_cases hother : other = uri
  · subst hother
    rw [Store.push_self, List.mem_append, List.mem_singleton] at hw
    rcases hw with hw | rfl
    · exact h other w hw
    · exact hv
  · rw [Store.push_of_ne σ v hother] at hw
    exact h other w hw

theorem onlyCreated (h : StoreAgrees σ) (hcreated : σ.OnlyCreated σ') : StoreAgrees σ' := by
  intro uri v hv
  rcases hcreated uri with hsame | ⟨-, schema, hnew⟩
  · exact h uri v (hsame ▸ hv)
  · rw [hnew, List.mem_singleton] at hv
    subst hv
    simp [Agrees]

end StoreAgrees

/-- The version declares some columns, and all its files have them. -/
structure Shaped (kernel : StructType P) (v : Version P) : Prop where
  schema : v.schema.SameColumns kernel
  files : ∀ f ∈ v.files, Fits kernel f

theorem Shaped.agrees {kernel : StructType P} {v : Version P} (h : Shaped kernel v) : Agrees v :=
  fun f hf => (h.files f hf).congr h.schema

theorem Agrees.shaped {kernel : StructType P} {v : Version P} (h : Agrees v)
    (hschema : v.schema.SameColumns kernel) : Shaped kernel v :=
  ⟨hschema, fun f hf => (h f hf).congr hschema.symm⟩

/-- Files that fit are added. -/
theorem Shaped.add {kernel : StructType P} {v : Version P} (h : Shaped kernel v)
    {actions : List (Action P)} (hadds : OnlyAdds actions)
    (hfits : ∀ f, .add f ∈ actions → Fits kernel f) : Shaped kernel (v.apply actions) := by
  rw [hadds.apply]
  refine ⟨h.schema, fun f hf => ?_⟩
  rcases List.mem_append.mp hf with hf | hf
  · exact h.files f hf
  · exact hfits f (mem_added.mp hf)

theorem Replaces.shaped {v : Version P} {kernel kernel' : StructType P}
    {staged actions : List (Action P)} (h : Replaces v kernel staged actions)
    (hsame : kernel'.SameColumns kernel) (hfits : ∀ f, .add f ∈ staged → Fits kernel' f) :
    ∀ w, w = v ∨ Shaped kernel' w → Shaped kernel' (w.apply actions) := by
  have hadded : ∀ f ∈ added actions, Fits kernel' f := by
    intro f hf
    rw [h.adds] at hf
    exact hfits f (mem_added.mp hf)
  rintro w (rfl | hw)
  · obtain ⟨hfiles, hschema⟩ := h.apply_self
    refine ⟨hschema.trans hsame.symm, fun f hf => ?_⟩
    rw [hfiles, ← h.adds] at hf
    exact hadded f hf
  · refine ⟨?_, fun f hf => ?_⟩
    · rcases h.declares with ⟨hdeclared, -⟩ | hdeclared
      · simpa [Version.apply, hdeclared] using hw.schema
      · simpa [Version.apply, hdeclared] using hsame.symm
    · rcases List.mem_append.mp hf with hf | hf
      · exact hw.files f (List.mem_of_mem_filter hf)
      · exact hadded f hf

/-! ### Phase two -/

/-- The schemas of targets, before any of them is committed, meet with what the
mode asks of them. -/
def SchemasMeet (cfg : LoadConfig) (σ : Store P) (targets : List (CommitTarget P)) : Prop :=
  match cfg.mode with
  | .append => True
  | .errorIfExists => ∀ t ∈ targets, ∀ v kernel, (σ t.table.uri).getLast? = some v →
      tryIntoKernel P t.schema = .ok kernel → v.schema.SameColumns kernel
  | .overwrite => ∀ t ∈ targets, ∀ t' ∈ targets, t.qualified = t'.qualified →
      ∀ kernel kernel', tryIntoKernel P t.schema = .ok kernel →
        tryIntoKernel P t'.schema = .ok kernel' → kernel.SameColumns kernel'

theorem Provided.fits {L : Load} {σ₁ : Store P} {trace : Trace} {targets : List (CommitTarget P)}
    {parts : List (List (Action P))} (h : Provided L σ₁ trace targets parts)
    {t : CommitTarget P} (ht : t ∈ targets) {kernel : StructType P}
    (hsame : ∀ t' ∈ targets, t'.qualified = t.qualified → ∀ kernel',
      tryIntoKernel P t'.schema = .ok kernel' → kernel.SameColumns kernel')
    {f : File} (hf : .add f ∈ t.actions) : Fits kernel f := by
  obtain ⟨t', ht', hname, f', hadd, hschema, -⟩ := h.action ht hf
  obtain rfl : f = f' := by simpa using hadd
  obtain ⟨v, kernel', hopened⟩ := h.opened t' ht'
  refine ⟨kernel', ?_, hsame t' ht' hname kernel' hopened.converts⟩
  rw [hschema]
  exact hopened.converts

/-- Every target under a name has the columns that its table is left with. -/
theorem Provided.columns {L : Load} {σ₁ : Store P} {trace : Trace}
    {targets : List (CommitTarget P)} {parts : List (List (Action P))}
    (h : Provided L σ₁ trace targets parts) (hmeet : SchemasMeet L.cfg σ₁ targets)
    {t : CommitTarget P} (ht : t ∈ targets) {v : Version P} {kernel : StructType P}
    (hopened : Opened L.cfg σ₁ t v kernel) :
    (L.cfg.mode ≠ .overwrite → v.schema.SameColumns kernel) ∧
      ∀ t' ∈ targets, t'.qualified = t.qualified → ∀ kernel',
        tryIntoKernel P t'.schema = .ok kernel' → kernel.SameColumns kernel' := by
  have hfound : L.cfg.mode ≠ .overwrite → ∀ t' ∈ targets, t'.table.uri = t.table.uri → ∀ kernel',
      tryIntoKernel P t'.schema = .ok kernel' → v.schema.SameColumns kernel' := by
    intro hmode t' ht' huri kernel' hkernel'
    obtain ⟨v', kernel'', hopened'⟩ := h.opened t' ht'
    obtain rfl : v = v' := by
      have hcurrent := hopened'.current
      rw [huri, hopened.current] at hcurrent
      exact Option.some.inj hcurrent
    obtain rfl : kernel' = kernel'' :=
      Except.ok.inj (hkernel'.symm.trans hopened'.converts)
    unfold SchemasMeet at hmeet
    cases hcfg : L.cfg.mode with
    | overwrite => exact absurd hcfg hmode
    | append =>
      have hdrift := hopened'.append hcfg
      rwa [hopened'.drift, diffSchema_isEmpty_iff] at hdrift
    | errorIfExists =>
      rw [hcfg] at hmeet
      exact hmeet t' ht' v kernel' hopened'.current hkernel'
  refine ⟨fun hmode => hfound hmode t ht rfl kernel hopened.converts, ?_⟩
  intro t' ht' hname kernel' hkernel'
  by_cases hmode : L.cfg.mode = .overwrite
  · unfold SchemasMeet at hmeet
    rw [hmode] at hmeet
    exact hmeet t ht t' ht' hname.symm kernel kernel' hopened.converts hkernel'
  · have huri := (h.uri_iff ht' ht).mpr hname
    exact (hfound hmode t ht rfl kernel hopened.converts).symm.trans
      (hfound hmode t' ht' huri kernel' hkernel')

theorem Serial.agrees {L : Load} {σ₁ σ : Store P} {trace : Trace}
    {targets : List (CommitTarget P)} {parts : List (List (Action P))} {b : Burst P}
    {attempts : List Attempt} {log : CommitLog P} {settled : List (CommitResult P)}
    (h : Serial L.cfg σ₁ targets σ b attempts log settled)
    (hprovided : Provided L σ₁ trace targets parts) (hmeet : SchemasMeet L.cfg σ₁ targets)
    (hagrees : StoreAgrees σ₁) : StoreAgrees σ := by
  intro uri w hw
  rw [h.store, CommitLog.on] at hw
  cases hlast : (σ₁ uri).getLast? with
  | none =>
    rw [replay_of_nil (List.getLast?_eq_none_iff.mp hlast)] at hw
    cases hw
  | some v =>
    rw [replay_apply hlast, List.mem_append] at hw
    rcases hw with hw | hw
    · exact hagrees uri w hw
    · have hcommit : ∀ actions ∈ editsOf log.edits uri, ∃ t ∈ targets, t.table.uri = uri ∧
          Prepares L.cfg t actions := by
        intro actions hactions
        obtain ⟨e, he, heq⟩ := List.mem_map.mp (mem_editsOf.mp hactions)
        obtain ⟨huri, rfl⟩ := Prod.mk.inj heq
        exact ⟨e.1, h.mem_targets he, huri, h.prepared e he⟩
      cases hedits : editsOf log.edits uri with
      | nil => simp [hedits] at hw
      | cons first rest =>
        -- the columns of one target at the location are those of all
        obtain ⟨t, ht, rfl, -⟩ := hcommit first (by simp [hedits])
        obtain ⟨v', kernel, hopened⟩ := hprovided.opened t ht
        obtain rfl : v = v' := Option.some.inj (hlast.symm.trans hopened.current)
        obtain ⟨hschema, hsame⟩ := hprovided.columns hmeet ht hopened
        have hshaped : ∀ w ∈ chain Version.apply v (editsOf log.edits t.table.uri),
            Shaped kernel w := by
          apply forall_mem_chain
          intro w hw actions hactions
          obtain ⟨t', ht', huri, hprepares⟩ := hcommit actions hactions
          have hname := (hprovided.uri_iff ht' ht).mp huri
          obtain ⟨v', kernel', hopened'⟩ := hprovided.opened t' ht'
          obtain rfl : v = v' := by
            have hcurrent := hopened'.current
            rw [huri, hlast] at hcurrent
            exact Option.some.inj hcurrent
          have hcolumns := hsame t' ht' hname kernel' hopened'.converts
          have hfits : ∀ f, .add f ∈ t'.actions → Fits kernel f := by
            intro f hf
            refine hprovided.fits ht' (fun t'' ht'' hname' => ?_) hf
            exact hsame t'' ht'' (hname'.trans hname)
          have hadds := hprovided.onlyAdds ht'
          rcases hopened'.prepares hadds hprepares with ⟨hmode, rfl⟩ | ⟨-, hreplaces⟩
          · have hshaped : Shaped kernel w := by
              rcases hw with rfl | hw
              · exact (hagrees t.table.uri w (List.mem_of_getLast? hlast)).shaped (hschema hmode)
              · exact hw
            exact hshaped.add hadds hfits
          · exact hreplaces.shaped hcolumns hfits w hw
        exact (hshaped w hw).agrees

/-! ### The load history -/

/-- A call of `finish_open` creates an empty table at most. -/
theorem StoreAgrees.finishOpen {σ : Store P} (h : StoreAgrees σ) (preloaded : PreloadedTable P)
    (name : TableName) (schema : Schema) (mode : WriteMode) (faults : OpenFaults) :
    StoreAgrees (finishOpen P preloaded name schema mode σ faults).2 :=
  h.onlyCreated ((Store.OnlyCreated.refl σ).finishOpen preloaded name schema mode faults)

theorem StoreAgrees.append {σ : Store P} (h : StoreAgrees σ) (pre : String) (run : ℕ)
    (report : LoadReport) (faults : Manifest.HistoryFaults) :
    StoreAgrees (Manifest.append P pre run report σ faults).2 := by
  have hopenSink : StoreAgrees (Manifest.openSink P pre run σ faults).2 := by
    rcases Manifest.openSink_store P pre run σ faults with hsame | ⟨preloaded, -, hopen⟩
    · rwa [hsame]
    · rw [hopen]
      exact h.finishOpen _ _ _ _ _
  rcases Manifest.append_cases P pre run report σ faults with ⟨-, hsame | hopen⟩ |
    ⟨batch, opened, writer, staged, newSchema, -, hopen, hstaged, hstore, -⟩
  · rwa [hsame]
  · rwa [hopen]
  · rw [hstore, (commitTable_append ..).1]
    obtain ⟨⟨preloaded, hpreloaded, hfinish⟩, hwriter⟩ := Manifest.openSink_ok hopen
    have hanswers : Answers { outputUri := pre, mode := .append } σ
        Manifest.manifestTable.qualified preloaded := preloadTable_answers hpreloaded
    obtain ⟨-, huri, -, v, kernel, -, hlast, hkernel, hdrift, hempty, -⟩ :=
      finishOpen_opened hanswers hfinish
    rw [hdrift, diffSchema_isEmpty_iff] at hempty
    obtain ⟨hadds, -⟩ := Manifest.stageBatch_ok (by rw [hwriter]) hstaged
    rcases commit_cases (Manifest.openSink P pre run σ faults).2 opened.table.uri staged
      faults.commit.commit with ⟨hsame, -⟩ | ⟨latest, hlatest, -, hpush, -⟩
    · rwa [hsame]
    · rw [hpush]
      obtain rfl : v = latest := by
        rw [huri, hlast] at hlatest
        exact Option.some.inj hlatest
      apply hopenSink.push
      have hv : Agrees v := hopenSink _ v (List.mem_of_getLast? hlast)
      have honly : OnlyAdds staged := by
        intro a ha
        obtain ⟨f, hf, -⟩ := hadds a ha
        exact ⟨f, hf⟩
      refine ((hv.shaped (hempty rfl)).add honly fun f hf => ?_).agrees
      obtain ⟨f', heq, hschema⟩ := hadds _ hf
      obtain rfl : f = f' := by simpa using heq
      refine ⟨kernel, ?_, .refl kernel⟩
      rw [hschema, hwriter]
      exact hkernel

/-! ### Runs over one prefix -/

namespace System

variable {L : Load} {s t : System P n}

/-- Where the next step of the reader may begin phase two, the schemas meet. -/
def Meets (L : Load) (s : System P n) : Label n → Prop
  | .reader _ => s.point = .reading → s.reader.chunks = [] → SchemasMeet L.cfg s.store s.targets
  | .worker _ _ => True

/-- What holds along a load whose schemas meet. -/
structure Agreeing [NeZero n] (L : Load) (σ : Store P) (s : System P n) : Prop where
  reachable : Reachable L σ s
  agrees : StoreAgrees s.store
  begun : s.pastPhaseOne = true →
    ∃ s₁, PhaseTwo L σ s₁ s ∧ SchemasMeet L.cfg s₁.store s₁.targets

theorem Agreeing.burst [NeZero n] {σ : Store P} (h : Agreeing L σ s) (hσ : StoreAgrees σ)
    {a : Label n} (hstep : step L s a = some t) {dumpedBy : ℕ} {b b' : Burst P}
    (hp : s.point = .committing dumpedBy b) (hp' : t.point = .committing dumpedBy b') :
    StoreAgrees t.store := by
  obtain ⟨s₁, hbegun, hmeet⟩ := h.begun (by simp [pastPhaseOne, hp])
  have hphase := hbegun.next hstep
  obtain ⟨parts, hprovided⟩ := hphase.provided
  have hpoint := hphase.inPhaseTwo.2
  rw [hp'] at hpoint
  obtain ⟨log, settled, hserial⟩ := hpoint
  exact hserial.agrees hprovided hmeet (hσ.onlyCreated (hphase.reachable.onlyCreated hphase.isLate))

theorem Agreeing.move [NeZero n] {σ : Store P} (h : Agreeing L σ s) (hσ : StoreAgrees σ)
    {a : Label n} (hmeets : s.Meets L a) (hstep : step L s a = some t) : Agreeing L σ t := by
  have hmove := step_move hstep
  have hevent : ∀ (event : Event) (o : Outside),
      StoreAgrees (s.reader.onEvent (n := n) L.cfg s.store event o).2 := by
    intro event o
    rcases s.reader.onEvent_store (n := n) L.cfg s.store event o with
      hsame | ⟨preloaded, table, schema, hopen⟩
    · rw [hsame]
      exact h.agrees
    · rw [hopen]
      exact h.agrees.finishOpen _ _ _ _ _
  refine ⟨h.reachable.next hstep, ?_, ?_⟩
  · cases hmove with
    | event o event events hp reaction σ' happens =>
      rw [dispatching_store]
      simpa [happens] using hevent event o
    | stopEvent o event events hp e σ' happens => simpa [happens] using hevent event o
    | send o i job rest after events hp halive hroom =>
      rw [dispatching_store]
      exact h.agrees
    | burst o dumpedBy b hp hover b' σ' attempts hburst => exact h.burst hσ hstep hp rfl
    | recorded o report hp loadId σ' hrecorded =>
      simpa [hrecorded] using h.agrees.append L.cfg.outputUri L.run report o.history
    | stopRecord o report hp e σ' hrecord =>
      simpa [hrecord] using h.agrees.append L.cfg.outputUri L.run report o.history
    | _ => exact h.agrees
  · intro hpast
    rcases hmove.enters hpast with hs | ⟨hreading, o, rfl⟩
    · obtain ⟨s₁, hbegun, hmeet⟩ := h.begun hs
      exact ⟨s₁, hbegun.next hstep, hmeet⟩
    · have hphase : PhaseTwo L σ s t := ⟨h.reachable, hreading, o, t, [], hstep, hpast, rfl⟩
      obtain ⟨dumpedBy, -, hchunks, -⟩ := begins_of_pastPhaseOne hreading hstep hpast
      exact ⟨s, hphase, hmeets hreading hchunks⟩

/-- Loads over one prefix, one after another: each begins with the storage that
the one before it has left behind, wherever that one came to. -/
inductive Loads (cond : ∀ (P : Platform) (n : ℕ), Load → System P n → Label n → Prop)
    (outputUri : String) : Store P → Store P → Prop
  | none (σ : Store P) : Loads cond outputUri σ σ
  | next {σ σ' : Store P} (before : Loads cond outputUri σ σ') (L : Load)
      (huri : L.cfg.outputUri = outputUri) (n : ℕ) [NeZero n] (faults : StartFaults)
      (labels : List (Label n)) (s : System P n)
      (hrun : runFrom (step L) (start L σ' faults) labels = some s)
      (hcond : Along (step L) (cond P n L) (start L σ' faults) labels) :
      Loads cond outputUri σ s.store

theorem Loads.agrees {outputUri : String} {σ σ' : Store P}
    (h : Loads (fun _ _ => Meets) outputUri σ σ') (hσ : StoreAgrees σ) : StoreAgrees σ' := by
  induction h with
  | none => exact hσ
  | @next σ₁ before L huri n _ faults labels s hrun hcond ih =>
    have hstart : Agreeing L σ₁ (start L σ₁ faults : System P n) := by
      refine ⟨⟨faults, [], rfl⟩, ih, fun hpast => ?_⟩
      unfold start pastPhaseOne at hpast
      cases hfault : startError L faults <;> simp [hfault] at hpast
    have hkeep : ∀ (s : System P n) a t, Agreeing L σ₁ s → s.Meets L a → step L s a = some t →
        Agreeing L σ₁ t := fun s a t hs hmeets hstep => hs.move ih hmeets hstep
    exact (runFrom_invariant_along hkeep hstart hcond hrun).agrees

/-- Every version that loads leave beneath a prefix declares the columns with
which its files were written, as long as phase two finds the schemas of its
targets to meet. -/
theorem loads_agree {outputUri : String} {σ : Store P}
    (h : Loads (fun _ _ => Meets) outputUri (fun _ => []) σ) : StoreAgrees σ := by
  apply h.agrees
  intro uri v hv
  cases hv

/-! ### Checked loads -/

def hasOneTarget (s : System P n) (_ : Label n) : Bool := decide (s.targets.length ≤ 1)

theorem meets_of_hasOneTarget (hmode : L.cfg.mode = .overwrite) (s : System P n) (a : Label n)
    (h : s.hasOneTarget a = true) : s.Meets L a := by
  cases a with
  | worker i faults => trivial
  | reader o =>
    intro _ _
    unfold SchemasMeet
    rw [hmode]
    intro t₁ ht₁ t₂ ht₂ _ kernel kernel' hkernel hkernel'
    obtain rfl : t₁ = t₂ := by
      have hone := of_decide_eq_true h
      obtain ⟨i, hi, rfl⟩ := List.getElem_of_mem ht₁
      obtain ⟨j, hj, rfl⟩ := List.getElem_of_mem ht₂
      congr
      omega
    obtain rfl : kernel = kernel' := Except.ok.inj (hkernel.symm.trans hkernel')
    exact .refl kernel

/-- A file lacks a column that is declared. -/
def misdeclared (v : Version P) : Bool :=
  v.files.any fun f => (tryIntoKernel P f.schema).toOption.any fun kernel =>
    v.schema.fields.any fun c => decide (c ∉ kernel.fields)

theorem not_agrees_of_misdeclared {v : Version P} (h : misdeclared v = true) : ¬ Agrees v := by
  intro hagrees
  obtain ⟨f, hf, hany⟩ := List.any_eq_true.mp h
  obtain ⟨kernel, hkernel, hsame⟩ := hagrees f hf
  rw [hkernel] at hany
  obtain ⟨c, hc, hlacks⟩ := List.any_eq_true.mp hany
  exact (of_decide_eq_true hlacks) ((hsame c).mp hc)

/-- A dump that ends inside its only block, of two columns. -/
def cut : Load where
  cfg := { outputUri := "out", writeManifest := false }
  input :=
    { chunks :=
        [⟨unlines newline [ascii "-- Dumped by pg_dump version 17.2", ascii "CREATE TABLE t (",
            ascii "    a integer,", ascii "    b integer", ascii ");",
            ascii "COPY t (a, b) FROM stdin;"], 0⟩] }

/-- The table has lost a column since. -/
def narrower (mode : WriteMode) : Load where
  cfg := { outputUri := "out", mode := mode, writeManifest := false }
  input := single.input

/-- The dump ends, and the table that was created is left behind. -/
def cutOff : List (Label 1) := List.replicate 7 (.reader {})

def loadedThrough : List (Label 1) := blockClosed ++ List.replicate 6 (.reader {})

/-- Overwriting declares the one column. -/
theorem loads_agree_narrower :
    ∃ σ : Store .plain, Loads (fun _ _ => Meets) "out" (fun _ => []) σ ∧
      (σ "out/t").map (fun v => v.schema.fields.map Prod.fst) = [["a", "b"], ["a"]] ∧
      StoreAgrees σ := by
  have hrun : ((runFrom (step cut) (start cut (fun _ => []) {} : System .plain 1) cutOff).any
    fun s₁ =>
      (runFrom (step (narrower .overwrite))
          (start (narrower .overwrite) s₁.store {} : System .plain 1)
        loadedThrough).any fun s₂ => decide ((s₂.store "out/t").map
          (fun v => v.schema.fields.map Prod.fst) = [["a", "b"], ["a"]]) &&
            checkedAlong (step (narrower .overwrite)) hasOneTarget
              (start (narrower .overwrite) s₁.store {} : System .plain 1) loadedThrough)
                = true := by
    decide +kernel
  obtain ⟨s₁, hs₁, hany⟩ := (Option.any_eq_true _ _).mp hrun
  obtain ⟨s₂, hs₂, hcheck⟩ := (Option.any_eq_true _ _).mp hany
  simp only [Bool.and_eq_true, decide_eq_true_eq] at hcheck
  obtain ⟨hschemas, hsingle⟩ := hcheck
  have hfirst : Loads (fun _ _ => Meets) "out" (fun _ => []) s₁.store :=
    .next (.none _) cut rfl 1 {} cutOff s₁ hs₁ (along_of_checkedAlong (meets_of_hasOneTarget rfl)
      (by decide +kernel))
  have hboth := hfirst.next (narrower .overwrite) rfl 1 {} loadedThrough s₂ hs₂
    (along_of_checkedAlong (meets_of_hasOneTarget rfl) hsingle)
  exact ⟨s₂.store, hboth, hschemas, loads_agree hboth⟩

/-- In `ErrorIfExists` mode the empty table is taken as it is, and a file of one
column is committed beneath two declared ones. -/
theorem loads_agree_counterexample :
    ∃ σ : Store .plain, Loads (fun _ _ _ _ _ => True) "out" (fun _ => []) σ ∧ ¬ StoreAgrees σ := by
  have hrun : ((runFrom (step cut) (start cut (fun _ => []) {} : System .plain 1) cutOff).any
    fun s₁ =>
      (runFrom (step (narrower .errorIfExists))
        (start (narrower .errorIfExists) s₁.store {} : System .plain 1) loadedThrough).any fun s₂ =>
          (s₂.store "out/t").any misdeclared) = true := by
    decide +kernel
  obtain ⟨s₁, hs₁, hany⟩ := (Option.any_eq_true _ _).mp hrun
  obtain ⟨s₂, hs₂, hcheck⟩ := (Option.any_eq_true _ _).mp hany
  obtain ⟨v, hv, hmisdeclared⟩ := List.any_eq_true.mp hcheck
  have hfirst : Loads (fun _ _ _ _ _ => True) "out" (fun _ => []) s₁.store :=
    .next (.none _) cut rfl 1 {} cutOff s₁ hs₁ (along_of_take fun _ _ _ _ => trivial)
  have hboth := hfirst.next (narrower .errorIfExists) rfl 1 {} loadedThrough s₂ hs₂
    (along_of_take fun _ _ _ _ => trivial)
  exact ⟨s₂.store, hboth, fun hagrees => not_agrees_of_misdeclared hmisdeclared
    (hagrees "out/t" v hv)⟩

end System

end PgDelta.Pipeline
