import PgDelta.Pipeline.Causes
import PgDelta.Scan.Payload

/-!
The reader and the workers never meet an event out of place.

The reader answers rows outside a block, a block inside another one and an end
under another name with errors of their own, and a worker does the same for
rows of a block it does not know. No dump reaches these answers.
-/

namespace PgDelta.Pipeline

open PgDelta.Lib PgDelta.Builders PgDelta.Types PgDelta.Scan PgDelta.Sink PgDelta.Copy

variable {P : Platform} {n : ℕ}

/-- The reader's errors for an event that is out of place. -/
def isStructural : Error → Bool
  | .internal detail =>
    ["COPY block started while another was still open", "COPY rows arrived with no open block",
      "COPY block ended with none open",
      "COPY block ended under a different name than it began"].contains detail
  | _ => false

/-! ### The errors of opening a table -/

theorem relativePath_error {name : TableName} {e : Error} (h : relativePath P name = .error e) :
    isStructural e = false := by
  unfold relativePath at h
  simp only at h
  split at h
  · cases h
  · obtain rfl := Except.error.inj h
    rfl

theorem preloadTable_error {pre : String} {name : TableName} {σ : Store P}
    {faults : PreloadFaults} {e : Error} (h : preloadTable P pre name σ faults = .error e) :
    isStructural e = false := by
  unfold preloadTable tableUri at h
  split at h
  next e' huri =>
    obtain rfl := Except.error.inj h
    split at huri
    next e'' hpath =>
      obtain rfl := Except.error.inj huri
      exact relativePath_error hpath
    next => cases huri
  next =>
    split at h
    · obtain rfl := Except.error.inj h
      rfl
    · split at h
      · cases h
      · split at h
        · obtain rfl := Except.error.inj h
          rfl
        · cases h

theorem finishOpen_error {preloaded : PreloadedTable P} {name : TableName} {schema : Schema}
    {mode : WriteMode} {σ σ' : Store P} {faults : OpenFaults} {e : Error}
    (h : finishOpen P preloaded name schema mode σ faults = (.error e, σ')) :
    isStructural e = false := by
  have herror : (finishOpen P preloaded name schema mode σ faults).1 = .error e := by rw [h]
  clear h
  unfold finishOpen at herror
  split at herror
  · split at herror
    · obtain rfl := Except.error.inj herror
      rfl
    · split at herror
      · obtain rfl := Except.error.inj herror
        rfl
      · cases herror
  · split at herror
    · obtain rfl := Except.error.inj herror
      rfl
    · split at herror
      · obtain rfl := Except.error.inj herror
        rfl
      · split at herror
        · obtain rfl := Except.error.inj herror
          rfl
        · simp only at herror
          split at herror
          · obtain rfl := Except.error.inj herror
            rfl
          · cases herror

theorem resolveCopyColumns_error {definition : TableDef} {names : List String} {e : Error}
    (h : resolveCopyColumns definition names = .error e) : isStructural e = false := by
  induction names with
  | nil => cases h
  | cons name names ih =>
    rw [resolveCopyColumns] at h
    split at h
    next e' hcolumn =>
      obtain rfl := Except.error.inj h
      unfold resolveCopyColumn at hcolumn
      split at hcolumn
      · cases hcolumn
      · obtain rfl := Except.error.inj hcolumn
        rfl
    next rt hcolumn =>
      split at h
      next e' hrest =>
        obtain rfl := Except.error.inj h
        exact ih hrest
      next => cases h

/-! ### The reader's answer to an event -/

namespace Reader

variable {cfg : LoadConfig} {r : Reader P} {here here' : Option TableName}

/-- The preloads that failed did so for a reason of their own. -/
def Preloads (r : Reader P) : Prop :=
  ∀ name e, r.preloads name = some (.error e) → isStructural e = false

theorem Preloads.takePreload {σ : Store P} {table : TableName} {o : Outside} {e : Error}
    (h : r.Preloads) (herror : r.takePreload cfg σ table o = .error e) :
    isStructural e = false := by
  unfold Reader.takePreload at herror
  split at herror
  next answer hanswer => exact h _ _ (by rw [hanswer, herror])
  next => exact preloadTable_error herror

theorem Preloads.reacts [NeZero n] {σ σ' : Store P} {o : Outside} {event : Event}
    {reaction : Reaction P n} (h : r.Preloads) (hreacts : Reacts cfg σ r o event reaction σ') :
    reaction.reader.Preloads := by
  cases hreacts with
  | table definition =>
    intro name e he
    simp only [onTable] at he
    split at he
    next hwanted =>
      rcases eq_or_ne name definition.name.qualified with rfl | hname
      · rw [Function.update_self, Option.some.injEq] at he
        split at he
        · obtain rfl := Except.error.inj he
          rfl
        · exact preloadTable_error he
      · rw [Function.update_of_ne hname] at he
        exact h name e he
    next => exact h name e he
  | opens table names hcurrent hwanted hreserved definition hdefinition columns hcolumns preloaded
      hpreloaded opened σ' hopened =>
    intro name e he
    simp only [openBlock] at he
    rcases eq_or_ne name table.qualified with rfl | hname
    · simp at he
    · rw [Function.update_of_ne hname] at he
      exact h name e he
  | _ => exact h

theorem Preloads.openWanted {σ σ' : Store P} {table : TableName} {names : List String}
    {o : Outside} {e : Error} (h : r.Preloads)
    (herror : r.openWanted (n := n) cfg σ table names o = (.error e, σ')) :
    isStructural e = false := by
  unfold Reader.openWanted at herror
  split at herror
  · obtain rfl := Except.error.inj (Prod.mk.inj herror).1
    rfl
  · split at herror
    next e' hcolumns =>
      obtain rfl := Except.error.inj (Prod.mk.inj herror).1
      exact resolveCopyColumns_error hcolumns
    next =>
      split at herror
      next e' hpreload =>
        obtain rfl := Except.error.inj (Prod.mk.inj herror).1
        exact h.takePreload hpreload
      next =>
        split at herror
        next e' σ'' hopen =>
          obtain rfl := Except.error.inj (Prod.mk.inj herror).1
          exact finishOpen_error hopen
        next => cases (Prod.mk.inj herror).1

/-- A reader in step with the scanner finds an event that is in place in
place. -/
theorem Within.onEvent_error [NeZero n] {σ σ' : Store P} {o : Outside} {event : Event} {e : Error}
    (hwithin : r.Within cfg here) (hfollow : event.follow here = some here') (h : r.Preloads)
    (herror : r.onEvent (n := n) cfg σ event o = (.error e, σ')) : isStructural e = false := by
  cases event with
  | dumpVersion dumpedBy fromDatabase =>
    have herror := (Prod.mk.inj herror).1
    unfold onDumpVersion at herror
    split at herror
    · obtain rfl := Except.error.inj herror
      rfl
    · cases herror
  | table definition => cases (Prod.mk.inj herror).1
  | copyStart table names =>
    cases here with
    | some table' => simp [Event.follow] at hfollow
    | none =>
      simp only [onEvent, onCopyStart, hwithin.1, Option.isSome_none, Bool.false_eq_true,
        if_false] at herror
      split at herror
      · obtain rfl := Except.error.inj (Prod.mk.inj herror).1
        rfl
      · split at herror
        · have hpreloads : Preloads { r with
              seenTables := r.seenTables.insert table.qualified, current := none } := h
          exact hpreloads.openWanted herror
        · cases (Prod.mk.inj herror).1
  | copyRows payload =>
    have herror := (Prod.mk.inj herror).1
    cases here with
    | none => simp [Event.follow] at hfollow
    | some table =>
      rcases hwithin with ⟨hskipping, -⟩ | ⟨hskipping, -, block, hblock, -⟩
      · simp [onCopyRows, hskipping] at herror
      · simp [onCopyRows, hskipping, hblock] at herror
  | copyEnd name =>
    have herror := (Prod.mk.inj herror).1
    cases here with
    | none => simp [Event.follow] at hfollow
    | some table =>
      obtain ⟨rfl, -⟩ : table = name ∧ none = here' := by simpa [Event.follow] using hfollow
      rcases hwithin with ⟨hskipping, -⟩ | ⟨hskipping, -, block, hblock, htable⟩
      · simp [onCopyEnd, hskipping] at herror
      · simp [onCopyEnd, hskipping, hblock, htable] at herror

end Reader

/-! ### The whole load -/

namespace System

variable {L : Load} {s : System P n}

@[simp] theorem dispatching_preloads (s : System P n) (sends : List (Fin n × Job)) (after : After)
    (events : List Event) :
    (s.dispatching sends after events).reader.preloads = s.reader.preloads := by
  cases sends with
  | cons send sends => rfl
  | nil => cases after <;> rfl

theorem preloads_move [NeZero n] {t : System P n} {a : Label n} (h : s.reader.Preloads)
    (hmove : Move L s a t) : t.reader.Preloads := by
  cases hmove with
  | event o event events hp reaction σ hevent =>
    unfold Reader.Preloads
    rw [dispatching_preloads]
    exact h.reacts (Reader.onEvent_reacts hevent)
  | send o i job rest after events hp halive hroom =>
    unfold Reader.Preloads
    rw [dispatching_preloads]
    exact h
  | _ => exact h

theorem Reachable.preloads [NeZero n] {σ : Store P} (h : Reachable L σ s) : s.reader.Preloads := by
  obtain ⟨faults, labels, hrun⟩ := h
  have hkeep : ∀ (s : System P n) a t, s.reader.Preloads → step L s a = some t →
      t.reader.Preloads :=
    fun s a t h hstep => preloads_move h (step_move hstep)
  have hstart : (start L σ faults : System P n).reader.Preloads := by
    intro name e he
    cases he
  exact runFrom_invariant hkeep hstart hrun

/-- The scanner and the load never disagree on blocks: no event makes the
reader answer that it is out of place, a worker knows the block of the rows
that it takes next, and each payload is a run of whole lines inside one block. -/
theorem block_structure [NeZero n] {σ : Store P} (h : Reachable L σ s) :
    (∀ event events, s.point = .handling (event :: events) → ∀ o σ' e,
      s.reader.onEvent (n := n) L.cfg s.store event o = (.error e, σ') →
        isStructural e = false) ∧
    (∀ i generation bytes jobs, (s.workers i).status = .running →
      (s.workers i).jobs = .rows generation bytes :: jobs →
        ((s.workers i).state.ctxs generation).isSome = true) ∧
    ∀ chunks scanner before payload after,
      (Scanner.new.setExcludedSchemas (L.cfg.excludedSchemas.getD [])).feedAll chunks =
        .ok (scanner, before ++ .copyRows payload :: after) →
      (payload ≠ [] ∧ payload.getLast? = some newline ∧ remainder payload = []) ∧
      ∃ table, (∃ earlier columns rows, before = earlier ++ .copyStart table columns :: rows ∧
          ∀ e ∈ rows, e.isRows = true) ∧
        ((∃ rows later, after = rows ++ .copyEnd table :: later ∧
            ∀ e ∈ rows, e.isRows = true) ∨
          (∀ e ∈ after, e.isRows = true) ∧
            scanner.finish = .error (.unterminatedCopy table.qualified)) := by
  refine ⟨?_, ?_, ?_⟩
  · intro event events hp o σ' e herror
    have haligned := h.accounted.2.2
    simp only [hp] at haligned
    obtain ⟨here, hwithin, hfollows⟩ := haligned
    rw [follows_cons] at hfollows
    obtain ⟨here', hfollow, -⟩ := Option.bind_eq_some_iff.mp hfollows
    exact hwithin.onEvent_error hfollow h.preloads herror
  · intro i generation bytes jobs hrun hjobs
    exact (h.accounted.1.standing.sound i).context hrun hjobs
  · intro chunks scanner before payload after hfeed
    have hwhole := Scanner.feedAll_whole (by simp [Scanner.setExcludedSchemas, Scanner.new]) hfeed
    have hpayload : (Event.copyRows payload).Whole := hwhole _ (by simp)
    exact ⟨hpayload.payload, Scanner.feedAll_framed hfeed⟩

/-- The reader is about to hand the first row to a worker. -/
theorem block_structure_mismatched :
    ∃ s : System .plain 2, Reachable mismatched (fun _ => []) s ∧
      s.point = .handling [.copyRows (ascii "1\n")] ∧
      (∀ o σ' e, s.reader.onEvent (n := 2) mismatched.cfg s.store (.copyRows (ascii "1\n")) o =
        (.error e, σ') → isStructural e = false) ∧
      remainder (ascii "1\n") = [] := by
  have hrun : ((runFrom (step mismatched) (start mismatched (fun _ => []) {} : System .plain 2)
      (List.replicate 8 (.reader {}))).any fun s =>
        match s.point with
        | .handling events => events == [.copyRows (ascii "1\n")]
        | _ => false) = true := by decide +kernel
  obtain ⟨s, hs, hcheck⟩ := exists_reachable hrun
  have hp : s.point = .handling [.copyRows (ascii "1\n")] := by
    split at hcheck
    next events hevents => rw [hevents, eq_of_beq hcheck]
    next => cases hcheck
  have hfeed : (Scanner.new.setExcludedSchemas []).feedAll
      [ascii "COPY t (a) FROM stdin;\n1\n\\.\n"] =
        .ok (Scanner.new, [.copyStart ⟨none, "t"⟩ ["a"]] ++ .copyRows (ascii "1\n") ::
          [.copyEnd ⟨none, "t"⟩]) := by decide +kernel
  obtain ⟨hevent, -, hrows⟩ := block_structure hs
  exact ⟨s, hs, hp, hevent _ _ hp, (hrows _ _ _ _ _ hfeed).1.2.2⟩

/-- The stream of a dump that is cut off inside a block shows rows that no end
of a block follows. -/
theorem block_structure_counterexample :
    ¬ ∀ (chunks : List Bytes) (scanner : Scanner) (before after : List Event) (payload : Bytes),
      Scanner.new.feedAll chunks = .ok (scanner, before ++ .copyRows payload :: after) →
        ∃ table rows later, after = rows ++ .copyEnd table :: later := by
  intro hclaim
  have hfeed : Scanner.new.feedAll [ascii "COPY t (a) FROM stdin;\n1\n"] =
      .ok ({ Scanner.new with state := .copy, openTable := some ⟨none, "t"⟩ },
        [.copyStart ⟨none, "t"⟩ ["a"]] ++ .copyRows (ascii "1\n") :: []) := by decide +kernel
  obtain ⟨table, rows, later, hafter⟩ := hclaim _ _ _ _ _ hfeed
  simp at hafter

end System

end PgDelta.Pipeline
