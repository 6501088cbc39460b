import PgDelta.Manifest.Reserved
import PgDelta.Pipeline.Serial
import PgDelta.Sink.Drift

/-!
Where the tables of a load lie, and what the load knows of them.

Until phase two, the answer of a preload and the table of an opened target hold
the version that storage shows at their location. A location belongs to one
name, so that opening one table leaves the answers for the others as they are.
-/

namespace PgDelta.Pipeline

open PgDelta.Lib PgDelta.Builders PgDelta.Types PgDelta.Scan PgDelta.Sink

variable {P : Platform} {n : ℕ}

/-! ### Locations -/

/-- The tables of a name lie at a location. -/
def Placed (P : Platform) (cfg : LoadConfig) (qualified uri : String) : Prop :=
  ∃ name : TableName, name.qualified = qualified ∧ tableUri P cfg.outputUri name = .ok uri

theorem relativePath_of_tableUri {pre uri : String} {name : TableName}
    (h : tableUri P pre name = .ok uri) :
    ∃ rel, relativePath P name = .ok rel ∧
      uri = String.ofList (pre.toList.rdropWhile (· = '/')) ++ "/" ++ rel := by
  unfold tableUri at h
  cases hrel : relativePath P name with
  | error e => simp [hrel] at h
  | ok rel =>
    simp only [hrel, Except.ok.injEq] at h
    exact ⟨rel, rfl, h.symm⟩

/-- Neither two paths nor two names of accepted tables are the same. -/
theorem relativePath_inj {name name' : TableName} {rel rel' : String}
    (h : relativePath P name = .ok rel) (h' : relativePath P name' = .ok rel') :
    (rel = rel' → name = name') ∧ (name.qualified = name'.qualified → name = name') := by
  refine ⟨fun hrel => ?_, fun hname => ?_⟩
  · apply eq_of_intercalate h h' (fun part hpart hmem => (hpart.chars _ hmem).1 rfl)
    rw [← (relativePath_spec h).1, ← (relativePath_spec h').1, hrel]
  · apply eq_of_intercalate h h' (fun part hpart hmem => (hpart.chars _ hmem).2.2.1 rfl)
    rw [← toList_qualified, ← toList_qualified, hname]

/-- Each name has one location, and each location one name. -/
theorem Placed.uri_iff {cfg : LoadConfig} {q q' uri uri' : String} (h : Placed P cfg q uri)
    (h' : Placed P cfg q' uri') : uri = uri' ↔ q = q' := by
  obtain ⟨name, rfl, hname⟩ := h
  obtain ⟨name', rfl, hname'⟩ := h'
  obtain ⟨rel, hrel, rfl⟩ := relativePath_of_tableUri hname
  obtain ⟨rel', hrel', rfl⟩ := relativePath_of_tableUri hname'
  obtain ⟨hpath, hqualified⟩ := relativePath_inj hrel hrel'
  constructor
  · intro huri
    rw [hpath ((String.append_right_inj _).mp huri)]
  · intro hq
    obtain rfl := hqualified hq
    rw [hrel] at hrel'
    rw [Except.ok.inj hrel']

/-! ### What is known of a table -/

/-- A preload's answer under a name. -/
structure Answers (cfg : LoadConfig) (σ : Store P) (qualified : String) (p : PreloadedTable P) :
    Prop where
  placed : Placed P cfg qualified p.uri
  uri : p.table.uri = p.uri
  existing : p.existingSchema = p.table.snapshot.map Version.schema
  current : ∀ v, p.table.snapshot = some v → (σ p.uri).getLast? = some v

/-- An opened table that awaits its commit. -/
structure Opened (cfg : LoadConfig) (σ : Store P) (t : CommitTarget P) (v : Version P)
    (kernel : StructType P) : Prop where
  placed : Placed P cfg t.qualified t.table.uri
  wanted : ∃ name : TableName, name.qualified = t.qualified ∧ cfg.wanted name = true ∧
    (cfg.writeManifest && Manifest.reservedCollision name) = false
  snapshot : t.table.snapshot = some v
  current : (σ t.table.uri).getLast? = some v
  converts : tryIntoKernel P t.schema = .ok kernel
  drift : t.drift = diffSchema v.schema kernel
  /-- Appending is refused where the schema has moved. -/
  append : cfg.mode = .append → t.drift.isEmpty = true
  empty : cfg.mode = .errorIfExists → v.files = []

theorem Answers.congr {cfg : LoadConfig} {σ σ' : Store P} {q : String} {p : PreloadedTable P}
    (h : Answers cfg σ q p) (hsame : σ' p.uri = σ p.uri) : Answers cfg σ' q p :=
  ⟨h.placed, h.uri, h.existing, by rw [hsame]; exact h.current⟩

theorem Opened.congr {cfg : LoadConfig} {σ σ' : Store P} {t : CommitTarget P} {v : Version P}
    {kernel : StructType P} (h : Opened cfg σ t v kernel)
    (hsame : σ' t.table.uri = σ t.table.uri) : Opened cfg σ' t v kernel :=
  ⟨h.placed, h.wanted, h.snapshot, by rw [hsame]; exact h.current, h.converts, h.drift, h.append,
    h.empty⟩

theorem preloadTable_answers {cfg : LoadConfig} {name : TableName} {σ : Store P}
    {faults : PreloadFaults} {p : PreloadedTable P}
    (h : preloadTable P cfg.outputUri name σ faults = .ok p) :
    Answers cfg σ name.qualified p := by
  unfold preloadTable at h
  split at h
  next => cases h
  next uri huri =>
    split at h
    next => cases h
    next =>
      split at h
      next =>
        obtain rfl := Except.ok.inj h
        exact ⟨⟨name, rfl, huri⟩, rfl, rfl, by simp⟩
      next v hv =>
        split at h
        next => cases h
        next =>
          obtain rfl := Except.ok.inj h
          refine ⟨⟨name, rfl, huri⟩, rfl, rfl, ?_⟩
          intro w hw
          obtain rfl := Option.some.inj hw
          split at hv
          next => cases hv
          next => exact hv

theorem finishOpen_opened {cfg : LoadConfig} {σ σ' : Store P} {q : String} {p : PreloadedTable P}
    {name : TableName} {schema : Schema} {faults : OpenFaults} {opened : OpenedTable P}
    (hp : Answers cfg σ q p)
    (h : finishOpen P p name schema cfg.mode σ faults = (.ok opened, σ')) :
    opened.uri = p.uri ∧ opened.table.uri = p.uri ∧
      (σ' = σ ∨ σ p.uri = [] ∧ ∃ v, σ' = σ.push p.uri v) ∧
      ∃ v kernel, opened.table.snapshot = some v ∧ (σ' p.uri).getLast? = some v ∧
        tryIntoKernel P schema = .ok kernel ∧ opened.drift = diffSchema v.schema kernel ∧
        (cfg.mode = .append → opened.drift.isEmpty = true) ∧
        (cfg.mode = .errorIfExists → v.files = []) := by
  unfold finishOpen at h
  split at h
  next hexisting =>
    split at h
    next => simp at h
    next kernel hkernel =>
      split at h
      next => simp at h
      next table σ'' hcreate =>
        simp only [Prod.mk.injEq, Except.ok.injEq] at h
        obtain ⟨rfl, rfl⟩ := h
        rcases create_cases σ p.uri kernel faults.create with ⟨-, e, herror⟩ | ⟨hnone, hpush, hok⟩
        · rw [hcreate] at herror
          cases herror
        · rw [hcreate] at hpush hok
          obtain rfl := hok table rfl
          refine ⟨rfl, rfl, .inr ⟨hnone, _, hpush⟩, ⟨kernel, []⟩, kernel, rfl, ?_, hkernel, ?_, ?_,
            fun _ => rfl⟩
          · rw [show σ'' = _ from hpush, Store.push_self]
            simp
          · exact (diffSchema_self kernel).symm
          · exact fun _ => rfl
  next current hexisting =>
    have hsnapshot : ∃ v, p.table.snapshot = some v ∧ current = v.schema := by
      have hmap := hp.existing
      rw [hexisting] at hmap
      obtain ⟨v, hv, hschema⟩ := Option.map_eq_some_iff.mp hmap.symm
      exact ⟨v, hv, hschema.symm⟩
    obtain ⟨v, hv, rfl⟩ := hsnapshot
    split at h
    next => simp at h
    next =>
      split at h
      next => simp at h
      next hmode =>
        split at h
        next => simp at h
        next kernel hkernel =>
          dsimp only at h
          split at h
          next => simp at h
          next hdrift =>
            simp only [Prod.mk.injEq, Except.ok.injEq] at h
            obtain ⟨rfl, rfl⟩ := h
            refine ⟨rfl, hp.uri, .inl rfl, v, kernel, hv, hp.current v hv, hkernel, rfl, ?_, ?_⟩
            · intro happend
              simpa [happend] using hdrift
            · intro hexists
              simpa [hexists, currentFiles, hv] using hmode

/-! ### Phase one -/

/-- The answers that the reader holds, and the targets it has opened. -/
structure Charted (cfg : LoadConfig) (r : Reader P) (σ : Store P) : Prop where
  answers : ∀ q p, r.preloads q = some (.ok p) → Answers cfg σ q p
  opened : ∀ t ∈ r.openTables, ∃ v kernel, Opened cfg σ t v kernel

theorem Charted.congr {cfg : LoadConfig} {r r' : Reader P} {σ : Store P} (h : Charted cfg r σ)
    (hpreloads : r'.preloads = r.preloads) (hopen : r'.openTables = r.openTables) :
    Charted cfg r' σ :=
  ⟨by rw [hpreloads]; exact h.answers, by rw [hopen]; exact h.opened⟩

theorem Charted.takePreload {cfg : LoadConfig} {r : Reader P} {σ : Store P}
    (h : Charted cfg r σ) {table : TableName} {o : Outside} {p : PreloadedTable P}
    (hp : r.takePreload cfg σ table o = .ok p) : Answers cfg σ table.qualified p := by
  unfold Reader.takePreload at hp
  split at hp
  next answer hanswer => exact h.answers _ _ (by rw [hanswer, hp])
  next => exact preloadTable_answers hp

/-- Every answer to an event leaves the rest as it was. -/
theorem Charted.reacts [NeZero n] {cfg : LoadConfig} {r : Reader P} {σ σ' : Store P} {o : Outside}
    {event : Event} {reaction : Reaction P n} (h : Charted cfg r σ)
    (hreacts : Reader.Reacts cfg σ r o event reaction σ') : Charted cfg reaction.reader σ' := by
  cases hreacts with
  | table definition =>
    refine ⟨?_, h.opened⟩
    intro q p hp
    simp only [Reader.onTable] at hp
    split at hp
    next =>
      by_cases hq : q = definition.name.qualified
      · subst hq
        rw [Function.update_self] at hp
        split at hp
        next => cases hp
        next => exact preloadTable_answers (Option.some.inj hp)
      · rw [Function.update_of_ne hq] at hp
        exact h.answers q p hp
    next => exact h.answers q p hp
  | opens table names hcurrent hwanted hreserved definition hdefinition columns hcolumns preloaded
      hpreloaded opened σ' hopened =>
    have hp := h.takePreload hpreloaded
    obtain ⟨huri, htable, hstore, v, kernel, hv, hlast, hkernel, hdrift, happend, hempty⟩ :=
      finishOpen_opened hp hopened
    -- the locations of the other names are as they were
    have hother : ∀ uri, uri ≠ preloaded.uri → σ' uri = σ uri := by
      intro uri hne
      rcases hstore with rfl | ⟨-, w, rfl⟩
      · rfl
      · exact Store.push_of_ne σ w hne
    refine ⟨?_, ?_⟩
    · intro q p hqp
      simp only [Reader.openBlock] at hqp
      by_cases hq : q = table.qualified
      · subst hq
        rw [Function.update_self] at hqp
        cases hqp
      · rw [Function.update_of_ne hq] at hqp
        have hanswer := h.answers q p hqp
        exact hanswer.congr (hother _ fun heq => hq ((hanswer.placed.uri_iff hp.placed).mp heq))
    · intro t ht
      simp only [Reader.openBlock, List.mem_append, List.mem_singleton] at ht
      rcases ht with ht | rfl
      · obtain ⟨w, k, hw⟩ := h.opened t ht
        refine ⟨w, k, hw.congr ?_⟩
        by_cases hsame : t.table.uri = preloaded.uri
        · -- a table that is open already is not made a second time
          rcases hstore with rfl | ⟨hnone, -⟩
          · rfl
          · have hcurrent := hw.current
            rw [hsame, hnone] at hcurrent
            cases hcurrent
        · exact hother _ hsame
      · refine ⟨v, kernel, ?_, ⟨table, rfl, hwanted, hreserved⟩, hv, ?_, hkernel, hdrift, happend,
          hempty⟩
        · rw [htable]
          exact hp.placed
        · rw [htable]
          exact hlast
  | version dumpedBy fromDatabase => exact h.congr rfl rfl
  | skips table columns hcurrent hwanted => exact h.congr rfl rfl
  | skipRows payload hskipping => exact h
  | rows payload hskipping block hcurrent => exact h.congr rfl rfl
  | skipEnd table hskipping => exact h.congr rfl rfl
  | ends table hskipping block hcurrent htable => exact h.congr rfl rfl

namespace System

variable {L : Load} {s t : System P n}

theorem Charted.dispatching {cfg : LoadConfig} (h : Charted cfg s.reader s.store)
    (sends : List (Fin n × Job)) (after : After) (events : List Event) :
    Charted cfg (s.dispatching sends after events).reader
      (s.dispatching sends after events).store := by
  cases sends with
  | cons send sends => exact h
  | nil => cases after <;> exact h.congr rfl rfl

theorem Charted.move [NeZero n] {a : Label n} (h : Charted L.cfg s.reader s.store)
    (hmove : Move L s a t) (hlate : t.isLate = false) : Charted L.cfg t.reader t.store := by
  cases hmove with
  | event o event events hp reaction σ hevent =>
    exact Charted.dispatching (s := { s with store := σ, reader := reaction.reader })
      (h.reacts (Reader.onEvent_reacts hevent)) _ _ _
  | send o i job rest after events hp halive hroom =>
    exact Charted.dispatching (s := { s.setWorker i { s.workers i with
      jobs := (s.workers i).jobs ++ [job] } with trace := recordDispatch s.trace job }) h _ _ _
  | read o hp chunk chunks hc scanner events hf => exact h.congr rfl rfl
  | next o hp => exact h
  | sendFailed o i job rest after events hp hdead => exact h
  | ack o block acks events hp c queue hq hmore => exact h
  | close o block acks events hp c queue hq hlast => exact h.congr rfl rfl
  | job i faults hrun job jobs hjobs handled hhandle => exact h
  | jobFailed i faults hrun job jobs hjobs e hhandle => exact h
  | sendAck i faults c hstatus hroom => exact h
  | sendFailure i faults e hstatus hroom => exact h
  | exit i faults hstatus => exact h
  | leave i faults hstatus hjobs hdone => exact h
  | _ => cases hlate

/-- Until phase two, a load knows the tables as they are. -/
theorem Reachable.charted [NeZero n] {σ : Store P} (h : Reachable L σ s)
    (hlate : s.isLate = false) :
    Charted L.cfg s.reader s.store := by
  obtain ⟨faults, labels, hrun⟩ := h
  have hkeep : ∀ (s : System P n) a t,
      (s.isLate = true ∨ Charted L.cfg s.reader s.store) → step L s a = some t →
      (t.isLate = true ∨ Charted L.cfg t.reader t.store) := by
    intro s a t hs hstep
    have hmove := step_move hstep
    cases hlate : t.isLate with
    | true => exact .inl rfl
    | false =>
      right
      refine Charted.move (hs.resolve_left fun hbefore => ?_) hmove hlate
      rw [hmove.stays hbefore] at hlate
      cases hlate
  have hstart : Charted L.cfg (start L σ faults : System P n).reader σ := by
    refine ⟨?_, ?_⟩
    · intro q p hp
      cases hp
    · intro t ht
      cases ht
  exact (runFrom_invariant hkeep (.inr hstart) hrun).resolve_left (by simp [hlate])

/-- A location at which no table has been opened is as it was. -/
def Unopened (σ : Store P) (r : Reader P) (σ' : Store P) : Prop :=
  ∀ uri, (∀ t ∈ r.openTables, t.table.uri ≠ uri) → σ' uri = σ uri

theorem Unopened.move [NeZero n] {σ : Store P} {a : Label n} (h : Unopened σ s.reader s.store)
    (hcharted : Charted L.cfg s.reader s.store) (hmove : Move L s a t) (hlate : t.isLate = false) :
    Unopened σ t.reader t.store := by
  have hdispatch : ∀ (s : System P n) (sends : List (Fin n × Job)) (after : After)
      (events : List Event), Unopened σ s.reader s.store →
        Unopened σ (s.dispatching sends after events).reader
          (s.dispatching sends after events).store := by
    intro s sends after events h
    cases sends with
    | cons send sends => exact h
    | nil => cases after <;> exact h
  cases hmove with
  | event o event events hp reaction σ' hevent =>
    apply hdispatch
    cases Reader.onEvent_reacts hevent with
    | opens table names hcurrent hwanted hreserved definition hdefinition columns hcolumns
        preloaded hpreloaded opened σ' hopened =>
      obtain ⟨-, huri, hstore, -⟩ :=
        finishOpen_opened (hcharted.takePreload hpreloaded) hopened
      intro uri hnone
      simp only [Reader.openBlock, List.mem_append, List.mem_singleton] at hnone
      have hbefore := h uri fun t ht => hnone t (.inl ht)
      rcases hstore with rfl | ⟨-, v, rfl⟩
      · exact hbefore
      · have hne := hnone _ (.inr rfl)
        rw [huri] at hne
        exact (Store.push_of_ne _ _ (Ne.symm hne)).trans hbefore
    | _ => exact h
  | send o i job rest after events hp halive hroom => exact hdispatch _ _ _ _ h
  | read o hp chunk chunks hc scanner events hf => exact h
  | next o hp => exact h
  | sendFailed o i job rest after events hp hdead => exact h
  | ack o block acks events hp c queue hq hmore => exact h
  | close o block acks events hp c queue hq hlast => exact h
  | job i faults hrun job jobs hjobs handled hhandle => exact h
  | jobFailed i faults hrun job jobs hjobs e hhandle => exact h
  | sendAck i faults c hstatus hroom => exact h
  | sendFailure i faults e hstatus hroom => exact h
  | exit i faults hstatus => exact h
  | leave i faults hstatus hjobs hdone => exact h
  | _ => cases hlate

/-- Until phase two, only the locations of opened tables have changed. -/
theorem Reachable.unopened [NeZero n] {σ : Store P} (h : Reachable L σ s)
    (hlate : s.isLate = false) : Unopened σ s.reader s.store := by
  obtain ⟨faults, labels, hrun⟩ := h
  have hkeep : ∀ (s : System P n) a t,
      Reachable L σ s ∧ (s.isLate = true ∨ Unopened σ s.reader s.store) → step L s a = some t →
      Reachable L σ t ∧ (t.isLate = true ∨ Unopened σ t.reader t.store) := by
    rintro s a t ⟨hreach, hs⟩ hstep
    have hmove := step_move hstep
    refine ⟨hreach.next hstep, ?_⟩
    cases hlate : t.isLate with
    | true => exact .inl rfl
    | false =>
      have hbefore : s.isLate = false := by
        by_contra hbefore
        rw [hmove.stays (by simpa using hbefore)] at hlate
        cases hlate
      right
      exact (hs.resolve_left (by simp [hbefore])).move (hreach.charted hbefore) hmove hlate
  exact ((runFrom_invariant hkeep ⟨⟨faults, [], rfl⟩, .inr fun _ _ => rfl⟩ hrun).2).resolve_left
    (by simp [hlate])

end System

end PgDelta.Pipeline
