import PgDelta.Pipeline.Staging

/-!
The targets of a load beside the blocks of its dump.

For each wanted block of what the reader has handled, in order, there is a
target under the name of its table, with the schema of its columns.
-/

namespace PgDelta.Pipeline

open PgDelta.Lib PgDelta.Builders PgDelta.Types PgDelta.Scan PgDelta.Sink

variable {P : Platform} {n : ℕ}

/-- What a block says of its table: the name, and the schema of its columns. -/
def DumpBlock.title (cfg : LoadConfig) (b : DumpBlock) : String × Schema :=
  (b.table.qualified, (b.ctx cfg).schema)

def CommitTarget.title (t : CommitTarget P) : String × Schema := (t.qualified, t.schema)

/-- The targets that the reader has opened are those of the blocks. -/
structure Titled (cfg : LoadConfig) (v : Script) (r : Reader P) : Prop where
  tableDefs : v.tableDefs = r.tableDefs
  titles : r.openTables.map CommitTarget.title = v.blocks.map (DumpBlock.title cfg)

theorem Titled.congr {cfg : LoadConfig} {v v' : Script} {r r' : Reader P} (h : Titled cfg v r)
    (htableDefs : r'.tableDefs = r.tableDefs) (hopen : r'.openTables = r.openTables)
    (hdefs : v'.tableDefs = v.tableDefs)
    (hblocks : v'.blocks.map (DumpBlock.title cfg) = v.blocks.map (DumpBlock.title cfg)) :
    Titled cfg v' r' :=
  ⟨by rw [hdefs, htableDefs]; exact h.tableDefs, by rw [hopen, hblocks]; exact h.titles⟩

/-- The reader's answer to an event, beside the script of the event. -/
theorem Titled.reacts [NeZero n] {cfg : LoadConfig} {v : Script} {r : Reader P} {σ σ' : Store P}
    {o : Outside} {event : Event} {reaction : Reaction P n} (h : Titled cfg v r)
    (hreacts : Reader.Reacts cfg σ r o event reaction σ') :
    Titled cfg (v.follow cfg event.observe) reaction.reader := by
  obtain ⟨defs, closed, current⟩ := v
  cases hreacts with
  | version dumpedBy fromDatabase => exact h.congr rfl rfl rfl rfl
  | table definition =>
    refine ⟨?_, h.titles⟩
    exact congrArg (fun defs => Function.update defs definition.name.qualified (some definition))
      h.tableDefs
  | skips table columns hcurrent hwanted =>
    refine h.congr rfl rfl ?_ ?_
    · simp [Event.observe, Script.onObs, Script.onCopyStart, hwanted]
    · simp [Event.observe, Script.onObs, Script.onCopyStart, hwanted, Script.blocks]
  | opens table names hcurrent hwanted hreserved definition hdefinition columns hcolumns preloaded
      hpreloaded opened σ' hopened =>
    have hdef : defs table.qualified = some definition := by
      rw [← hdefinition]
      exact congrFun h.tableDefs _
    refine ⟨h.tableDefs, ?_⟩
    have htitles : r.openTables.map CommitTarget.title =
        (closed ++ current.toList).map (DumpBlock.title cfg) := h.titles
    simp [Event.observe, Script.onObs, Script.onCopyStart, hwanted, Script.columnsOf, hdef,
      hcolumns,
      Except.toOption, Script.blocks, Reader.openBlock, htitles, CommitTarget.title,
      DumpBlock.title, DumpBlock.ctx, Reader.blockCtx]
  | skipRows payload hskipping =>
    rw [Event.observe, Script.follow_rows]
    cases current with
    | none => exact h
    | some b => exact h.congr rfl rfl rfl (by simp [Script.blocks, DumpBlock.title, DumpBlock.push,
        DumpBlock.ctx])
  | rows payload hskipping block hcurrent =>
    rw [Event.observe, Script.follow_rows]
    cases current with
    | none => exact h.congr rfl rfl rfl rfl
    | some b => exact h.congr rfl rfl rfl (by simp [Script.blocks, DumpBlock.title, DumpBlock.push,
        DumpBlock.ctx])
  | skipEnd table hskipping =>
    exact h.congr rfl rfl rfl (by simp [Event.observe, Script.onObs, Script.blocks])
  | ends table hskipping block hcurrent htable =>
    exact h.congr rfl rfl rfl (by simp [Event.observe, Script.onObs, Script.blocks])

/-- A reader that has not moved in its stream has handled the same events. -/
theorem Streamed.stay {L : Load} {r r' : Reader P} {p p' : Point P n} {handled : List Event}
    (h : Streamed L r p handled) (hchunks : r'.chunks = r.chunks)
    (hscanner : r'.scanner = r.scanner)
    (hpending : ∀ events, p'.pending = some events → p.pending = some events)
    (hend : p'.atEnd = true → p.atEnd = true ∨ r.chunks = []) : Streamed L r' p' handled := by
  obtain ⟨⟨consumed, pending, hall, hfeed, hpend⟩, hended⟩ := h
  refine ⟨⟨consumed, pending, by rw [hchunks]; exact hall, by rw [hscanner]; exact hfeed,
    fun events hevents => hpend events (hpending events hevents)⟩, fun hp' => ?_⟩
  rw [hchunks]
  exact (hend hp').elim hended id

namespace System

variable {L : Load} {s t : System P n}

/-- The targets of a load beside what it has read. -/
def Announced (L : Load) (s : System P n) : Prop :=
  ∃ handled, Streamed L s.reader s.point handled ∧
    Titled L.cfg (script L.cfg (observe handled)) s.reader

theorem Announced.stay (h : s.Announced L)
    (hreader : t.reader.chunks = s.reader.chunks ∧ t.reader.scanner = s.reader.scanner ∧
      t.reader.tableDefs = s.reader.tableDefs ∧ t.reader.openTables = s.reader.openTables)
    (hpending : ∀ events, t.point.pending = some events → s.point.pending = some events)
    (hend : t.point.atEnd = true → s.point.atEnd = true ∨ s.reader.chunks = []) :
    t.Announced L := by
  obtain ⟨handled, hstreamed, htitled⟩ := h
  exact ⟨handled, hstreamed.stay hreader.1 hreader.2.1 hpending hend,
    htitled.congr hreader.2.2.1 hreader.2.2.2 rfl rfl⟩

theorem dispatching_openTables (s : System P n) (sends : List (Fin n × Job)) (after : After)
    (events : List Event) :
    (s.dispatching sends after events).reader.tableDefs = s.reader.tableDefs ∧
      (s.dispatching sends after events).reader.openTables = s.reader.openTables := by
  cases sends with
  | cons send sends => exact ⟨rfl, rfl⟩
  | nil => cases after <;> exact ⟨rfl, rfl⟩

theorem Announced.move [NeZero n] {a : Label n} (h : s.Announced L) (hmove : Move L s a t) :
    t.Announced L := by
  cases hmove with
  | read o hp chunk chunks hc scanner events hf =>
    obtain ⟨handled, ⟨⟨consumed, pending, hchunks, hfeed, hpending⟩, hended⟩, htitled⟩ := h
    obtain rfl : pending = [] := hpending [] (by rw [hp]; rfl)
    refine ⟨handled, ⟨⟨consumed ++ [chunk], events, ?_, ?_, ?_⟩, ?_⟩, htitled.congr rfl rfl rfl rfl⟩
    · simp [hchunks, hc]
    · rw [List.map_append, List.append_nil] at *
      exact feedAll_concat hfeed hf
    · rintro events' hevents
      exact Option.some.inj hevents
    · intro hend
      cases hend
  | event o event events hp reaction σ hevent =>
    -- of the steps only this one reads an event
    obtain ⟨handled, ⟨⟨consumed, pending, hchunks, hfeed, hpending⟩, hended⟩, htitled⟩ := h
    obtain rfl : pending = event :: events := hpending _ (by rw [hp]; rfl)
    have hreacts := Reader.onEvent_reacts hevent
    have hreader : reaction.reader.chunks = s.reader.chunks ∧
        reaction.reader.scanner = s.reader.scanner := by
      cases hreacts <;> exact ⟨rfl, rfl⟩
    have hscript : script L.cfg (observe (handled ++ [event])) =
        (script L.cfg (observe handled)).follow L.cfg event.observe := by
      rw [observe_concat, script, Script.follow_append]
      rfl
    refine ⟨handled ++ [event], ⟨⟨consumed, events, ?_, ?_, ?_⟩, ?_⟩, ?_⟩
    · rw [dispatching_chunks]
      exact hchunks.trans (by rw [hreader.1])
    · rw [dispatching_scanner]
      simpa [hreader.2] using hfeed
    · intro events' hevents'
      rw [dispatching_pending] at hevents'
      exact Option.some.inj hevents'
    · intro hend
      rw [dispatching_atEnd] at hend
      cases hend
    · obtain ⟨hdefs, hopen⟩ := dispatching_openTables
        ({ s with store := σ, reader := reaction.reader } : System P n) reaction.sends
          reaction.after
        events
      rw [hscript]
      exact (htitled.reacts hreacts).congr hdefs hopen rfl rfl
  | send o i job rest after events hp halive hroom =>
    apply h.stay
    · exact ⟨dispatching_chunks .., dispatching_scanner .., (dispatching_openTables ..).1,
        (dispatching_openTables ..).2⟩
    · intro events' hevents'
      rw [dispatching_pending] at hevents'
      rw [hp]
      exact hevents'
    · intro hend
      rw [dispatching_atEnd] at hend
      cases hend
  | finish o hp hc he hf dumpedBy hd =>
    exact h.stay ⟨rfl, rfl, rfl, rfl⟩ (fun events hevents => by rw [hp]; exact hevents)
      fun _ => .inr hc
  | next o hp =>
    exact h.stay ⟨rfl, rfl, rfl, rfl⟩ (fun events hevents => by rw [hp]; exact hevents)
      fun hend => by cases hend
  | ack o block acks events hp c queue hq hmore =>
    exact h.stay ⟨rfl, rfl, rfl, rfl⟩ (fun events' hevents => by rw [hp]; exact hevents)
      fun hend => by cases hend
  | close o block acks events hp c queue hq hlast =>
    exact h.stay ⟨rfl, rfl, rfl, rfl⟩ (fun events' hevents => by rw [hp]; exact hevents)
      fun hend => by cases hend
  | burst o dumpedBy b hp hover b' σ attempts hburst =>
    exact h.stay ⟨rfl, rfl, rfl, rfl⟩ (fun events hevents => by rw [hp]; exact hevents)
      fun _ => .inl (by rw [hp]; rfl)
  | report o dumpedBy b hp hover hok hm =>
    exact h.stay ⟨rfl, rfl, rfl, rfl⟩ (fun events hevents => by rw [hp]; exact hevents)
      fun _ => .inl (by rw [hp]; rfl)
  | succeed o dumpedBy b hp hover hok hm =>
    exact h.stay ⟨rfl, rfl, rfl, rfl⟩ (fun events hevents => by rw [hp]; exact hevents)
      fun _ => .inl (by rw [hp]; rfl)
  | recorded o report hp loadId σ hrecorded =>
    exact h.stay ⟨rfl, rfl, rfl, rfl⟩ (fun events hevents => by rw [hp]; exact hevents)
      fun _ => .inl (by rw [hp]; rfl)
  | job i faults hrun job jobs hjobs handled hhandle =>
    exact h.stay ⟨rfl, rfl, rfl, rfl⟩ (fun _ hevents => hevents) .inl
  | jobFailed i faults hrun job jobs hjobs e hhandle =>
    exact h.stay ⟨rfl, rfl, rfl, rfl⟩ (fun _ hevents => hevents) .inl
  | sendAck i faults c hstatus hroom =>
    exact h.stay ⟨rfl, rfl, rfl, rfl⟩ (fun _ hevents => hevents) .inl
  | sendFailure i faults e hstatus hroom =>
    exact h.stay ⟨rfl, rfl, rfl, rfl⟩ (fun _ hevents => hevents) .inl
  | exit i faults hstatus => exact h.stay ⟨rfl, rfl, rfl, rfl⟩ (fun _ hevents => hevents) .inl
  | leave i faults hstatus hjobs hdone =>
    exact h.stay ⟨rfl, rfl, rfl, rfl⟩ (fun _ hevents => hevents) .inl
  | _ =>
    exact h.stay ⟨rfl, rfl, rfl, rfl⟩ (fun _ hevents => by cases hevents) fun hend => by cases hend

theorem Reachable.announced [NeZero n] {σ : Store P} (h : Reachable L σ s) : s.Announced L := by
  obtain ⟨faults, labels, hrun⟩ := h
  refine runFrom_invariant (fun s a t hs hstep => Announced.move hs (step_move hstep)) ?_ hrun
  refine ⟨[], ⟨⟨[], [], rfl, rfl, ?_⟩, ?_⟩, ⟨rfl, rfl⟩⟩
  · intro events hevents
    unfold start at hevents
    cases hstart : startError L faults with
    | some e => simp [hstart, Point.pending] at hevents
    | none => simpa [hstart, Point.pending] using hevents
  · intro hend
    unfold start at hend
    cases hstart : startError L faults with
    | some e => simp [hstart, Point.atEnd] at hend
    | none => simp [hstart, Point.atEnd] at hend

/-- What a load that has succeeded makes of the blocks of its dump, as its
chunks show them. -/
structure Accomplished (L : Load) (s : System P n) (report : LoadReport) (blocks : List DumpBlock) :
    Prop where
  length : report.tables.length = blocks.length
  titles : s.reader.openTables.map CommitTarget.title = blocks.map (DumpBlock.title L.cfg)
  loaded : ∀ (g : ℕ) b stats, blocks[g]? = some b → report.tables[g]? = some stats →
    Loaded L.cfg s.trace (g + 1) b stats

/-- A load that has read its dump to the end has handled the events of all
chunks. -/
theorem Reachable.read [NeZero n] {σ : Store P} (h : Reachable L σ s)
    (hend : s.point.atEnd = true) :
    ∃ events, L.cfg.scanner.feedAll (L.input.chunks.map Chunk.bytes)
      = .ok (s.reader.scanner, events) ∧
      Titled L.cfg (script L.cfg (observe events)) s.reader ∧
      Scripted L.cfg (script L.cfg (observe events)) s.reader s.trace ∧
      Beside (script L.cfg (observe events)) s.reader s.trace s.point := by
  have hwhole : ∀ {handled}, Streamed L s.reader s.point handled →
      L.cfg.scanner.feedAll (L.input.chunks.map Chunk.bytes) = .ok (s.reader.scanner, handled) := by
    rintro handled ⟨⟨consumed, pending, hchunks, hfeed, hpending⟩, hended⟩
    have hnone : s.point.pending = some [] := by
      unfold Point.atEnd at hend
      split at hend <;> simp_all [Point.pending]
    obtain rfl : pending = [] := hpending [] hnone
    rw [hchunks, hended hend, List.append_nil, hfeed, List.append_nil]
  obtain ⟨handled, hstreamed, htitled⟩ := h.announced
  obtain ⟨handled', hstreamed', hscripted, hbeside⟩ := h.transcribed
  obtain rfl : handled = handled' := by
    have hsame := (hwhole hstreamed).symm.trans (hwhole hstreamed')
    simpa using hsame
  exact ⟨handled, hwhole hstreamed, htitled, hscripted, hbeside⟩

theorem Accomplished.of_scripted {report : LoadReport} {events : List Event}
    (htitled : Titled L.cfg (script L.cfg (observe events)) s.reader)
    (hscripted : Scripted L.cfg (script L.cfg (observe events)) s.reader s.trace)
    (hcomplete : s.reader.tables.length = (script L.cfg (observe events)).blocks.length)
    (htables : report.tables.map unversioned = s.reader.tables.map unversioned) :
    Accomplished L s report (wantedBlocks L.cfg events) := by
  have hlen : report.tables.length = s.reader.tables.length := by
    simpa using congrArg List.length htables
  refine ⟨hlen.trans hcomplete, htitled.titles, ?_⟩
  intro g b stats hb hstats
  have hg : g < s.reader.tables.length := hlen ▸ (List.getElem?_eq_some_iff.mp hstats).1
  obtain ⟨b', hb', hloaded⟩ := hscripted.loaded g _ (List.getElem?_eq_getElem hg)
  have hsame : b = b' := by
    rw [wantedBlocks, Script.blocks,
      List.getElem?_append_left (List.getElem?_eq_some_iff.mp hb').1, hb'] at hb
    exact (Option.some.inj hb).symm
  rw [hsame]
  apply hloaded.of_unversioned
  have hunversioned := congrArg (fun tables => tables[g]?) htables
  simpa [hstats, List.getElem?_eq_getElem hg] using hunversioned

theorem Reachable.accomplished [NeZero n] {σ : Store P} (h : Reachable L σ s) {report : LoadReport}
    (hp : s.point = .done (.ok report)) : ∃ scanner events,
      L.cfg.scanner.feedAll (L.input.chunks.map Chunk.bytes) = .ok (scanner, events) ∧
        Accomplished L s report (wantedBlocks L.cfg events) := by
  obtain ⟨events, hscan, htitled, hscripted, hbeside⟩ := h.read (by rw [hp]; rfl)
  rw [hp] at hbeside
  have hreports : Reports _ s.reader report := hbeside
  exact ⟨_, events, hscan, .of_scripted htitled hscripted hreports.complete hreports.tables⟩

end System

end PgDelta.Pipeline
