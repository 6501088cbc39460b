import PgDelta.Pipeline.Moves
import PgDelta.Pipeline.Reactions
import PgDelta.Scan.Blocks

/-!
The reader in step with the scanner.

The scanner knows whether a `COPY` block is open, and the reader knows it from
the events. `Aligned` says that the two agree once the events that are still to
be handled are taken into account.
-/

namespace PgDelta.Pipeline

open PgDelta.Lib PgDelta.Builders PgDelta.Types PgDelta.Scan PgDelta.Sink

variable {P : Platform} {n : ℕ}

/-- The reader is outside any block, or inside the block of a table, which it
skips exactly if it does not want the table. -/
def Reader.Within (cfg : LoadConfig) (r : Reader P) : Option TableName → Prop
  | none => r.current = none ∧ r.skipping = false
  | some table =>
    r.skipping = true ∧ r.current = none ∧ cfg.wanted table = false ∨
      r.skipping = false ∧ cfg.wanted table = true ∧ ∃ block, r.current = some block ∧
        block.table = table

namespace System

def Aligned (L : Load) (s : System P n) : Prop :=
  s.reader.scanner.Framed ∧
    match s.point with
    | .reading => s.reader.Within L.cfg s.reader.scanner.openTable
    | .handling events =>
      ∃ here, s.reader.Within L.cfg here ∧ follows here events = some s.reader.scanner.openTable
    | .dispatching _ _ _ after events =>
      ∃ here, (s.reader.afterSends after).Within L.cfg here ∧
        follows here events = some s.reader.scanner.openTable ∧
        ∀ block, after = .collect block → here = none
    | .collecting _ _ events =>
      s.reader.Within L.cfg none ∧ follows none events = some s.reader.scanner.openTable
    | .committing _ _ | .recording _ => s.reader.Within L.cfg none
    | .failedSend | .done _ => True

end System

namespace Reader

variable {cfg : LoadConfig} {r : Reader P} {here : Option TableName}

theorem Within.congr {r' : Reader P} (h : r.Within cfg here) (hcurrent : r'.current = r.current)
    (hskipping : r'.skipping = r.skipping) : r'.Within cfg here := by
  cases here with
  | none => exact ⟨hcurrent.trans h.1, hskipping.trans h.2⟩
  | some table =>
    unfold Within at h ⊢
    rwa [hcurrent, hskipping]

/-- The reader's answer to an event that is in place leaves it in step. -/
theorem Reacts.within {σ σ' : Store P} {o : Outside} {event : Event} {reaction : Reaction P n}
    [NeZero n] (h : Reacts cfg σ r o event reaction σ') (hr : r.Within cfg here)
    {here' : Option TableName} (hfollow : event.follow here = some here') :
    (reaction.reader.afterSends reaction.after).Within cfg here' ∧
      reaction.reader.scanner = r.scanner := by
  cases h with
  | version dumpedBy fromDatabase =>
    cases here with
    | some table => simp [Event.follow] at hfollow
    | none =>
      obtain rfl : none = here' := by simpa [Event.follow] using hfollow
      exact ⟨hr.congr rfl rfl, rfl⟩
  | table definition =>
    cases here with
    | some table => simp [Event.follow] at hfollow
    | none =>
      obtain rfl : none = here' := by simpa [Event.follow] using hfollow
      exact ⟨hr.congr rfl rfl, rfl⟩
  | skips table columns hcurrent hwanted =>
    cases here with
    | some table => simp [Event.follow] at hfollow
    | none =>
      obtain rfl : some table = here' := by simpa [Event.follow] using hfollow
      exact ⟨.inl ⟨rfl, hcurrent, hwanted⟩, rfl⟩
  | opens table names hcurrent hwanted hreserved definition hdefinition columns hcolumns preloaded
      hpreloaded opened σ' hopened =>
    cases here with
    | some table => simp [Event.follow] at hfollow
    | none =>
      obtain rfl : some table = here' := by simpa [Event.follow] using hfollow
      exact ⟨.inr ⟨hr.2, hwanted, _, rfl, rfl⟩, rfl⟩
  | skipRows payload hskipping =>
    cases here with
    | none => simp [Event.follow] at hfollow
    | some table =>
      obtain rfl : some table = here' := by simpa [Event.follow] using hfollow
      exact ⟨hr, rfl⟩
  | rows payload hskipping block hcurrent =>
    cases here with
    | none => simp [Event.follow] at hfollow
    | some table =>
      obtain rfl : some table = here' := by simpa [Event.follow] using hfollow
      exact ⟨hr.congr rfl rfl, rfl⟩
  | skipEnd table hskipping =>
    cases here with
    | none => simp [Event.follow] at hfollow
    | some table' =>
      obtain ⟨rfl, rfl⟩ : table' = table ∧ none = here' := by simpa [Event.follow] using hfollow
      rcases hr with ⟨-, hcurrent, -⟩ | ⟨hskipping', -⟩
      · exact ⟨⟨hcurrent, rfl⟩, rfl⟩
      · rw [hskipping] at hskipping'
        cases hskipping'
  | ends table hskipping block hcurrent htable =>
    cases here with
    | none => simp [Event.follow] at hfollow
    | some table' =>
      obtain ⟨rfl, rfl⟩ : table' = table ∧ none = here' := by simpa [Event.follow] using hfollow
      exact ⟨⟨rfl, hskipping⟩, rfl⟩

end Reader

namespace System

variable {L : Load}

theorem aligned_start (L : Load) (σ : Store P) (faults : StartFaults) :
    (start L σ faults : System P n).Aligned L := by
  refine ⟨Scanner.framed_new _, ?_⟩
  unfold start
  cases hstart : startError L faults with
  | some e => trivial
  | none => exact ⟨rfl, rfl⟩

theorem Aligned.dispatching {s : System P n} (hframed : s.reader.scanner.Framed)
    {after : After} {here : Option TableName}
    (hwithin : (s.reader.afterSends after).Within L.cfg here) {events : List Event}
    (hfollows : follows here events = some s.reader.scanner.openTable)
    (sends : List (Fin n × Job)) (hcollect : ∀ block, after = .collect block → here = none) :
    (s.dispatching sends after events).Aligned L := by
  cases sends with
  | cons send sends => exact ⟨hframed, here, hwithin, hfollows, hcollect⟩
  | nil =>
    cases after with
    | collect block =>
      obtain rfl := hcollect block rfl
      exact ⟨hframed, hwithin, hfollows⟩
    | _ => exact ⟨hframed, here, hwithin, hfollows⟩

/-- Every move keeps the reader in step with the scanner. -/
theorem Aligned.move [NeZero n] {s t : System P n} {a : Label n} (h : s.Aligned L)
    (hmove : Move L s a t) :
    t.Aligned L := by
  obtain ⟨hframed, h⟩ := h
  cases hmove with
  | read o hp chunk chunks hc scanner events hf =>
    simp only [hp] at h
    obtain ⟨hfollows, hframed'⟩ := Scanner.feed_follows hframed hf
    exact ⟨hframed', _, h.congr rfl rfl, hfollows⟩
  | finish o hp hc he hf dumpedBy hd =>
    simp only [hp] at h
    rw [Scanner.openTable_of_finish hframed hf] at h
    exact ⟨hframed, h⟩
  | next o hp =>
    simp only [hp] at h
    obtain ⟨here, hwithin, hfollows⟩ := h
    obtain rfl := Option.some.inj hfollows
    exact ⟨hframed, hwithin⟩
  | event o event events hp reaction σ hevent =>
    simp only [hp] at h
    obtain ⟨here, hwithin, hfollows⟩ := h
    rw [follows_cons] at hfollows
    obtain ⟨here', hfollow, hfollows⟩ := Option.bind_eq_some_iff.mp hfollows
    have hreacts := Reader.onEvent_reacts hevent
    obtain ⟨hwithin', hscanner⟩ := hreacts.within hwithin hfollow
    rw [← hscanner] at hfollows hframed
    apply Aligned.dispatching hframed hwithin' hfollows
    intro block hafter
    cases hreacts with
    | ends table hskipping block' hcurrent htable =>
      cases here with
      | none => simp [Event.follow] at hfollow
      | some table' =>
        have : table' = table ∧ none = here' := by simpa [Event.follow] using hfollow
        exact this.2.symm
    | _ => simp [Reader.onTable, Reader.openBlock] at hafter
  | send o i job rest after events hp halive hroom =>
    simp only [hp] at h
    obtain ⟨here, hwithin, hfollows, hcollect⟩ := h
    apply Aligned.dispatching
    · exact hframed
    · exact hwithin
    · exact hfollows
    · exact hcollect
  | sendFailed o i job rest after events hp hdead => exact ⟨hframed, trivial⟩
  | ack o block acks events hp c queue hq hmore =>
    simp only [hp] at h
    exact ⟨hframed, h⟩
  | close o block acks events hp c queue hq hlast =>
    simp only [hp] at h
    obtain ⟨hwithin, hfollows⟩ := h
    exact ⟨hframed, none, hwithin.congr rfl rfl, hfollows⟩
  | burst o dumpedBy b hp hover b' σ attempts hburst =>
    simp only [hp] at h
    exact ⟨hframed, h⟩
  | report o dumpedBy b hp hover hok hm =>
    simp only [hp] at h
    exact ⟨hframed, h⟩
  | succeed o dumpedBy b hp hover hok hm => exact ⟨hframed, trivial⟩
  | recorded o report hp loadId σ hrecorded => exact ⟨hframed, trivial⟩
  | stop o e hphase queue => exact ⟨hframed, trivial⟩
  | stopEvent o event events hp e σ hevent => exact ⟨hframed, trivial⟩
  | interrupt o block acks events hp c queue hq hlast => exact ⟨hframed, trivial⟩
  | commitFailed o dumpedBy b hp hover table e hfail => exact ⟨hframed, trivial⟩
  | stopRecord o report hp e σ hrecord => exact ⟨hframed, trivial⟩
  | job i faults hrun job jobs hjobs handled hhandle => exact ⟨hframed, h⟩
  | jobFailed i faults hrun job jobs hjobs e hhandle => exact ⟨hframed, h⟩
  | sendAck i faults c hstatus hroom => exact ⟨hframed, h⟩
  | sendFailure i faults e hstatus hroom => exact ⟨hframed, h⟩
  | exit i faults hstatus => exact ⟨hframed, h⟩
  | leave i faults hstatus hjobs hdone => exact ⟨hframed, h⟩

end System

end PgDelta.Pipeline
