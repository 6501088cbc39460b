import PgDelta.Scan.SqlLine

/-!
The block structure of the scanner's events.

Events follow one another as a reader expects them to: rows arrive only inside
a block, a block ends under the name it began with, and no block begins inside
another one.
-/

namespace PgDelta.Scan

open PgDelta.Lib PgDelta.Copy

/-- The block that is open behind an event, given the one that was open before
it. There is none for an event out of place. -/
def Event.follow (block : Option TableName) : Event → Option (Option TableName)
  | .copyStart name _ => if block.isNone then some (some name) else none
  | .copyRows _ => if block.isSome then some block else none
  | .copyEnd name => if block = some name then some none else none
  | .dumpVersion _ _ => if block.isNone then some none else none
  | .table _ => if block.isNone then some none else none

def follows (block : Option TableName) (events : List Event) : Option (Option TableName) :=
  events.foldlM Event.follow block

@[simp] theorem follows_nil (block : Option TableName) : follows block [] = some block := rfl

theorem follows_cons (block : Option TableName) (e : Event) (events : List Event) :
    follows block (e :: events) = (e.follow block).bind fun b => follows b events := by
  simp [follows, List.foldlM_cons]

theorem follows_append {block mid : Option TableName} {es : List Event}
    (h : follows block es = some mid) (fs : List Event) :
    follows block (es ++ fs) = follows mid fs := by
  simp only [follows] at h ⊢
  simp [List.foldlM_append, h]

theorem follows_append_some {block last : Option TableName} {es fs : List Event}
    (h : follows block (es ++ fs) = some last) :
    ∃ mid, follows block es = some mid ∧ follows mid fs = some last := by
  have happend : follows block (es ++ fs) = (follows block es).bind fun b => follows b fs :=
    List.foldlM_append
  rw [happend] at h
  exact Option.bind_eq_some_iff.mp h

def Event.isRows : Event → Bool
  | .copyRows _ => true
  | _ => false

theorem exists_copyStart {events : List Event} {table : TableName}
    (h : follows none events = some (some table)) :
    ∃ before columns rows, events = before ++ .copyStart table columns :: rows ∧
      ∀ e ∈ rows, e.isRows = true := by
  induction events using List.reverseRecOn with
  | nil => cases h
  | append_singleton events e ih =>
    obtain ⟨mid, hmid, hlast⟩ := follows_append_some h
    rw [follows_cons] at hlast
    cases e with
    | copyStart name columns =>
      cases mid with
      | some table' => simp [Event.follow] at hlast
      | none =>
        obtain rfl : name = table := by simpa [Event.follow] using hlast
        exact ⟨events, columns, [], rfl, by simp⟩
    | copyRows payload =>
      cases mid with
      | none => simp [Event.follow] at hlast
      | some table' =>
        obtain rfl : table' = table := by simpa [Event.follow] using hlast
        obtain ⟨before, columns, rows, rfl, hrows⟩ := ih hmid
        refine ⟨before, columns, rows ++ [.copyRows payload], by simp, ?_⟩
        intro e he
        rcases List.mem_append.mp he with he | he
        · exact hrows e he
        · rw [List.mem_singleton.mp he]
          rfl
    | copyEnd name => simp [Event.follow] at hlast
    | dumpVersion dumpedBy fromDatabase => simp [Event.follow] at hlast
    | table definition => simp [Event.follow] at hlast

/-- Inside a block only rows come before its end. The block stays open where
the end does not come. -/
theorem exists_copyEnd {events : List Event} {table : TableName} {last : Option TableName}
    (h : follows (some table) events = some last) :
    (∃ rows after, events = rows ++ .copyEnd table :: after ∧ ∀ e ∈ rows, e.isRows = true) ∨
      (∀ e ∈ events, e.isRows = true) ∧ last = some table := by
  induction events with
  | nil => exact .inr ⟨by simp, (Option.some.inj h).symm⟩
  | cons e events ih =>
    rw [follows_cons] at h
    cases e with
    | copyRows payload =>
      have h : follows (some table) events = some last := by simpa [Event.follow] using h
      rcases ih h with ⟨rows, after, rfl, hrows⟩ | ⟨hrows, hlast⟩
      · refine .inl ⟨.copyRows payload :: rows, after, rfl, ?_⟩
        intro e he
        rcases List.mem_cons.mp he with rfl | he
        · rfl
        · exact hrows e he
      · refine .inr ⟨?_, hlast⟩
        intro e he
        rcases List.mem_cons.mp he with rfl | he
        · rfl
        · exact hrows e he
    | copyEnd name =>
      have hname : table = name := by
        by_contra hne
        simp [Event.follow, hne] at h
      subst hname
      exact .inl ⟨[], events, rfl, by simp⟩
    | copyStart name columns => simp [Event.follow] at h
    | dumpVersion dumpedBy fromDatabase => simp [Event.follow] at h
    | table definition => simp [Event.follow] at h

namespace Scanner

/-- A table is open exactly inside a block. -/
def Framed (s : Scanner) : Prop := s.state = .copy ↔ s.openTable.isSome = true

theorem framed_new (schemas : List String) : (new.setExcludedSchemas schemas).Framed := by
  simp [Framed, new, setExcludedSchemas]

theorem SqlStep.follows {s s' : Scanner} {line : Bytes} {events : List Event} (hs : s.Framed)
    (hstate : s.state = .sql) (h : SqlStep s line s' events) :
    Scan.follows s.openTable events = some s'.openTable ∧ s'.Framed := by
  have hopen : s.openTable = none := by
    have hs' : ¬ s.openTable.isSome = true := fun h => by
      rw [hs.mpr h] at hstate
      cases hstate
    simpa using hs'
  cases h with
  | header hskip hcreate hheader table columns hparse =>
    exact ⟨by simp [follows_cons, Event.follow, hopen], by simp [Framed]⟩
  | other hskip hcreate hkw hheader dumpedBy fromDatabase events hevents hlength =>
    refine ⟨?_, hs⟩
    simp only
    clear hlength
    induction events with
    | nil => rfl
    | cons e events ih =>
      obtain ⟨v, w, rfl⟩ := hevents e (by simp)
      rw [follows_cons, Event.follow, hopen]
      rw [hopen] at ih
      exact ih fun e he => hevents e (by simp [he])
  | _ =>
    refine ⟨?_, ?_⟩
    · simp [follows_cons, Event.follow, hopen]
    · simpa [Framed] using hs

theorem closeCopy_follows {s : Scanner} (hs : s.Framed) (hstate : s.state = .copy) :
    follows s.openTable s.closeCopy.2 = some s.closeCopy.1.openTable ∧ s.closeCopy.1.Framed := by
  obtain ⟨table, htable⟩ := Option.isSome_iff_exists.mp (hs.mp hstate)
  simp [closeCopy, htable, follows_cons, Event.follow, Framed]

theorem rowsEvent_follows {block : Option TableName} (h : block.isSome = true) (payload : Bytes) :
    follows block (rowsEvent payload) = some block := by
  unfold rowsEvent
  split
  · rfl
  · simp [follows_cons, Event.follow, h]

theorem feedLoop_follows (fuel : ℕ) {s s' : Scanner} {block : Option TableName} {input : Bytes}
    {events out : List Event} (hs : s.Framed)
    (hevents : follows block events = some s.openTable)
    (h : feedLoop fuel s input events = .ok (s', out)) :
    follows block out = some s'.openTable ∧ s'.Framed := by
  induction fuel generalizing s input events with
  | zero =>
    obtain ⟨rfl, rfl⟩ := Prod.mk.inj (Except.ok.inj h)
    exact ⟨hevents, hs⟩
  | succ fuel ih =>
    rw [feedLoop] at h
    cases hstate : s.state with
    | sql =>
      simp only [hstate] at h
      cases hnl : memchr newline input with
      | none =>
        simp only [hnl, Except.ok.injEq, Prod.mk.injEq] at h
        obtain ⟨rfl, rfl⟩ := h
        exact ⟨hevents, by simpa [Framed, hstate] using hs⟩
      | some nl =>
        simp only [hnl] at h
        cases hline : s.sqlLine (stripCr (input.take nl)) with
        | error e => simp [hline] at h
        | ok r =>
          obtain ⟨s₁, emitted⟩ := r
          simp only [hline] at h
          obtain ⟨hstep, hs₁⟩ := (sqlLine_step hline).follows hs hstate
          exact ih hs₁ (by rw [follows_append hevents, hstep]) h
    | copy =>
      simp only [hstate] at h
      have hopen := hs.mp hstate
      cases hfind : findTerminator input with
      | mk consumed offset =>
        cases offset with
        | some offset =>
          simp only [hfind] at h
          obtain ⟨hclose, hs₁⟩ := closeCopy_follows hs hstate
          refine ih hs₁ ?_ h
          rw [List.append_assoc, follows_append hevents,
            follows_append (rowsEvent_follows hopen _), hclose]
        | none =>
          simp only [hfind, Except.ok.injEq, Prod.mk.injEq] at h
          obtain ⟨rfl, rfl⟩ := h
          exact ⟨by rw [follows_append hevents, rowsEvent_follows hopen],
            by simpa [Framed, hstate] using hs⟩

theorem pendingLine_follows {s s' : Scanner} {line : Bytes} {events : List Event} (hs : s.Framed)
    (h : s.pendingLine line = .ok (s', events)) :
    follows s.openTable events = some s'.openTable ∧ s'.Framed := by
  unfold pendingLine at h
  cases hstate : s.state with
  | sql =>
    simp only [hstate] at h
    exact (sqlLine_step h).follows hs hstate
  | copy =>
    simp only [hstate] at h
    split at h
    · obtain ⟨rfl, rfl⟩ := Prod.mk.inj (Except.ok.inj h)
      exact closeCopy_follows hs hstate
    · simp only [Except.ok.injEq, Prod.mk.injEq] at h
      obtain ⟨rfl, rfl⟩ := h
      exact ⟨by simp [follows_cons, Event.follow, hs.mp hstate], hs⟩

/-- The events of a chunk lead from the block that was open to the one that
is open now. -/
theorem feed_follows {s s' : Scanner} {chunk : Bytes} {events : List Event} (hs : s.Framed)
    (h : s.feed chunk = .ok (s', events)) :
    follows s.openTable events = some s'.openTable ∧ s'.Framed := by
  unfold feed at h
  split at h
  · exact feedLoop_follows _ hs rfl h
  · split at h
    · simp only [Except.ok.injEq, Prod.mk.injEq] at h
      obtain ⟨rfl, rfl⟩ := h
      exact ⟨rfl, hs⟩
    · simp only at h
      split at h
      · simp at h
      · rename_i s₁ emitted hline
        have hs' : ({ s with pending := [] } : Scanner).Framed := hs
        obtain ⟨hpending, hs₁⟩ := pendingLine_follows hs' hline
        exact feedLoop_follows _ hs₁ hpending h

/-- The events of all chunks lead from the block that was open to the one that
is open now. -/
theorem feedAll_follows {s s' : Scanner} {chunks : List Bytes} {events : List Event}
    (hs : s.Framed) (h : s.feedAll chunks = .ok (s', events)) :
    follows s.openTable events = some s'.openTable ∧ s'.Framed := by
  induction chunks generalizing s events with
  | nil =>
    obtain ⟨rfl, rfl⟩ := Prod.mk.inj (Except.ok.inj h)
    exact ⟨rfl, hs⟩
  | cons chunk chunks ih =>
    rw [feedAll] at h
    cases hfeed : s.feed chunk with
    | error e => simp [hfeed] at h
    | ok r =>
      obtain ⟨s₁, es⟩ := r
      obtain ⟨hfollows, hs₁⟩ := feed_follows hs hfeed
      cases hall : s₁.feedAll chunks with
      | error e => simp [hfeed, hall] at h
      | ok r =>
        obtain ⟨s₂, fs⟩ := r
        simp only [hfeed, hall, Except.ok.injEq, Prod.mk.injEq] at h
        obtain ⟨rfl, rfl⟩ := h
        obtain ⟨hmore, hs₂⟩ := ih hs₁ hall
        exact ⟨by rw [follows_append hfollows, hmore], hs₂⟩

/-- The rows of a payload stand inside one block: behind its start, and before
its end unless the stream ends inside the block, which `finish` reports. -/
theorem feedAll_framed {schemas : List String} {s : Scanner} {chunks : List Bytes}
    {before after : List Event} {payload : Bytes}
    (h : (new.setExcludedSchemas schemas).feedAll chunks =
      .ok (s, before ++ .copyRows payload :: after)) :
    ∃ table, (∃ earlier columns rows, before = earlier ++ .copyStart table columns :: rows ∧
        ∀ e ∈ rows, e.isRows = true) ∧
      ((∃ rows later, after = rows ++ .copyEnd table :: later ∧ ∀ e ∈ rows, e.isRows = true) ∨
        (∀ e ∈ after, e.isRows = true) ∧
          s.finish = .error (.unterminatedCopy table.qualified)) := by
  obtain ⟨hfollows, hframed⟩ := feedAll_follows (framed_new schemas) h
  obtain ⟨mid, hmid, hlast⟩ := follows_append_some hfollows
  rw [follows_cons] at hlast
  cases mid with
  | none => simp [Event.follow] at hlast
  | some table =>
    have hlast : follows (some table) after = some s.openTable := by
      simpa [Event.follow] using hlast
    refine ⟨table, exists_copyStart hmid, ?_⟩
    rcases exists_copyEnd hlast with hend | ⟨hrows, hopen⟩
    · exact .inl hend
    · refine .inr ⟨hrows, ?_⟩
      have hstate : s.state = .copy := hframed.mpr (by simp [hopen])
      simp [finish, hstate, hopen]

/-- A dump that ends well ends outside any block. -/
theorem openTable_of_finish {s : Scanner} (hs : s.Framed) (h : s.finish = .ok ()) :
    s.openTable = none := by
  unfold finish at h
  split at h
  · simp at h
  · rename_i hstate
    have hs' : ¬ s.openTable.isSome = true := fun h => hstate (hs.mpr h)
    simpa using hs'

end Scanner

end PgDelta.Scan
