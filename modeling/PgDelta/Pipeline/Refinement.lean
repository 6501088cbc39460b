import PgDelta.Pipeline.Contents
import PgDelta.Pipeline.Progress

/-!
Parallel decoding refines sequential decoding.

`Transcribed` follows a load beside the script of its dump: the events that the
reader has handled are those of the chunks it has read, the block in hand is
the block that the script has open, its lines are dispatched in their order,
and every block that is over was loaded as it stands in the dump.
-/

namespace PgDelta.Pipeline

open PgDelta.Lib PgDelta.Builders PgDelta.Types PgDelta.Scan PgDelta.Sink

variable {P : Platform} {n : ℕ}

/-- The lines that a job brings. -/
def Job.lines : Job → List Bytes
  | .rows _ bytes => Copy.rows bytes
  | _ => []

def unsent (sends : List (Fin n × Job)) : List Bytes := sends.flatMap fun send => send.2.lines

@[simp] theorem unsent_nil : unsent ([] : List (Fin n × Job)) = [] := rfl

@[simp] theorem unsent_cons (i : Fin n) (job : Job) (rest : List (Fin n × Job)) :
    unsent ((i, job) :: rest) = job.lines ++ unsent rest := by
  simp [unsent]

theorem unsent_toAll {job : Job} (h : job.lines = []) :
    unsent (Reader.toAll job : List (Fin n × Job)) = [] := by
  simp [unsent, Reader.toAll, h]

theorem linesOf_sent (t : Trace) (job : Job) (generation : ℕ) :
    (System.recordDispatch t job).linesOf generation =
      t.linesOf generation ++ if job.generation = generation then job.lines else [] := by
  cases job with
  | rows g bytes =>
    rw [System.recordDispatch, Trace.linesOf, Trace.linesOf, List.filter_append]
    by_cases hg : g = generation <;> simp [Job.generation, Job.lines, hg]
  | openBlock ctx => simp [System.recordDispatch, Job.lines]
  | close g => simp [System.recordDispatch, Job.lines]

def unversioned (stats : TableStats) : TableStats := { stats with deltaVersion := 0 }

theorem unversioned_setVersion (name : String) (version : ℕ) (tables : List TableStats) :
    (setVersion name version tables).map unversioned = tables.map unversioned := by
  induction tables with
  | nil => rfl
  | cons t tables ih =>
    rw [setVersion]
    split_ifs
    · rfl
    · rw [List.map_cons, ih, List.map_cons]

/-- The outcomes of the commits change nothing but versions. -/
theorem unversioned_tally (tables : List TableStats) (outcomes : List (String × Except Error ℕ)) :
    (tally tables outcomes).tables.map unversioned = tables.map unversioned := by
  have hfold : ∀ t : Tally, (outcomes.foldl Tally.add t).tables.map unversioned =
      t.tables.map unversioned := by
    induction outcomes with
    | nil => exact fun t => rfl
    | cons o outcomes ih =>
      intro t
      obtain ⟨name, outcome⟩ := o
      rw [List.foldl_cons, ih]
      cases outcome with
      | ok version => exact unversioned_setVersion name version t.tables
      | error e => rfl
  exact hfold _

theorem Loaded.of_unversioned {cfg : LoadConfig} {t : Trace} {generation : ℕ} {b : DumpBlock}
    {stats stats' : TableStats} (h : Loaded cfg t generation b stats)
    (hstats : unversioned stats' = unversioned stats) : Loaded cfg t generation b stats' := by
  simp only [unversioned, TableStats.mk.injEq] at hstats
  obtain ⟨htable, -, hrows, -, -, hnull, -⟩ := hstats
  exact ⟨htable.trans h.table, hrows.trans h.rows, h.lines, h.written,
    by rw [hnull]; exact h.contents⟩

/-! ### Beside the script -/

/-- The events that the reader has before it, where it goes on. -/
def Point.pending : Point P n → Option (List Event)
  | .reading | .committing _ _ | .recording _ | .done (.ok _) => some []
  | .handling events | .dispatching _ _ _ _ events | .collecting _ _ events => some events
  | .failedSend | .done (.error _) => none

def Point.atEnd : Point P n → Bool
  | .committing _ _ | .recording _ | .done (.ok _) => true
  | _ => false

/-- The reader has handled the events of the chunks that it has read, but for
those before it. -/
structure Streamed (L : Load) (r : Reader P) (point : Point P n) (handled : List Event) : Prop where
  consumed : ∃ consumed pending, L.input.chunks = consumed ++ r.chunks ∧
    L.cfg.scanner.feedAll (consumed.map Chunk.bytes) = .ok (r.scanner, handled ++ pending) ∧
      ∀ events, point.pending = some events → pending = events
  ended : point.atEnd = true → r.chunks = []

/-- What has been dispatched and reported, beside the script. -/
structure Scripted (cfg : LoadConfig) (v : Script) (r : Reader P) (t : Trace) : Prop where
  generation : r.generation = v.blocks.length
  begun : ∀ (g : ℕ) (b : DumpBlock), v.blocks[g]? = some b → t.linesOf (g + 1) <+: b.lines
  positive : ∀ d ∈ t.dispatched, 0 < d.1
  loaded : ∀ (g : ℕ) (stats : TableStats), r.tables[g]? = some stats →
    ∃ b, v.closed[g]? = some b ∧ Loaded cfg t (g + 1) b stats
  total : r.totalRows = (r.tables.map TableStats.rows).sum

/-- The block in hand is the block that the script has open, or has just
closed. What has been dispatched of it and what is about to be sent are its
lines. -/
def Level (v : Script) (r : Reader P) (t : Trace) (sends : List (Fin n × Job)) : After → Prop
  | .resume => v.tableDefs = r.tableDefs ∧
    match r.current with
    | none => v.current = none
    | some block =>
      ∃ b, v.current = some b ∧ Copied block b (t.linesOf r.generation ++ unsent sends)
  | .opened block => v.tableDefs = r.tableDefs ∧
    ∃ b, v.current = some b ∧ Copied block b (t.linesOf r.generation ++ unsent sends)
  | .collect block => v.tableDefs = r.tableDefs ∧ v.current = none ∧
    ∃ b, v.closed.getLast? = some b ∧ Copied block b (t.linesOf r.generation ++ unsent sends)

/-- The report says what the reader has recorded of all blocks. -/
structure Reports (v : Script) (r : Reader P) (report : LoadReport) : Prop where
  complete : r.tables.length = v.blocks.length
  tables : report.tables.map unversioned = r.tables.map unversioned
  total : report.totalRows = r.totalRows

def Beside (v : Script) (r : Reader P) (t : Trace) : Point P n → Prop
  | .reading | .handling _ => Level (n := n) v r t [] .resume
  | .dispatching i job rest after _ => Level v r t ((i, job) :: rest) after
  | .collecting block _ _ => Level (n := n) v r t [] (.collect block)
  | .committing _ _ => r.tables.length = v.blocks.length
  | .recording report | .done (.ok report) => Reports v r report
  | .failedSend | .done (.error _) => True

def System.Transcribed (L : Load) (s : System P n) : Prop :=
  ∃ handled, Streamed L s.reader s.point handled ∧
    Scripted L.cfg (script L.cfg (observe handled)) s.reader s.trace ∧
      Beside (script L.cfg (observe handled)) s.reader s.trace s.point

/-! ### One event -/

theorem feedAll_concat {s s' s'' : Scanner} {chunks : List Bytes} {chunk : Bytes}
    {es fs : List Event} (h : s.feedAll chunks = .ok (s', es))
    (hfeed : s'.feed chunk = .ok (s'', fs)) :
    s.feedAll (chunks ++ [chunk]) = .ok (s'', es ++ fs) := by
  induction chunks generalizing s es with
  | nil =>
    obtain ⟨rfl, rfl⟩ := Prod.mk.inj (Except.ok.inj h)
    simp [Scanner.feedAll, hfeed]
  | cons c chunks ih =>
    rw [Scanner.feedAll] at h
    rw [List.cons_append, Scanner.feedAll]
    cases hc : s.feed c with
    | error e => simp [hc] at h
    | ok r =>
      obtain ⟨s₁, es₁⟩ := r
      simp only [hc] at h ⊢
      cases hrest : s₁.feedAll chunks with
      | error e => simp [hrest] at h
      | ok r =>
        obtain ⟨s₂, es₂⟩ := r
        simp only [hrest, Except.ok.injEq, Prod.mk.injEq] at h
        obtain ⟨rfl, rfl⟩ := h
        rw [ih hrest]
        simp

theorem observe_concat (events : List Event) (e : Event) :
    observe (events ++ [e]) = observe events ++ e.observe := by
  simp [observe]

theorem linesOf_eq_nil {t : Trace} {generation : ℕ} (h : ∀ d ∈ t.dispatched, d.1 < generation) :
    t.linesOf generation = [] := by
  have hnone : t.dispatched.filter (fun d => d.1 = generation) = [] := by
    rw [List.filter_eq_nil_iff]
    intro d hd
    have := h d hd
    simp only [decide_eq_true_eq]
    omega
  rw [Trace.linesOf, hnone, List.flatMap_nil]

section

variable {cfg : LoadConfig} {v : Script} {r r' : Reader P} {t t' : Trace}

theorem Level.congr {sends : List (Fin n × Job)} {after : After} (h : Level v r t sends after)
    (htableDefs : r'.tableDefs = r.tableDefs) (hcurrent : r'.current = r.current)
    (hgeneration : r'.generation = r.generation) (hlines : ∀ g, t'.linesOf g = t.linesOf g) :
    Level v r' t' sends after := by
  cases after with
  | resume =>
    unfold Level at h ⊢
    rw [htableDefs, hcurrent, hgeneration, hlines]
    exact h
  | opened block =>
    unfold Level at h ⊢
    rw [htableDefs, hgeneration, hlines]
    exact h
  | collect block =>
    unfold Level at h ⊢
    rw [htableDefs, hgeneration, hlines]
    exact h

theorem Level.last {sends : List (Fin n × Job)} {after : After} (h : Level v r t sends after)
    (hcurrent : after = .resume → r.current ≠ none) :
    ∃ b, v.blocks.getLast? = some b ∧ t.linesOf r.generation ++ unsent sends = b.lines := by
  cases after with
  | resume =>
    obtain ⟨-, h⟩ := h
    cases hblock : r.current with
    | none => exact absurd hblock (hcurrent rfl)
    | some block =>
      simp only [hblock] at h
      obtain ⟨b, hb, hcopied⟩ := h
      exact ⟨b, by simp [Script.blocks, hb], hcopied.lines⟩
  | opened block =>
    obtain ⟨-, b, hb, hcopied⟩ := h
    exact ⟨b, by simp [Script.blocks, hb], hcopied.lines⟩
  | collect block =>
    obtain ⟨-, hnone, b, hb, hcopied⟩ := h
    exact ⟨b, by simp [Script.blocks, hnone, hb], hcopied.lines⟩

theorem Scripted.follow (h : Scripted cfg v r t)
    (hdispatched : ∀ d ∈ t.dispatched, d.1 ≤ r.generation)
    {obs : List Obs} (hgeneration : r'.generation = (v.follow cfg obs).blocks.length)
    (htables : r'.tables = r.tables) (htotal : r'.totalRows = r.totalRows) :
    Scripted cfg (v.follow cfg obs) r' t where
  generation := hgeneration
  begun g b hb := by
    have hextends : v.Extends (v.follow cfg obs) := v.extends_follow obs
    cases hold : v.blocks[g]? with
    | none =>
      have hlen : v.blocks.length ≤ g := List.getElem?_eq_none_iff.mp hold
      rw [linesOf_eq_nil]
      · exact List.nil_prefix
      · intro d hd
        have := hdispatched d hd
        have := h.generation
        omega
    | some b₀ =>
      obtain ⟨b', hb', hbegins⟩ := hextends.blocks g b₀ hold
      obtain rfl : b' = b := by
        rw [hb'] at hb
        exact Option.some.inj hb
      exact (h.begun g b₀ hold).trans hbegins.lines
  positive := h.positive
  loaded g stats hstats := by
    rw [htables] at hstats
    obtain ⟨b, hb, hloaded⟩ := h.loaded g stats hstats
    obtain ⟨more, hmore⟩ := (v.extends_follow obs : v.Extends (v.follow cfg obs)).closed
    refine ⟨b, ?_, hloaded⟩
    rw [← hmore, List.getElem?_append_left (List.getElem?_eq_some_iff.mp hb).1, hb]
  total := by rw [htotal, htables]; exact h.total

theorem Scripted.write (h : Scripted cfg v r t) {written : List (ℕ × RecordBatch)}
    (hwritten : ∀ w ∈ written, r.tables.length < w.1) :
    Scripted cfg v r { t with written := t.written ++ written } where
  generation := h.generation
  begun := h.begun
  positive := h.positive
  loaded g stats hstats := by
    obtain ⟨b, hb, hloaded⟩ := h.loaded g stats hstats
    refine ⟨b, hb, hloaded.congr rfl ?_⟩
    have hg : g < r.tables.length := (List.getElem?_eq_some_iff.mp hstats).1
    have hnone : written.filter (fun w => w.1 = g + 1) = [] := by
      rw [List.filter_eq_nil_iff]
      intro w hw
      have := hwritten w hw
      simp only [decide_eq_true_eq]
      omega
    simp [Trace.batchesOf, List.filter_append, hnone]
  total := h.total

/-- A job more for the block in hand. -/
theorem Scripted.send (h : Scripted cfg v r t) {i : Fin n} {job : Job}
    {rest : List (Fin n × Job)} {after : After} (hlevel : Level v r t ((i, job) :: rest) after)
    (hcurrent : after = .resume → r.current ≠ none) (hgeneration : job.generation = r.generation)
    (htables : r.tables.length + 1 = r.generation) :
    Scripted cfg v r (System.recordDispatch t job) where
  generation := h.generation
  begun g b hb := by
    rw [linesOf_sent]
    split_ifs with hg
    · obtain ⟨b', hb', hlines⟩ := hlevel.last hcurrent
      have hlen := h.generation
      obtain rfl : b' = b := by
        rw [List.getLast?_eq_getElem?, ← hlen, ← hgeneration, hg, Nat.add_sub_cancel, hb] at hb'
        exact (Option.some.inj hb').symm
      rw [← hg, hgeneration, ← hlines, unsent_cons, ← List.append_assoc]
      exact List.prefix_append _ _
    · rw [List.append_nil]
      exact h.begun g b hb
  positive d hd := by
    cases job with
    | rows generation bytes =>
      rcases List.mem_append.mp hd with hd | hd
      · exact h.positive d hd
      · obtain rfl := List.mem_singleton.mp hd
        have hgeneration : generation = r.generation := hgeneration
        show 0 < generation
        omega
    | openBlock ctx => exact h.positive d hd
    | close generation => exact h.positive d hd
  loaded g stats hstats := by
    obtain ⟨b, hb, hloaded⟩ := h.loaded g stats hstats
    have hg : g < r.tables.length := (List.getElem?_eq_some_iff.mp hstats).1
    refine ⟨b, hb, hloaded.congr ?_ ?_⟩
    · rw [linesOf_sent, if_neg (by omega), List.append_nil]
    · cases job <;> rfl
  total := h.total

theorem Level.send {i : Fin n} {job : Job} {rest : List (Fin n × Job)} {after : After}
    (h : Level v r t ((i, job) :: rest) after) (hgeneration : job.generation = r.generation) :
    Level v r (System.recordDispatch t job) rest after := by
  have hlines : (System.recordDispatch t job).linesOf r.generation ++ unsent rest =
      t.linesOf r.generation ++ unsent ((i, job) :: rest) := by
    rw [linesOf_sent, if_pos hgeneration, unsent_cons, List.append_assoc]
  cases after with
  | resume =>
    unfold Level at h ⊢
    rw [hlines]
    exact h
  | opened block =>
    unfold Level at h ⊢
    rw [hlines]
    exact h
  | collect block =>
    unfold Level at h ⊢
    rw [hlines]
    exact h

/-- The reader's answer to an event, beside the script of the event. -/
theorem Level.reacts [NeZero n] {σ σ' : Store P} {o : Outside} {event : Event}
    {reaction : Reaction P n} (h : Level (n := n) v r t [] .resume)
    (hreacts : Reader.Reacts cfg σ r o event reaction σ') {here here' : Option TableName}
    (hwithin : r.Within cfg here) (hfollow : event.follow here = some here')
    (hgeneration : r.generation = v.blocks.length)
    (hdispatched : ∀ d ∈ t.dispatched, d.1 ≤ r.generation) :
    Level (v.follow cfg event.observe) reaction.reader t reaction.sends reaction.after ∧
      reaction.reader.generation = (v.follow cfg event.observe).blocks.length := by
  obtain ⟨hdefs, hlevel⟩ := h
  cases hreacts with
  | version dumpedBy fromDatabase => exact ⟨⟨hdefs, hlevel⟩, hgeneration⟩
  | table definition =>
    refine ⟨⟨?_, hlevel⟩, hgeneration⟩
    exact congrArg (fun defs => Function.update defs definition.name.qualified (some definition))
      hdefs
  | skips table columns hcurrent hwanted =>
    -- a block of a table that is not wanted is none of the script
    simp only [hcurrent] at hlevel
    have hv : v.follow cfg (Event.copyStart table columns).observe =
        { v with closed := v.blocks, current := none } := by
      simp [Event.observe, Script.onObs, Script.onCopyStart, hwanted]
    rw [hv]
    refine ⟨⟨hdefs, ?_⟩, ?_⟩
    · simp only [hcurrent]
    · simpa [Script.blocks, hlevel] using hgeneration
  | opens table names hcurrent hwanted hreserved definition hdefinition columns hcolumns preloaded
      hpreloaded opened σ' hopened =>
    have hv : v.follow cfg (Event.copyStart table names).observe =
        { v with closed := v.blocks, current := some ⟨table, columns, []⟩ } := by
      have hdef : v.tableDefs table.qualified = some definition := by rw [hdefs, hdefinition]
      simp [Event.observe, Script.onObs, Script.onCopyStart, hwanted, Script.columnsOf, hdef,
        hcolumns, Except.toOption]
    rw [hv]
    refine ⟨⟨hdefs, _, rfl, ⟨rfl, rfl, rfl, ?_⟩⟩, ?_⟩
    -- nothing of this generation has been sent
    · have hfresh : t.linesOf (r.generation + 1) = [] :=
        linesOf_eq_nil fun d hd => Nat.lt_succ_of_le (hdispatched d hd)
      have hnone : unsent (Reader.toAll (.openBlock (Reader.blockCtx cfg (r.generation + 1)
          opened.uri columns)) : List (Fin n × Job)) = [] := unsent_toAll rfl
      simp only [Reader.openBlock, hfresh, hnone, List.append_nil]
    · simp [Reader.openBlock, Script.blocks, hgeneration, Nat.add_assoc]
  | skipRows payload hskipping =>
    have hcurrent : r.current = none := by
      cases here with
      | none => exact hwithin.1
      | some table =>
        rcases hwithin with ⟨-, hcurrent, -⟩ | ⟨hskipping', -⟩
        · exact hcurrent
        · rw [hskipping] at hskipping'
          cases hskipping'
    simp only [hcurrent] at hlevel
    have hv : v.follow cfg (Event.copyRows payload).observe = v := by
      rw [Event.observe, Script.follow_rows, hlevel]
      obtain ⟨defs, closed, current⟩ := v
      obtain rfl : current = none := hlevel
      rfl
    rw [hv]
    refine ⟨⟨hdefs, ?_⟩, hgeneration⟩
    simp only [hcurrent, hlevel]
  | rows payload hskipping block hcurrent =>
    simp only [hcurrent] at hlevel
    obtain ⟨b, hb, hcopied⟩ := hlevel
    have hv : v.follow cfg (Event.copyRows payload).observe =
        { v with current := some (b.push (Copy.rows payload)) } := by
      rw [Event.observe, Script.follow_rows, hb]
      rfl
    rw [hv]
    refine ⟨⟨hdefs, ?_⟩, ?_⟩
    · simp only [hcurrent]
      refine ⟨_, rfl, hcopied.table, hcopied.qualified, hcopied.columns, ?_⟩
      have hlines := hcopied.lines
      rw [unsent_nil, List.append_nil] at hlines
      rw [unsent_cons, unsent_nil, List.append_nil, hlines]
      rfl
    · simpa [Script.blocks, hb] using hgeneration
  | skipEnd table hskipping =>
    have hcurrent : r.current = none := by
      cases here with
      | none => exact hwithin.1
      | some table =>
        rcases hwithin with ⟨-, hcurrent, -⟩ | ⟨hskipping', -⟩
        · exact hcurrent
        · rw [hskipping] at hskipping'
          cases hskipping'
    simp only [hcurrent] at hlevel
    have hv : v.follow cfg (Event.copyEnd table).observe =
        { v with closed := v.blocks, current := none } := rfl
    rw [hv]
    refine ⟨⟨hdefs, ?_⟩, ?_⟩
    · simp only [hcurrent]
    · simpa [Script.blocks, hlevel] using hgeneration
  | ends table hskipping block hcurrent htable =>
    simp only [hcurrent] at hlevel
    obtain ⟨b, hb, hcopied⟩ := hlevel
    have hv : v.follow cfg (Event.copyEnd table).observe =
        { v with closed := v.blocks, current := none } := rfl
    rw [hv]
    refine ⟨⟨hdefs, rfl, b, ?_, hcopied.table, hcopied.qualified, hcopied.columns, ?_⟩, ?_⟩
    · simp [Script.blocks, hb]
    · rw [unsent_toAll rfl]
      exact hcopied.lines
    · simpa [Script.blocks, hb] using hgeneration

theorem Scripted.congr (h : Scripted cfg v r t) (hgeneration : r'.generation = r.generation)
    (htables : r'.tables = r.tables) (htotal : r'.totalRows = r.totalRows)
    (hdispatched : t'.dispatched = t.dispatched) (hwritten : t'.written = t.written) :
    Scripted cfg v r' t' where
  generation := hgeneration.trans h.generation
  begun g b hb := by
    rw [Trace.linesOf, hdispatched]
    exact h.begun g b hb
  positive := by
    rw [hdispatched]
    exact h.positive
  loaded g stats hstats := by
    rw [htables] at hstats
    obtain ⟨b, hb, hloaded⟩ := h.loaded g stats hstats
    exact ⟨b, hb, hloaded.congr (by rw [Trace.linesOf, hdispatched]; rfl)
      (by rw [Trace.batchesOf, hwritten]; rfl)⟩
  total := by rw [htotal, htables]; exact h.total

theorem Beside.congr {point : Point P n} (h : Beside v r t point)
    (htableDefs : r'.tableDefs = r.tableDefs)
    (hcurrent : r'.current = r.current) (hgeneration : r'.generation = r.generation)
    (htables : r'.tables = r.tables) (htotal : r'.totalRows = r.totalRows)
    (hlines : ∀ g, t'.linesOf g = t.linesOf g) : Beside v r' t' point := by
  have hreports : ∀ {report}, Reports v r report → Reports v r' report := fun hreports =>
    ⟨by rw [htables]; exact hreports.complete, by rw [htables]; exact hreports.tables,
      by rw [htotal]; exact hreports.total⟩
  have hlevel : ∀ {sends : List (Fin n × Job)} {after}, Level v r t sends after →
      Level v r' t' sends after :=
    fun hlevel => hlevel.congr htableDefs hcurrent hgeneration hlines
  cases point with
  | reading => exact @hlevel [] .resume h
  | handling events => exact @hlevel [] .resume h
  | dispatching i job rest after events => exact hlevel h
  | failedSend => trivial
  | collecting block acks events => exact @hlevel [] (.collect block) h
  | committing dumpedBy b => exact (congrArg List.length htables).trans h
  | recording report => exact hreports h
  | done result =>
    cases result with
    | ok report => exact hreports h
    | error e => trivial

end

/-! ### Every move -/

namespace System

variable {L : Load} {s : System P n}

@[simp] theorem dispatching_chunks (s : System P n) (sends : List (Fin n × Job)) (after : After)
    (events : List Event) : (s.dispatching sends after events).reader.chunks = s.reader.chunks := by
  cases sends
  · cases after <;> rfl
  · rfl

@[simp] theorem dispatching_scanner (s : System P n) (sends : List (Fin n × Job)) (after : After)
    (events : List Event) :
    (s.dispatching sends after events).reader.scanner = s.reader.scanner := by
  cases sends
  · cases after <;> rfl
  · rfl

@[simp] theorem dispatching_totalRows (s : System P n) (sends : List (Fin n × Job)) (after : After)
    (events : List Event) :
    (s.dispatching sends after events).reader.totalRows = s.reader.totalRows := by
  cases sends
  · cases after <;> rfl
  · rfl

@[simp] theorem dispatching_pending (s : System P n) (sends : List (Fin n × Job)) (after : After)
    (events : List Event) : (s.dispatching sends after events).point.pending = some events := by
  cases sends
  · cases after <;> rfl
  · rfl

@[simp] theorem dispatching_atEnd (s : System P n) (sends : List (Fin n × Job)) (after : After)
    (events : List Event) : (s.dispatching sends after events).point.atEnd = false := by
  cases sends
  · cases after <;> rfl
  · rfl

theorem Beside.dispatching {v : Script} {sends : List (Fin n × Job)} {after : After}
    (h : Level v s.reader s.trace sends after) (events : List Event) :
    Beside v (s.dispatching sends after events).reader (s.dispatching sends after events).trace
      (s.dispatching sends after events).point := by
  cases sends with
  | cons send sends => exact h
  | nil =>
    cases after with
    | resume => exact h
    | opened block => exact ⟨h.1, h.2⟩
    | collect block => exact h

/-- The last acknowledgement of a block leaves it loaded. -/
theorem Scripted.close {v : Script} {block : OpenBlock} {acks : Acks P} {c : BlockClosed P}
    {queue : List (WorkerEvent P)} {events : List Event}
    (h : Scripted L.cfg v s.reader s.trace)
    (hlevel : Level (n := n) v s.reader s.trace [] (.collect block))
    (hp : s.point = .collecting block acks events) (hstanding : s.Standing L)
    (hq : s.events = .closed c :: queue) (hlast : n ≤ acks.acked + 1) :
    Scripted L.cfg v (s.reader.closeBlock block (acks.add c)) s.trace := by
  simp only [Standing, hp] at hstanding
  obtain ⟨hcurrent, ctx, collected, hhand, hacks, hlen⟩ := hstanding
  obtain ⟨-, hnone, b, hb, hcopied⟩ := hlevel
  obtain ⟨l, hcrew⟩ := hhand.crew
  obtain ⟨uri, rfl⟩ := hhand.context
  have hgeneration := hhand.generation
  have htables := hhand.tables
  have hblocks := h.generation
  have hlines : Copied block b (s.trace.linesOf block.generation) := by
    rwa [hgeneration, ← List.append_nil (s.trace.linesOf s.reader.generation), ← unsent_nil]
  have hclosed : v.closed[s.reader.tables.length]? = some b := by
    have hlength : v.closed.length = s.reader.tables.length + 1 := by
      simp only [Script.blocks, hnone, Option.toList_none, List.append_nil] at hblocks
      omega
    rwa [List.getLast?_eq_getElem?, hlength, Nat.add_sub_cancel] at hb
  have hacks' : acks.add c = (collected ++ [c]).foldl Acks.add (.start block) := by
    rw [List.foldl_append, ← hacks]
    rfl
  have hloaded : Loaded L.cfg s.trace block.generation b (blockStats block (acks.add c)) := by
    rw [hacks']
    refine (hcrew.collect hq).loaded ?_ hlines
    rw [hacks, length_collected] at hlast
    simpa [Acks.start] using hlast
  refine ⟨h.generation, h.begun, h.positive, ?_, ?_⟩
  · intro g stats hstats
    simp only [Reader.closeBlock] at hstats
    rcases lt_or_ge g s.reader.tables.length with hg | hg
    · rw [List.getElem?_append_left hg] at hstats
      exact h.loaded g stats hstats
    · rw [List.getElem?_append_right hg, List.getElem?_singleton] at hstats
      split at hstats
      next hzero =>
        obtain rfl : g = s.reader.tables.length := by omega
        obtain rfl := Option.some.inj hstats
        refine ⟨b, hclosed, ?_⟩
        have hnext : s.reader.tables.length + 1 = block.generation := by omega
        rwa [hnext]
      next => cases hstats
  · simp only [Reader.closeBlock, List.map_append, List.sum_append, h.total]
    simp [blockStats]

/-- The script of a load that has not moved in its stream. -/
theorem Transcribed.stay {t : System P n} (h : s.Transcribed L)
    (hreader : t.reader.chunks = s.reader.chunks ∧ t.reader.scanner = s.reader.scanner)
    (hpending : ∀ events, t.point.pending = some events → s.point.pending = some events)
    (hend : t.point.atEnd = true → s.point.atEnd = true ∨ t.reader.chunks = [])
    (hkeep : ∀ v, Scripted L.cfg v s.reader s.trace → Beside v s.reader s.trace s.point →
      Scripted L.cfg v t.reader t.trace ∧ Beside v t.reader t.trace t.point) : t.Transcribed L := by
  obtain ⟨handled, ⟨⟨consumed, pending, hchunks, hfeed, hpend⟩, hended⟩, hscripted, hbeside⟩ := h
  obtain ⟨hscripted', hbeside'⟩ := hkeep _ hscripted hbeside
  refine ⟨handled, ⟨⟨consumed, pending, ?_, ?_, ?_⟩, ?_⟩, hscripted', hbeside'⟩
  · rw [hreader.1]
    exact hchunks
  · rw [hreader.2]
    exact hfeed
  · exact fun events h => hpend events (hpending events h)
  · intro h
    rcases hend h with h | h
    · rw [hreader.1]
      exact hended h
    · exact h

/-- A load that fails is left beside its script. -/
theorem Transcribed.stop (h : s.Transcribed L) {σ : Store P} {queue : List (WorkerEvent P)}
    {e : Error} :
    ({ s with store := σ, events := queue, point := .done (.error e) } :
      System P n).Transcribed L := by
  apply h.stay
  · exact ⟨rfl, rfl⟩
  · intro events hevents
    cases hevents
  · intro hend
    cases hend
  · exact fun v hscripted _ => ⟨hscripted, trivial⟩

theorem Transcribed.worker (h : s.Transcribed L) {i : Fin n} {w : Worker P}
    {more : List (WorkerEvent P)} {written : List (ℕ × RecordBatch)}
    (hwritten : ∀ b ∈ written, s.reader.tables.length < b.1) :
    (s.moved i w more written).Transcribed L := by
  apply h.stay
  · exact ⟨rfl, rfl⟩
  · exact fun events h => h
  · exact fun h => .inl h
  · intro v hscripted hbeside
    exact ⟨hscripted.write hwritten, Beside.congr hbeside rfl rfl rfl rfl rfl fun g => rfl⟩

/-- Every move keeps a load beside its script. -/
theorem Transcribed.move [NeZero n] {t : System P n} {a : Label n} (h : s.Transcribed L)
    (haccounted : s.Accounted L) (haligned : s.Aligned L) (hmove : Move L s a t) :
    t.Transcribed L := by
  have hworker : ∀ {i : Fin n} {w : Worker P} {more : List (WorkerEvent P)}
      {written : List (ℕ × RecordBatch)}, WorkerMove L.run i (s.workers i) w more written →
        (s.moved i w more written).Transcribed L := by
    intro i w more written hmove
    apply h.worker
    intro b hb
    obtain ⟨job, hjob, hgeneration⟩ := hmove.jobs_subset.2 b hb
    rw [hgeneration]
    exact (haccounted.jobs i job hjob).1
  cases hmove with
  | read o hp chunk chunks hc scanner events hf =>
    -- a chunk is asked for once all events of the last one are handled
    obtain ⟨handled, ⟨⟨consumed, pending, hchunks, hfeed, hpending⟩, hended⟩, hscripted,
      hbeside⟩ := h
    obtain rfl : pending = [] := hpending [] (by rw [hp]; rfl)
    rw [hp] at hbeside
    have hlevel : Level (n := n) _ s.reader s.trace [] .resume := hbeside
    refine ⟨handled, ⟨⟨consumed ++ [chunk], events, ?_, ?_, ?_⟩, ?_⟩,
      hscripted.congr rfl rfl rfl rfl rfl,
      hlevel.congr rfl rfl rfl fun g => rfl⟩
    · simp [hchunks, hc]
    · rw [List.map_append, List.append_nil] at *
      exact feedAll_concat hfeed hf
    · rintro events' hevents
      exact Option.some.inj hevents
    · intro hend
      cases hend
  | finish o hp hc he hf dumpedBy hd =>
    -- the scanner accepts the end, so that no block is open
    have hwithin := haligned.2
    have hstanding := haccounted.standing
    simp only [Standing, hp] at hstanding hwithin
    rw [Scanner.openTable_of_finish haligned.1 hf] at hwithin
    simp only [Settled, hwithin.1] at hstanding
    apply h.stay
    · exact ⟨rfl, rfl⟩
    · rintro events hevents
      rw [hp]
      exact hevents
    · exact fun _ => .inr hc
    · intro v hscripted hbeside
      exact ⟨hscripted, hstanding.2.trans hscripted.generation⟩
  | next o hp =>
    apply h.stay
    · exact ⟨rfl, rfl⟩
    · rintro events hevents
      rw [hp]
      exact hevents
    · intro hend
      cases hend
    · intro v hscripted hbeside
      rw [hp] at hbeside
      exact ⟨hscripted, hbeside⟩
  | event o event events hp reaction σ hevent =>
    -- the event goes over to the handled ones, and the script follows it
    obtain ⟨handled, ⟨⟨consumed, pending, hchunks, hfeed, hpending⟩, hended⟩, hscripted,
      hbeside⟩ := h
    obtain rfl : pending = event :: events := hpending _ (by rw [hp]; rfl)
    rw [hp] at hbeside
    have hwithin := haligned.2
    simp only [hp] at hwithin
    obtain ⟨here, hwithin, hfollows⟩ := hwithin
    rw [follows_cons] at hfollows
    obtain ⟨here', hfollow, -⟩ := Option.bind_eq_some_iff.mp hfollows
    have hreacts := Reader.onEvent_reacts hevent
    obtain ⟨hlevel, hgeneration⟩ := Level.reacts hbeside hreacts hwithin hfollow
      hscripted.generation haccounted.dispatched
    have hreader : reaction.reader.chunks = s.reader.chunks ∧
        reaction.reader.scanner = s.reader.scanner ∧ reaction.reader.tables = s.reader.tables ∧
          reaction.reader.totalRows = s.reader.totalRows := by
      cases hreacts <;> exact ⟨rfl, rfl, rfl, rfl⟩
    obtain ⟨hchunks', hscanner', htables', htotal'⟩ := hreader
    have hscript : script L.cfg (observe (handled ++ [event])) =
        (script L.cfg (observe handled)).follow L.cfg event.observe := by
      rw [observe_concat, script, Script.follow_append]
      rfl
    have hscripted' := hscripted.follow haccounted.dispatched hgeneration htables' htotal'
    rw [← hscript] at hlevel hscripted'
    refine ⟨handled ++ [event], ⟨⟨consumed, events, ?_, ?_, ?_⟩, ?_⟩, ?_, ?_⟩
    · rw [dispatching_chunks]
      exact hchunks.trans (by rw [hchunks'])
    · rw [dispatching_scanner]
      simpa [hscanner'] using hfeed
    · intro events' hevents'
      rw [dispatching_pending] at hevents'
      exact Option.some.inj hevents'
    · intro hend
      rw [dispatching_atEnd] at hend
      cases hend
    · refine Scripted.congr ?_ (dispatching_generation ..) (dispatching_tables ..)
        (dispatching_totalRows ..) rfl rfl
      rw [dispatching_trace]
      exact hscripted'
    · exact Beside.dispatching (s := { s with store := σ, reader := reaction.reader }) hlevel events
  | send o i job rest after events hp halive hroom =>
    -- what the job carries leaves the sends and enters the trace
    have hstanding := haccounted.standing
    simp only [Standing, hp] at hstanding
    obtain ⟨hgeneration, htables⟩ := hstanding.job_generation
    have hcurrent : after = .resume → s.reader.current ≠ none := by
      rintro rfl
      obtain ⟨-, hsends⟩ := hstanding
      obtain ⟨block, i', payload, hcurrent, -⟩ := hsends.resolve_left (by simp)
      simp [hcurrent]
    apply h.stay
    · exact ⟨dispatching_chunks .., dispatching_scanner ..⟩
    · intro events' hevents'
      rw [dispatching_pending] at hevents'
      rw [hp]
      exact hevents'
    · intro hend
      rw [dispatching_atEnd] at hend
      cases hend
    · intro v hscripted hbeside
      rw [hp] at hbeside
      refine ⟨Scripted.congr ?_ (dispatching_generation ..) (dispatching_tables ..)
        (dispatching_totalRows ..) rfl rfl, ?_⟩
      · rw [dispatching_trace]
        exact hscripted.send hbeside hcurrent hgeneration htables
      · exact Beside.dispatching
          (s := { s.setWorker i { s.workers i with jobs := (s.workers i).jobs ++ [job] } with
            trace := recordDispatch s.trace job }) (Level.send hbeside hgeneration) events
  | sendFailed o i job rest after events hp hdead =>
    -- the load is about to stop, and nothing is said beside the script
    apply h.stay
    · exact ⟨rfl, rfl⟩
    · intro events' hevents'
      cases hevents'
    · intro hend
      cases hend
    · exact fun v hscripted _ => ⟨hscripted, trivial⟩
  | ack o block acks events hp c queue hq hmore =>
    apply h.stay
    · exact ⟨rfl, rfl⟩
    · intro events' hevents'
      rw [hp]
      exact hevents'
    · intro hend
      cases hend
    · intro v hscripted hbeside
      rw [hp] at hbeside
      exact ⟨hscripted, hbeside⟩
  | close o block acks events hp c queue hq hlast =>
    have hstanding := haccounted.standing
    simp only [Standing, hp] at hstanding
    apply h.stay
    · exact ⟨rfl, rfl⟩
    · intro events' hevents'
      rw [hp]
      exact hevents'
    · intro hend
      cases hend
    · intro v hscripted hbeside
      rw [hp] at hbeside
      have hbeside : Level (n := n) v s.reader s.trace [] (.collect block) := hbeside
      refine ⟨Scripted.close hscripted hbeside hp haccounted.standing hq hlast, hbeside.1, ?_⟩
      simp only [Reader.closeBlock, hstanding.1]
      exact hbeside.2.1
  | interrupt o block acks events hp c queue hq hlast =>
    apply h.stay
    · exact ⟨rfl, rfl⟩
    · intro events' hevents'
      cases hevents'
    · intro hend
      cases hend
    · intro v hscripted hbeside
      rw [hp] at hbeside
      exact ⟨Scripted.close hscripted hbeside hp haccounted.standing hq hlast, trivial⟩
  | burst o dumpedBy b hp hover b' σ attempts hburst =>
    apply h.stay
    · exact ⟨rfl, rfl⟩
    · intro events' hevents'
      rw [hp]
      exact hevents'
    · exact fun _ => .inl (by rw [hp]; rfl)
    · intro v hscripted hbeside
      rw [hp] at hbeside
      exact ⟨hscripted.congr rfl rfl rfl rfl rfl, hbeside⟩
  | report o dumpedBy b hp hover hok hm =>
    apply h.stay
    · exact ⟨rfl, rfl⟩
    · intro events' hevents'
      rw [hp]
      exact hevents'
    · exact fun _ => .inl (by rw [hp]; rfl)
    · intro v hscripted hbeside
      rw [hp] at hbeside
      exact ⟨hscripted, hbeside, unversioned_tally _ _, rfl⟩
  | succeed o dumpedBy b hp hover hok hm =>
    apply h.stay
    · exact ⟨rfl, rfl⟩
    · intro events' hevents'
      rw [hp]
      exact hevents'
    · exact fun _ => .inl (by rw [hp]; rfl)
    · intro v hscripted hbeside
      rw [hp] at hbeside
      exact ⟨hscripted, hbeside, unversioned_tally _ _, rfl⟩
  | recorded o report hp loadId σ hrecorded =>
    apply h.stay
    · exact ⟨rfl, rfl⟩
    · intro events' hevents'
      rw [hp]
      exact hevents'
    · exact fun _ => .inl (by rw [hp]; rfl)
    · intro v hscripted hbeside
      rw [hp] at hbeside
      have hbeside : Reports v s.reader report := hbeside
      exact ⟨hscripted, hbeside.complete, hbeside.tables, hbeside.total⟩
  | stop o e hphase queue hqueue => exact h.stop
  | stopEvent o event events hp e σ hevent => exact h.stop
  | commitFailed o dumpedBy b hp hover table e hfail => exact h.stop
  | stopRecord o report hp e σ hrecord => exact h.stop
  | job i faults hrun job jobs hjobs handled hhandle =>
    simpa [moved, setWorker] using hworker (.job job jobs faults handled hrun hjobs hhandle)
  | jobFailed i faults hrun job jobs hjobs e hhandle =>
    simpa [moved, setWorker] using hworker (.jobFailed job jobs faults e hrun hjobs hhandle)
  | sendAck i faults c hstatus hroom =>
    simpa [moved, setWorker] using hworker (.sendAck c hstatus)
  | sendFailure i faults e hstatus hroom =>
    simpa [moved, setWorker] using hworker (.sendFailure e hstatus)
  | exit i faults hstatus => simpa [moved, setWorker] using hworker (.exit hstatus)
  | leave i faults hstatus hjobs hdone =>
    apply h.stay
    · exact ⟨rfl, rfl⟩
    · exact fun events hevents => hevents
    · exact fun hend => .inl hend
    · exact fun v hscripted hbeside => ⟨hscripted, hbeside⟩

theorem transcribed_start (L : Load) (σ : Store P) (faults : StartFaults) :
    (start L σ faults : System P n).Transcribed L := by
  refine ⟨[], ⟨⟨[], [], rfl, rfl, ?_⟩, ?_⟩, ⟨rfl, ?_, ?_, ?_, rfl⟩, ?_⟩
  · intro events hevents
    unfold start at hevents
    cases hstart : startError L faults with
    | some e => simp [hstart, Point.pending] at hevents
    | none => simpa [hstart, Point.pending] using hevents
  · intro hend
    unfold start at hend
    cases hstart : startError L faults with
    | some e => simp [hstart, Point.atEnd] at hend
    | none => simp [hstart, Point.atEnd] at hend
  · exact fun g b hb => by cases hb
  · exact fun d hd => by cases hd
  · exact fun g stats hstats => by cases hstats
  · unfold start
    cases hstart : startError L faults with
    | some e => trivial
    | none => exact ⟨rfl, rfl⟩

/-- Every load stays beside the script of its dump. -/
theorem Reachable.transcribed [NeZero n] {σ : Store P} (h : Reachable L σ s) :
    s.Transcribed L := by
  obtain ⟨faults, labels, hrun⟩ := h
  have hkeep : ∀ (s : System P n) a t, (s.Accounted L ∧ s.Aligned L) ∧ s.Transcribed L →
      step L s a = some t → (t.Accounted L ∧ t.Aligned L) ∧ t.Transcribed L := by
    rintro s a t ⟨⟨haccounted, haligned⟩, htranscribed⟩ hstep
    have hmove := step_move hstep
    exact ⟨⟨haccounted.move haligned hmove, haligned.move hmove⟩,
      htranscribed.move haccounted haligned hmove⟩
  exact (runFrom_invariant hkeep ⟨⟨accounted_start L σ faults, aligned_start L σ faults⟩,
    transcribed_start L σ faults⟩ hrun).2

/-! ### The whole dump -/

/-- What a load has read of a dump that arrives in whole lines is the beginning
of its script, and all of it once the load succeeds. -/
theorem Transcribed.extends (h : s.Transcribed L)
    (haligned : LineAligned (L.input.chunks.map Chunk.bytes)) {scanner : Scanner}
    {events : List Event}
    (hscan : L.cfg.scanner.feedAll [(L.input.chunks.map Chunk.bytes).flatten] =
      .ok (scanner, events)) :
    ∃ v : Script, Scripted L.cfg v s.reader s.trace ∧ Beside v s.reader s.trace s.point ∧
      v.Extends (script L.cfg (observe events)) ∧
        ∀ report, s.point = .done (.ok report) → v = script L.cfg (observe events) := by
  obtain ⟨handled, ⟨⟨consumed, pending, hchunks, hfeed, hpending⟩, hended⟩, hscripted, hbeside⟩ := h
  rw [hchunks, List.map_append] at haligned hscan
  obtain ⟨hinit, hall⟩ := observe_prefix haligned hfeed hscan
  refine ⟨_, hscripted, hbeside, ?_, ?_⟩
  · apply script_extends
    rw [observe_append] at hinit
    exact (List.prefix_append _ _).trans hinit
  · intro report hp
    obtain rfl : pending = [] := hpending [] (by rw [hp]; rfl)
    have hnil : s.reader.chunks = [] := hended (by rw [hp]; rfl)
    rw [List.append_nil] at hall
    rw [(hall (by rw [hnil]; rfl)).1]

/-- What a load makes of the wanted blocks of a dump. -/
structure Refines (cfg : LoadConfig) (blocks : List DumpBlock) (s : System P n) : Prop where
  length_le : s.reader.tables.length ≤ blocks.length
  loaded : ∀ (g : ℕ) b stats, blocks[g]? = some b → s.reader.tables[g]? = some stats →
    Loaded cfg s.trace (g + 1) b stats
  total : s.reader.totalRows =
    ((blocks.take s.reader.tables.length).map fun b => b.lines.length).sum
  /-- A line that reaches a worker is one of a wanted block. -/
  dispatched : ∀ d ∈ s.trace.dispatched, ∃ (g : ℕ) (b : DumpBlock), d.1 = g + 1 ∧
    blocks[g]? = some b ∧ s.trace.linesOf d.1 <+: b.lines
  report : ∀ report, s.point = .done (.ok report) →
    report.tables.length = blocks.length ∧
      report.totalRows = (blocks.map fun b => b.lines.length).sum ∧
      ∀ (g : ℕ) b stats, blocks[g]? = some b → report.tables[g]? = some stats →
        Loaded cfg s.trace (g + 1) b stats

/-- Whatever the schedule, the chunks and the batch bounds, every wanted block
is decoded as it would be in order, and no line of another one is dispatched.
The lines of a block are those between its header and its terminator. -/
theorem decoding_refines [NeZero n] {σ : Store P} {scanner : Scanner} {events : List Event}
    (haligned : LineAligned (L.input.chunks.map Chunk.bytes))
    (hscan : L.cfg.scanner.feedAll [(L.input.chunks.map Chunk.bytes).flatten] =
      .ok (scanner, events)) (h : Reachable L σ s) :
    Refines L.cfg (wantedBlocks L.cfg events) s := by
  obtain ⟨v, hscripted, hbeside, hextends, hwhole⟩ := h.transcribed.extends haligned hscan
  have hclosed : ∀ (g : ℕ) stats, s.reader.tables[g]? = some stats →
      ∃ b, (wantedBlocks L.cfg events)[g]? = some b ∧ Loaded L.cfg s.trace (g + 1) b stats := by
    intro g stats hstats
    obtain ⟨b, hb, hloaded⟩ := hscripted.loaded g stats hstats
    obtain ⟨more, hmore⟩ := hextends.closed
    refine ⟨b, ?_, hloaded⟩
    rw [wantedBlocks, Script.blocks, ← hmore, List.append_assoc,
      List.getElem?_append_left (List.getElem?_eq_some_iff.mp hb).1, hb]
  have hloaded : ∀ (g : ℕ) b stats, (wantedBlocks L.cfg events)[g]? = some b →
      s.reader.tables[g]? = some stats → Loaded L.cfg s.trace (g + 1) b stats := by
    intro g b stats hb hstats
    obtain ⟨b', hb', hloaded⟩ := hclosed g stats hstats
    rw [hb] at hb'
    rwa [Option.some.inj hb']
  have hlength : s.reader.tables.length ≤ (wantedBlocks L.cfg events).length := by
    by_contra hlt
    obtain ⟨b, hb, -⟩ := hclosed (wantedBlocks L.cfg events).length _
      (List.getElem?_eq_getElem (Nat.lt_of_not_le hlt))
    simp at hb
  have htotal : s.reader.totalRows = (((wantedBlocks L.cfg events).take
      s.reader.tables.length).map fun b => b.lines.length).sum := by
    rw [hscripted.total]
    congr 1
    apply List.ext_getElem
    · simpa using hlength
    · intro g hg hg'
      simp only [List.length_map] at hg
      have := hloaded g _ _ (List.getElem?_eq_getElem (hg.trans_le hlength))
        (List.getElem?_eq_getElem hg)
      simpa using this.rows
  refine ⟨hlength, hloaded, htotal, ?_, ?_⟩
  · intro d hd
    -- generations count from one, and the blocks of the script from zero
    have hpos := hscripted.positive d hd
    have hle := h.accounted.1.dispatched d hd
    rw [hscripted.generation] at hle
    have hlt : d.1 - 1 < v.blocks.length := by omega
    have hnext : d.1 - 1 + 1 = d.1 := by omega
    have hbegun := hscripted.begun (d.1 - 1) _ (List.getElem?_eq_getElem hlt)
    rw [hnext] at hbegun
    obtain ⟨b', hb', hbegins⟩ := hextends.blocks _ _ (List.getElem?_eq_getElem hlt)
    exact ⟨d.1 - 1, b', by omega, hb', hbegun.trans hbegins.lines⟩
  · intro report hp
    obtain rfl := hwhole report hp
    rw [hp] at hbeside
    have hreports : Reports _ s.reader report := hbeside
    have hlen : report.tables.length = s.reader.tables.length := by
      simpa using congrArg List.length hreports.tables
    have hcomplete : s.reader.tables.length = (wantedBlocks L.cfg events).length :=
      hreports.complete
    refine ⟨hlen.trans hcomplete, ?_, ?_⟩
    · rw [hreports.total, htotal, hcomplete, List.take_length]
    · intro g b stats hb hstats
      have hg : g < s.reader.tables.length := by
        rw [← hlen]
        exact (List.getElem?_eq_some_iff.mp hstats).1
      refine (hloaded g b _ hb (List.getElem?_eq_getElem hg)).of_unversioned ?_
      have hunversioned := congrArg (fun tables => tables[g]?) hreports.tables
      simp only [List.getElem?_map, hstats, List.getElem?_eq_getElem hg, Option.map_some,
        Option.some.injEq] at hunversioned
      exact hunversioned

/-- A dump of two tables, one of which is not wanted, in two chunks. -/
def selective : Load where
  cfg := { outputUri := "out", tables := some ["t"], writeManifest := false }
  input :=
    { chunks :=
        [⟨unlines newline [ascii "-- Dumped by pg_dump version 17.2",
          ascii "CREATE TABLE u (a text);",
            ascii "CREATE TABLE t (", ascii "    a integer", ascii ");",
            ascii "COPY u (a) FROM stdin;", ascii "x", ascii "\\.",
            ascii "COPY t (a) FROM stdin;", ascii "1"], 0⟩,
          ⟨unlines newline [ascii "2", ascii "3", ascii "\\."], 0⟩] }

/-- The second worker is done with the block before the first one begins. -/
def secondFirst : List (Label 2) :=
  List.replicate 19 (.reader {}) ++
    (List.finRange 2).reverse.flatMap (fun i => List.replicate 4 (.worker i {})) ++
      List.replicate 8 (.reader {})

/-- A load that has succeeded with some number of rows. -/
def succeededWith (rows : ℕ) (s : System P n) : Bool :=
  match s.point with
  | .done (.ok report) => report.totalRows == rows
  | _ => false

theorem decoding_refines_selective :
    ∃ (events : List Event) (s : System .plain 2), Reachable selective (fun _ => []) s ∧
      succeededWith 3 s = true ∧
      (wantedBlocks selective.cfg events).map DumpBlock.lines =
        [[ascii "1", ascii "2", ascii "3"]] ∧
      Refines selective.cfg (wantedBlocks selective.cfg events) s := by
  have hrun : (runFrom (step selective) (start selective (fun _ => []) {} : System .plain 2)
      secondFirst).any (succeededWith 3) = true := by decide +kernel
  obtain ⟨s, hs, hrows⟩ := exists_reachable hrun
  have hscan : ((selective.cfg.scanner.feedAll
      [(selective.input.chunks.map Chunk.bytes).flatten]).toOption.map fun r =>
        (wantedBlocks selective.cfg r.2).map DumpBlock.lines) =
          some [[ascii "1", ascii "2", ascii "3"]] := by decide +kernel
  cases hfeed : selective.cfg.scanner.feedAll
      [(selective.input.chunks.map Chunk.bytes).flatten] with
  | error e => simp [hfeed, Except.toOption] at hscan
  | ok r =>
    rw [hfeed] at hscan
    exact ⟨r.2, s, hs, hrows, Option.some.inj hscan, decoding_refines (by decide +kernel) hfeed hs⟩

end System

end PgDelta.Pipeline
