import PgDelta.Anonymise.Rows

/-!
Whether a rewritten dump is still loaded.

The tool and the loader read a dump side by side. Where both take the same lines
for rows, and every row of a block that is loaded survives, what the tool writes
is loaded to the same tables and to the first rows of each, NULL where they were.
-/

namespace PgDelta.Anonymise

open PgDelta.Lib PgDelta.Copy PgDelta.Scan PgDelta.Builders PgDelta.Types PgDelta.Pipeline

/-! ### The dump as the tool and the loader read it -/

/-- The loader behind a line of a dump, and whether the tool takes the next line
for a row. -/
structure Pass where
  inCopy : Bool := false
  reading : Reading

variable (cfg : LoadConfig)

namespace Pass

/-- Whether the tool is inside a block behind a line. -/
def follows (inCopy : Bool) (line : Bytes) : Bool :=
  if inCopy then decide (line ≠ endOfData) else (copyTarget line).isSome

def line (p : Pass) (line : Bytes) : Option Pass :=
  (p.reading.line cfg line).map fun reading => ⟨follows p.inCopy line, reading⟩

def start : Pass where
  reading := .start cfg

/-- The tool takes a line for a row where the loader does, also of each block
that is not skipped, and the fields of a row of such a block survive. -/
def LineSurvives (p : Pass) (line : Bytes) : Prop :=
  line ≠ endOfData →
    (p.inCopy = true → p.reading.scanner.state = .copy) ∧
      (p.reading.scanner.state = .copy → p.reading.loader.skipping = false →
        p.inCopy = true ∧ ∀ b, p.reading.loader.current = some b → RowSurvives cfg b.columns line)

theorem exists_runFrom {p : Pass} {ls : List Bytes} {reading : Reading}
    (h : runFrom (Reading.line cfg) p.reading ls = some reading) :
    ∃ inCopy, runFrom (line cfg) p ls = some ⟨inCopy, reading⟩ := by
  induction ls generalizing p with
  | nil =>
      obtain rfl : p.reading = reading := by simpa using h
      exact ⟨p.inCopy, rfl⟩
  | cons l ls ih =>
      obtain ⟨reading₁, hreading₁, h⟩ := runFrom_cons.1 h
      obtain ⟨inCopy, hrun⟩ := @ih ⟨follows p.inCopy l, reading₁⟩ h
      exact ⟨inCopy, runFrom_cons.2 ⟨_, by rw [line, hreading₁]; rfl, hrun⟩⟩

end Pass

/-! ### One line of the tool -/

namespace Tool

variable (synth : Synth) (maxRows : Option ℕ)

/-- A line that is no row is written as it is. -/
theorem line_kept {t : Tool} {l : Bytes} (h : t.inCopy = true → l = endOfData) :
    (t.line synth maxRows l).2 = some l
      ∧ (t.line synth maxRows l).1.inCopy = Pass.follows t.inCopy l
      ∧ ((t.line synth maxRows l).1.inCopy = true → (t.line synth maxRows l).1.emitted = 0) := by
  unfold line Pass.follows
  by_cases hcopy : t.inCopy = true
  · rw [if_pos hcopy, if_pos hcopy, if_pos (h hcopy)]
    exact ⟨rfl, by simp [h hcopy], fun hfalse => by cases hfalse⟩
  · rw [if_neg hcopy, if_neg hcopy, outside]
    cases copyTarget l with
    | none => exact ⟨rfl, by simpa using hcopy, fun htrue => absurd htrue hcopy⟩
    | some target => exact ⟨rfl, rfl, fun _ => rfl⟩

/-- A row beyond the limit is counted, and that is all. -/
theorem line_dropped {t : Tool} {l : Bytes} (hcopy : t.inCopy = true) (hl : l ≠ endOfData) {n : ℕ}
    (hmax : maxRows = some n) (hfull : n ≤ t.emitted) :
    (t.line synth maxRows l).2 = none ∧ (t.line synth maxRows l).1.inCopy = true
      ∧ (t.line synth maxRows l).1.emitted = t.emitted := by
  subst hmax
  have hany : ((some n).any fun n => decide (n ≤ t.emitted)) = true := by simpa using hfull
  rw [line, if_pos hcopy, if_neg hl, row]
  dsimp only
  rw [if_pos hany]
  exact ⟨rfl, hcopy, rfl⟩

theorem line_row {t : Tool} {l : Bytes} (hcopy : t.inCopy = true) (hl : l ≠ endOfData)
    (hroom : ∀ n, maxRows = some n → t.emitted < n) :
    (t.line synth maxRows l).2 = some (rebuildRow synth t.table (t.rowIndex + 1) l)
      ∧ (t.line synth maxRows l).1.inCopy = true
      ∧ (t.line synth maxRows l).1.emitted = t.emitted + 1 := by
  have hany : ¬(maxRows.any fun n => decide (n ≤ t.emitted)) = true := by
    cases maxRows with
    | none => simp
    | some n => simpa using hroom n rfl
  rw [line, if_pos hcopy, if_neg hl, row]
  dsimp only
  rw [if_neg hany]
  exact ⟨rfl, hcopy, rfl⟩

theorem line_plain {t : Tool} {l : Bytes} (hl : PlainLine l) :
    ∀ out, (t.line synth maxRows l).2 = some out → PlainLine out := by
  intro out hout
  by_cases hrow : t.inCopy = true ∧ l ≠ endOfData
  · obtain ⟨hcopy, hne⟩ := hrow
    by_cases hroom : ∀ n, maxRows = some n → t.emitted < n
    · rw [(line_row synth maxRows hcopy hne hroom).1] at hout
      obtain rfl := Option.some.inj hout
      exact (rebuildRow_rebuilt ..).2.plain hl
    · simp only [not_forall, not_lt] at hroom
      obtain ⟨n, hmax, hfull⟩ := hroom
      rw [(line_dropped synth maxRows hcopy hne hmax hfull).1] at hout
      cases hout
  · rw [(line_kept synth maxRows fun hcopy => by_contra fun hne => hrow ⟨hcopy, hne⟩).1] at hout
    obtain rfl := Option.some.inj hout
    exact hl

theorem lines_plain {t : Tool} {ls : List Bytes} (hls : ∀ l ∈ ls, PlainLine l) :
    ∀ out ∈ (t.lines synth maxRows ls).2, PlainLine out := by
  induction ls generalizing t with
  | nil => exact fun out hout => by cases hout
  | cons l ls ih =>
      intro out hout
      have hlines : (t.lines synth maxRows (l :: ls)).2 = (t.line synth maxRows l).2.toList
          ++ ((t.line synth maxRows l).1.lines synth maxRows ls).2 := rfl
      rw [hlines, List.mem_append, Option.mem_toList] at hout
      rcases hout with hout | hout
      · exact line_plain synth maxRows (hls l List.mem_cons_self) out hout
      · exact ih (fun l hl => hls l (List.mem_cons_of_mem _ hl)) out hout

end Tool

/-! ### What the tool writes, and the loader behind it -/

/-- The tool behind a line, and the loader behind what was written until then. -/
structure Rewriting where
  tool : Tool := {}
  reading : Reading

namespace Rewriting

variable (synth : Synth) (maxRows : Option ℕ)

/-- The loader behind what is written for a line, if anything is. -/
def read (reading : Reading) : Option Bytes → Option Reading
  | none => some reading
  | some out => reading.line cfg out

def line (r : Rewriting) (line : Bytes) : Option Rewriting :=
  let (tool, out) := r.tool.line synth maxRows line
  (read cfg r.reading out).map fun reading => ⟨tool, reading⟩

theorem line_eq_some {r r' : Rewriting} {l : Bytes} :
    r.line cfg synth maxRows l = some r' ↔
      r'.tool = (r.tool.line synth maxRows l).1 ∧
        read cfg r.reading (r.tool.line synth maxRows l).2 = some r'.reading := by
  obtain ⟨tool', reading'⟩ := r'
  rw [line]
  cases r.tool.line synth maxRows l with
  | mk tool out =>
      dsimp only
      rw [Option.map_eq_some_iff]
      constructor
      · rintro ⟨reading, hreading, heq⟩
        obtain ⟨rfl, rfl⟩ := Rewriting.mk.inj heq
        exact ⟨rfl, hreading⟩
      · rintro ⟨rfl, hreading⟩
        exact ⟨reading', hreading, rfl⟩

/-- A run is one of the tool, and one of the loader over what the tool wrote. -/
theorem runFrom_lines {r r' : Rewriting} {ls : List Bytes}
    (h : runFrom (line cfg synth maxRows) r ls = some r') :
    runFrom (Reading.line cfg) r.reading (r.tool.lines synth maxRows ls).2 = some r'.reading := by
  induction ls generalizing r with
  | nil =>
      obtain rfl : r = r' := by simpa using h
      rfl
  | cons l ls ih =>
      obtain ⟨r₁, hr₁, h⟩ := runFrom_cons.1 h
      have ih := ih h
      obtain ⟨htool, hread⟩ := (line_eq_some cfg synth maxRows).1 hr₁
      have hlines : (r.tool.lines synth maxRows (l :: ls)).2
          = (r.tool.line synth maxRows l).2.toList ++ (r₁.tool.lines synth maxRows ls).2 := by
        rw [htool]
        rfl
      rw [hlines]
      cases hout : (r.tool.line synth maxRows l).2 with
      | none =>
          rw [hout] at hread
          rw [Option.some.inj hread]
          exact ih
      | some out =>
          rw [hout] at hread
          exact runFrom_cons.2 ⟨r₁.reading, hread, ih⟩

end Rewriting

/-! ### One line of the loader -/

variable {cfg} {maxRows : Option ℕ}

theorem lineStep_row {s : Scanner} {l : Bytes} (hstate : s.state = .copy) (hl : PlainLine l)
    (hne : l ≠ endOfData) : s.lineStep false l = .ok (s, [.row l]) := by
  have hend : isEndOfData l = false := by simpa [isEndOfData] using hne
  simp [Scanner.lineStep, hstate, hend, Scanner.readRow, hl.stripCr_eq]

theorem reading_row {reading : Reading} {l : Bytes} (hstate : reading.scanner.state = .copy)
    (hl : PlainLine l) (hne : l ≠ endOfData) {reading' : Reading} :
    reading.line cfg l = some reading' ↔
      ∃ loader, reading.loader.row cfg l = .ok loader ∧ reading' = ⟨reading.scanner, loader⟩ := by
  rw [Reading.line, lineStep_row hstate hl hne]
  simp only [List.foldlM_cons, List.foldlM_nil, Loader.onObs, bind_pure]
  cases reading.loader.row cfg l with
  | error e => simp
  | ok loader => simp [eq_comm]

/-- A line that is no row brings events only, and the header of a block if it
leads into one. -/
theorem lineStep_kept {s s' : Scanner} {l : Bytes} {obs : List Obs}
    (hkept : s.state = .copy → l = endOfData) (hstep : s.lineStep false l = .ok (s', obs)) :
    (∀ o ∈ obs, eventOnly o)
      ∧ (s'.state = .copy → ∃ table columns, obs = [.event (.copyStart table columns)]) := by
  have hmap : ∀ {events : List Event}, (∀ payload, Event.copyRows payload ∉ events) →
      ∀ o ∈ observe events, eventOnly o := by
    intro events hrows o ho
    rw [observe_eq_map hrows] at ho
    obtain ⟨e, he, rfl⟩ := List.mem_map.1 ho
    exact ⟨e, rfl, fun payload heq => hrows payload (heq ▸ he)⟩
  rw [Scanner.lineStep] at hstep
  cases hstate : s.state with
  | copy =>
      obtain rfl := hkept hstate
      simp only [hstate, show isEndOfData (stripCr endOfData) = true by decide, if_true] at hstep
      obtain ⟨rfl, rfl⟩ := Prod.mk.inj (Except.ok.inj hstep)
      unfold Scanner.closeCopy
      cases s.openTable with
      | none => exact ⟨hmap (by simp), fun hcopy => by cases hcopy⟩
      | some table => exact ⟨hmap (by simp), fun hcopy => by cases hcopy⟩
  | sql =>
      simp only [hstate] at hstep
      cases hline : s.sqlLine (stripCr l) with
      | error e => simp [hline] at hstep
      | ok r =>
          obtain ⟨s₁, events⟩ := r
          rw [hline, observed_ok] at hstep
          obtain ⟨rfl, rfl⟩ := Prod.mk.inj (Except.ok.inj hstep)
          have hsql := Scanner.sqlLine_step hline
          refine ⟨hmap hsql.events.2, fun hcopy => ?_⟩
          cases hsql with
          | header hskip hcreate hheader table columns hparse => exact ⟨table, columns, rfl⟩
          | _ => simp [hstate] at hcopy

/-- Events are followed alike where what was read before is alike. -/
theorem resembles_foldlM {l l' m : Loader} (h : l.Resembles maxRows l') {obs : List Obs}
    (hobs : ∀ o ∈ obs, eventOnly o) (hm : obs.foldlM (Loader.onObs cfg) l = .ok m) :
    ∃ m', obs.foldlM (Loader.onObs cfg) l' = .ok m' ∧ m.Resembles maxRows m' := by
  induction obs generalizing l l' with
  | nil =>
      obtain rfl := Except.ok.inj hm
      exact ⟨l', rfl, h⟩
  | cons o obs ih =>
      rw [List.foldlM_cons] at hm
      cases hone : l.onObs cfg o with
      | error e => simp [hone, bind, Except.bind] at hm
      | ok l₁ =>
          rw [hone] at hm
          obtain ⟨l₁', hone', h₁⟩ := h.onObs (hobs o List.mem_cons_self) hone
          obtain ⟨m', hm', hmm'⟩ := ih h₁ (fun o ho => hobs o (List.mem_cons_of_mem _ ho)) hm
          exact ⟨m', by rw [List.foldlM_cons, hone']; exact hm', hmm'⟩

/-- A block begins without rows. -/
theorem onCopyStart_rows {l m : Loader} {table : TableName} {columns : List String}
    (h : l.onCopyStart cfg table columns = .ok m) : ∀ b, m.current = some b → b.rows = [] := by
  intro b hb
  unfold Loader.onCopyStart at h
  split_ifs at h with hopen hreserved hwanted
  · unfold Loader.openWanted at h
    cases hdef : l.tableDefs table.qualified with
    | none => simp [hdef] at h
    | some definition =>
        cases hcolumns : resolveCopyColumns definition columns with
        | error e => simp [hdef, hcolumns] at h
        | ok columns =>
            simp only [hdef, hcolumns] at h
            obtain rfl := Except.ok.inj h
            obtain rfl := Option.some.inj hb
            rfl
  · obtain rfl := Except.ok.inj h
    have hnone : l.current = none := by simpa using hopen
    rw [hnone] at hb
    cases hb

/-! ### The simulation -/

/-- The tool and what it wrote follow the dump: they are in the same block or in
none, and of its rows the first were written. -/
structure Tracks (maxRows : Option ℕ) (p : Pass) (r : Rewriting) : Prop where
  inCopy : r.tool.inCopy = p.inCopy
  scanner : r.reading.scanner = p.reading.scanner
  loader : p.reading.loader.Resembles maxRows r.reading.loader
  emitted : p.reading.scanner.state = .copy → p.inCopy = true → p.reading.loader.skipping = false →
    ∀ b, p.reading.loader.current = some b → ∀ n, maxRows = some n →
      r.tool.emitted = min b.rows.length n

theorem Tracks.start : Tracks maxRows (.start cfg) { reading := .start cfg } :=
  ⟨rfl, rfl, .start maxRows, fun hcopy => by cases hcopy⟩

theorem Tracks.kept {p q : Pass} {r : Rewriting} (h : Tracks maxRows p r) {l : Bytes}
    (hcopy : p.inCopy = true → l = endOfData)
    (hstate : p.reading.scanner.state = .copy → l = endOfData) (hq : p.line cfg l = some q)
    (synth : Synth) :
    ∃ r', r.line cfg synth maxRows l = some r' ∧ Tracks maxRows q r' := by
  obtain ⟨hout, hfollows, hemitted⟩ := Tool.line_kept synth maxRows (h.inCopy ▸ hcopy)
  obtain ⟨reading, hreading, rfl⟩ := Option.map_eq_some_iff.1 hq
  rw [Reading.line] at hreading
  cases hstep : p.reading.scanner.lineStep false l with
  | error e => simp [hstep] at hreading
  | ok s =>
      obtain ⟨scanner, obs⟩ := s
      simp only [hstep] at hreading
      obtain ⟨hobs, hheader⟩ := lineStep_kept hstate hstep
      cases hfold : obs.foldlM (Loader.onObs cfg) p.reading.loader with
      | error e => simp [hfold] at hreading
      | ok loader =>
          simp only [hfold] at hreading
          obtain rfl := Option.some.inj hreading
          obtain ⟨loader', hfold', hresembles⟩ := resembles_foldlM h.loader hobs hfold
          refine ⟨⟨(r.tool.line synth maxRows l).1, ⟨scanner, loader'⟩⟩, ?_, ?_, rfl,
            hresembles, ?_⟩
          · rw [Rewriting.line_eq_some, hout, Rewriting.read, Reading.line, h.scanner, hstep]
            exact ⟨rfl, by simp only [hfold']⟩
          · rw [hfollows, h.inCopy]
          · intro hcopy' hinside hskipping b hb n hn
            obtain ⟨table, columns, rfl⟩ := hheader hcopy'
            have hrows : b.rows = [] := by
              refine @onCopyStart_rows cfg p.reading.loader loader table columns ?_ b hb
              simpa [Loader.onObs, Loader.onEvent] using hfold
            rw [hrows, hemitted (by rw [hfollows, h.inCopy]; exact hinside)]
            simp

theorem resembles_dropped {n : ℕ} {l l' m : Loader} {line : Bytes} (h : l.Resembles (some n) l')
    (hm : l.row cfg line = .ok m)
    (hfull : l.skipping = false → ∀ b, l.current = some b → n ≤ b.rows.length) :
    m.Resembles (some n) l' := by
  unfold Loader.row at hm
  split_ifs at hm with hskipping
  · obtain rfl := Except.ok.inj hm
    exact h
  · have hfull := hfull (by simpa using hskipping)
    have hcurrent := h.current
    cases hb : l.current with
    | none => simp [hb] at hm
    | some b =>
        simp only [hb] at hm
        cases hvalues : (Loader.ctx cfg b).valuesOf line with
        | error e => simp [hvalues] at hm
        | ok values =>
            simp only [hvalues] at hm
            obtain rfl := Except.ok.inj hm
            rw [hb] at hcurrent
            generalize hcurrent' : l'.current = current' at hcurrent
            cases hcurrent with
            | some hbb =>
                refine ⟨h.tableDefs, h.definitions, h.headers, h.blocks, ?_, h.skipping⟩
                rw [hcurrent']
                exact .some (hbb.drop (hfull b hb) values)

theorem resembles_row {l l' m : Loader} {line line' : Bytes} (h : l.Resembles maxRows l')
    (hm : l.row cfg line = .ok m)
    (hrow : l.skipping = false → ∀ b, l.current = some b →
      (∀ n, maxRows = some n → b.rows.length < n) ∧
        ∀ values, (Loader.ctx cfg b).valuesOf line = .ok values →
          ∃ values', (Loader.ctx cfg b).valuesOf line' = .ok values'
            ∧ values'.map Option.isNone = values.map Option.isNone) :
    ∃ m', l'.row cfg line' = .ok m' ∧ m.Resembles maxRows m' := by
  unfold Loader.row at hm ⊢
  rw [h.skipping]
  split_ifs at hm ⊢ with hskipping
  · obtain rfl := Except.ok.inj hm
    exact ⟨l', rfl, h⟩
  · have hrow := hrow (by simpa using hskipping)
    have hcurrent := h.current
    cases hb : l.current with
    | none => simp [hb] at hm
    | some b =>
        obtain ⟨hroom, hread⟩ := hrow b hb
        simp only [hb] at hm
        cases hvalues : (Loader.ctx cfg b).valuesOf line with
        | error e => simp [hvalues] at hm
        | ok values =>
            simp only [hvalues] at hm
            obtain rfl := Except.ok.inj hm
            obtain ⟨values', hvalues', hnone⟩ := hread values hvalues
            rw [hb] at hcurrent
            generalize hcurrent' : l'.current = current' at hcurrent
            cases hcurrent with
            | @some _ b' hbb =>
                have hctx : Loader.ctx cfg b' = Loader.ctx cfg b := by
                  rw [Loader.ctx, Loader.ctx, hbb.columns]
                dsimp only
                rw [hctx, hvalues']
                exact ⟨_, rfl, ⟨h.tableDefs, h.definitions, h.headers, h.blocks,
                  .some (hbb.push hnone hroom), rfl⟩⟩

theorem row_current {l m : Loader} {line : Bytes} (hm : l.row cfg line = .ok m) :
    m.skipping = l.skipping ∧ (l.skipping = false → ∀ b, m.current = some b →
      ∃ b₀, l.current = some b₀ ∧ b.rows.length = b₀.rows.length + 1) := by
  unfold Loader.row at hm
  split_ifs at hm with hskipping
  · obtain rfl := Except.ok.inj hm
    exact ⟨rfl, fun hfalse => by simp [hskipping] at hfalse⟩
  · cases hb : l.current with
    | none => simp [hb] at hm
    | some b₀ =>
        simp only [hb] at hm
        cases hvalues : (Loader.ctx cfg b₀).valuesOf line with
        | error e => simp [hvalues] at hm
        | ok values =>
            simp only [hvalues] at hm
            obtain rfl := Except.ok.inj hm
            refine ⟨rfl, fun _ b hbb => ⟨b₀, rfl, ?_⟩⟩
            obtain rfl := Option.some.inj hbb
            simp

theorem Tracks.row {p q : Pass} {r : Rewriting} (h : Tracks maxRows p r) {l : Bytes}
    (hl : PlainLine l) (hne : l ≠ endOfData) (hcopy : p.inCopy = true)
    (hstate : p.reading.scanner.state = .copy)
    (hsurvives : p.reading.loader.skipping = false →
      ∀ b, p.reading.loader.current = some b → RowSurvives cfg b.columns l)
    (hq : p.line cfg l = some q) (synth : Synth) :
    ∃ r', r.line cfg synth maxRows l = some r' ∧ Tracks maxRows q r' := by
  obtain ⟨reading, hreading, rfl⟩ := Option.map_eq_some_iff.1 hq
  obtain ⟨loader, hloader, rfl⟩ := (reading_row hstate hl hne).1 hreading
  have hinCopy : r.tool.inCopy = true := h.inCopy.trans hcopy
  have hfollows : Pass.follows p.inCopy l = true := by simp [Pass.follows, hcopy, hne]
  obtain ⟨hskipping, hcurrent⟩ := row_current hloader
  have hemitted := h.emitted hstate hcopy
  by_cases hroom : ∀ n, maxRows = some n → r.tool.emitted < n
  · obtain ⟨hout, hcopy', hcount⟩ := Tool.line_row synth maxRows hinCopy hne hroom
    obtain ⟨-, hrebuilt⟩ := Tool.rebuildRow_rebuilt synth r.tool.table (r.tool.rowIndex + 1) l
    have hne' : Tool.rebuildRow synth r.tool.table (r.tool.rowIndex + 1) l ≠ endOfData :=
      fun hend => hne (hrebuilt.eq_endOfData hend)
    obtain ⟨loader', hloader', hresembles⟩ := resembles_row h.loader hloader fun hskip b hb =>
      ⟨fun n hn => by have := hroom n hn; have := hemitted hskip b hb n hn; omega,
        fun values hvalues => valuesOf_rebuildRow (hsurvives hskip b hb) hvalues synth
          r.tool.table (r.tool.rowIndex + 1)⟩
    refine ⟨⟨(r.tool.line synth maxRows l).1, ⟨r.reading.scanner, loader'⟩⟩, ?_, ?_, h.scanner,
      hresembles, ?_⟩
    · rw [Rewriting.line_eq_some, hout]
      refine ⟨rfl, (reading_row ?_ (hrebuilt.plain hl) hne').2 ⟨loader', hloader', rfl⟩⟩
      rw [h.scanner, hstate]
    · rw [hcopy', hfollows]
    · intro _ _ hskip b hb n hn
      obtain ⟨b₀, hb₀, hlen⟩ := hcurrent (hskipping ▸ hskip) b hb
      have hbefore := hemitted (hskipping ▸ hskip) b₀ hb₀ n hn
      have hless := hroom n hn
      rw [hcount, hlen]
      omega
  · simp only [not_forall, not_lt] at hroom
    obtain ⟨n, rfl, hfull⟩ := hroom
    obtain ⟨hout, hcopy', hcount⟩ := Tool.line_dropped synth (some n) hinCopy hne rfl hfull
    refine ⟨⟨(r.tool.line synth (some n) l).1, r.reading⟩, ?_, ?_, h.scanner, ?_, ?_⟩
    · rw [Rewriting.line_eq_some, hout]
      exact ⟨rfl, rfl⟩
    · rw [hcopy', hfollows]
    · refine resembles_dropped h.loader hloader fun hskip b hb => ?_
      have hbefore := hemitted hskip b hb n rfl
      omega
    · intro _ _ hskip b hb n' hn'
      obtain rfl := Option.some.inj hn'
      obtain ⟨b₀, hb₀, hlen⟩ := hcurrent (hskipping ▸ hskip) b hb
      have hbefore := hemitted (hskipping ▸ hskip) b₀ hb₀ n rfl
      rw [hcount, hlen]
      omega

/-- A row that neither the tool nor the loader takes notice of. -/
theorem Tracks.passed {p q : Pass} {r : Rewriting} (h : Tracks maxRows p r) {l : Bytes}
    (hl : PlainLine l) (hne : l ≠ endOfData) (hcopy : p.inCopy = false)
    (hstate : p.reading.scanner.state = .copy) (hskipping : p.reading.loader.skipping = true)
    (hq : p.line cfg l = some q) (synth : Synth) :
    ∃ r', r.line cfg synth maxRows l = some r' ∧ Tracks maxRows q r' := by
  have hrow : ∀ {loader : Loader}, loader.skipping = true → loader.row cfg l = .ok loader :=
    fun hskip => by rw [Loader.row, if_pos hskip]
  obtain ⟨reading, hreading, rfl⟩ := Option.map_eq_some_iff.1 hq
  obtain ⟨loader, hloader, rfl⟩ := (reading_row hstate hl hne).1 hreading
  obtain rfl := Except.ok.inj ((hrow hskipping).symm.trans hloader)
  obtain ⟨hout, hfollows, -⟩ := @Tool.line_kept synth maxRows r.tool l
    fun htrue => by rw [h.inCopy, hcopy] at htrue; cases htrue
  refine ⟨⟨(r.tool.line synth maxRows l).1, r.reading⟩, ?_, ?_, h.scanner, h.loader, ?_⟩
  · rw [Rewriting.line_eq_some, hout]
    refine ⟨rfl, (reading_row ?_ hl hne).2 ⟨r.reading.loader, hrow ?_, rfl⟩⟩
    · rw [h.scanner, hstate]
    · rw [h.loader.skipping, hskipping]
  · rw [hfollows, h.inCopy]
  · intro _ _ hskip
    rw [hskipping] at hskip
    cases hskip

theorem Tracks.line {p q : Pass} {r : Rewriting} (h : Tracks maxRows p r) {l : Bytes}
    (hl : PlainLine l ∧ p.LineSurvives cfg l) (hq : p.line cfg l = some q) (synth : Synth) :
    ∃ r', r.line cfg synth maxRows l = some r' ∧ Tracks maxRows q r' := by
  obtain ⟨hplain, hsurvives⟩ := hl
  by_cases hend : l = endOfData
  · exact h.kept (fun _ => hend) (fun _ => hend) hq synth
  obtain ⟨hinside, hfields⟩ := hsurvives hend
  by_cases hcopy : p.inCopy = true
  · have hstate := hinside hcopy
    exact h.row hplain hend hcopy hstate (fun hskip => (hfields hstate hskip).2) hq synth
  by_cases hstate : p.reading.scanner.state = .copy
  · have hskipping : p.reading.loader.skipping = true := by
      by_contra hskip
      exact hcopy (hfields hstate (by simpa using hskip)).1
    exact h.passed hplain hend (by simpa using hcopy) hstate hskipping hq synth
  · exact h.kept (fun htrue => absurd htrue hcopy) (fun htrue => absurd htrue hstate) hq synth

/-! ### Whole dumps -/

theorem strippedLines_plain (src : Bytes) : ∀ l ∈ strippedLines src, PlainLine l := by
  intro l hl
  obtain ⟨line, hline, rfl⟩ := List.mem_map.1 hl
  constructor
  · intro hmem
    have hnewline : newline ∈ line := (List.rdropWhile_prefix _ line).subset hmem
    rw [allLines, List.mem_append] at hline
    rcases hline with hline | hline
    · exact not_mem_of_mem_lines hline hnewline
    · split_ifs at hline with hrest
      · cases hline
      · obtain rfl := List.mem_singleton.1 hline
        exact not_mem_lines_rest newline src hnewline
  · intro hlast
    have hne : stripLineEnd line ≠ [] := by
      intro hnil
      simp [hnil] at hlast
    have hkept := List.rdropWhile_last_not (fun c => c == carriageReturn || c == newline) line hne
    rw [List.getLast?_eq_some_getLast hne, Option.some.injEq] at hlast
    have hend : (stripLineEnd line).getLast hne = carriageReturn := hlast
    rw [show (List.rdropWhile _ line).getLast _ = (stripLineEnd line).getLast hne from rfl, hend]
      at hkept
    exact hkept rfl

theorem strippedLines_unlines {ls : List Bytes} (h : ∀ l ∈ ls, PlainLine l) :
    strippedLines (unlines newline ls) = ls := by
  have hlines := lines_unlines_append (fun l hl => (h l hl).1) []
  have hstrip : ∀ l ∈ ls, stripLineEnd l = l := by
    intro l hl
    obtain ⟨hnewline, hreturn⟩ := h l hl
    rw [stripLineEnd, List.rdropWhile_eq_self_iff]
    intro hne hend
    have hlast := List.getLast?_eq_some_getLast hne
    obtain hend | hend : l.getLast hne = carriageReturn ∨ l.getLast hne = newline := by
      simpa using hend
    · rw [hend] at hlast
      exact hreturn hlast
    · exact hnewline (hend ▸ List.getLast_mem hne)
  rw [List.append_nil] at hlines
  rw [strippedLines, allLines, hlines]
  simp only [lines_nil, List.append_nil, if_true]
  rw [List.map_congr_left hstrip, List.map_id']

/-- A dump that the loader reads alike without the carriage returns in front of
its newlines, where the tool and the loader agree on the rows, and each field of
a row that is loaded survives in its column. -/
def Anonymisable (cfg : LoadConfig) (input : List Bytes) : Prop :=
  (∃ loaded plain, load cfg input = .ok loaded
      ∧ load cfg [unlines newline (strippedLines input.flatten)] = .ok plain
      ∧ loaded.Resembles none plain)
    ∧ Along (Pass.line cfg) (Pass.LineSurvives cfg) (.start cfg) (strippedLines input.flatten)

/-- What is written for a dump is loaded to the same tables and blocks, with the
first rows of each and NULL where it was, whatever the key and the chunks are. -/
theorem load_anonymise {input : List Bytes} {loaded : Loader} (hload : load cfg input = .ok loaded)
    (h : Anonymisable cfg input) (synth : Synth) (maxRows : Option ℕ) {chunks : List Bytes}
    (hchunks : chunks.flatten = (anonymise synth maxRows input.flatten).1) :
    ∃ loaded', load cfg chunks = .ok loaded' ∧ loaded.Resembles maxRows loaded' := by
  obtain ⟨⟨loaded', plain, hload', hplain, hsame⟩, hsurvives⟩ := h
  obtain rfl := Except.ok.inj (hload.symm.trans hload')
  have hlines := strippedLines_plain input.flatten
  obtain ⟨scanner, hrun, hfinish⟩ := (load_unlines hlines (List.flatten_singleton ..)).1 hplain
  obtain ⟨inCopy, hpass⟩ := Pass.exists_runFrom cfg (p := .start cfg) hrun
  have hsimulate := @runFrom_simulation_along _ _ (Pass.line cfg) _
    (Rewriting.line cfg synth maxRows) (fun p l => PlainLine l ∧ p.LineSurvives cfg l)
    (Tracks maxRows) fun p q r l hpr hl hq => hpr.line hl hq synth
  obtain ⟨r, hr, htracks⟩ := hsimulate .start (hsurvives.and_mem hlines) hpass
  have hwritten := Rewriting.runFrom_lines cfg synth maxRows hr
  refine ⟨r.reading.loader, ?_, hsame.trans htracks.loader⟩
  refine (load_unlines (Tool.lines_plain synth maxRows hlines) hchunks).2
    ⟨r.reading.scanner, hwritten, ?_⟩
  rw [htracks.scanner]
  exact hfinish

/-! ### Two dumps -/

def outConfig : LoadConfig where
  outputUri := "/out"

/-- The lines of a dump with one row: a number, a name, and NULL. -/
def notesLines : List Bytes :=
  [ascii "-- Dumped by pg_dump version 17.0",
    ascii "CREATE TABLE public.t (id integer, name text, note text);",
    ascii "COPY public.t (id, name, note) FROM stdin;", ascii "7\tAnn\t\\N", endOfData]

def notesDump : Bytes := unlines newline notesLines

def notesColumns : List (String × ResolvedType) :=
  [("id", Types.resolve "integer"), ("name", Types.resolve "text"), ("note", Types.resolve "text")]

theorem notes_row_survives : RowSurvives outConfig notesColumns (ascii "7\tAnn\t\\N") := by
  have hfields : (ascii "7\tAnn\t\\N").splitOn tab = [ascii "7", ascii "Ann", nullMarker] := by
    decide +kernel
  have hinteger : columnBuilder outConfig ("id", Types.resolve "integer")
      = .scalar { kind := .int32 } := by decide +kernel
  have htext : columnBuilder outConfig ("name", Types.resolve "text")
      = .scalar { kind := .utf8 } := by decide +kernel
  rw [RowSurvives, hfields]
  refine .cons (.inr fun v _ => ?_) (.cons (.inr fun v _ => ?_) (.cons (.inl rfl) .nil))
  · rw [hinteger]
    refine .inl ?_
    rw [show kind (ascii "7") = .number by decide +kernel]
    refine .inr ⟨rfl, ?_⟩
    rw [Narrow]
    decide +kernel
  · rw [htext]
    refine .inr ⟨by decide +kernel, .inr ⟨?_, ?_⟩⟩
    · decide +kernel
    · decide +kernel

theorem notesDump_anonymisable : Anonymisable outConfig [notesDump] := by
  have hplain : ∀ l ∈ notesLines, PlainLine l := by decide +kernel
  obtain ⟨loaded, hload⟩ := @exists_load outConfig notesLines hplain (by decide +kernel)
  have hsql : ∀ i < 3, ((runFrom (Pass.line outConfig) (.start outConfig) (notesLines.take i)).all
      fun p => decide (p.inCopy = false ∧ p.reading.scanner.state = .sql))
        = true := by decide +kernel
  have hrow : ((runFrom (Pass.line outConfig) (.start outConfig) (notesLines.take 3)).all
      fun p => decide (p.inCopy = true ∧ p.reading.scanner.state = .copy
        ∧ p.reading.loader.current.map ReadBlock.columns = some notesColumns)) = true := by
    decide +kernel
  rw [Anonymisable, List.flatten_singleton, notesDump, strippedLines_unlines hplain]
  constructor
  · refine ⟨loaded, loaded, hload, hload, rfl, rfl, rfl, ?_, ?_, rfl⟩
    · exact List.forall₂_same.2 fun b _ => ⟨rfl, rfl, rfl⟩
    · cases loaded.current with
      | none => exact .none
      | some b => exact .some ⟨rfl, rfl, rfl⟩
  · refine along_of_take fun i hi p hp hne => ?_
    rcases lt_trichotomy i 3 with hless | rfl | hmore
    · have hview := hsql i hless
      rw [hp] at hview
      obtain ⟨hcopy, hstate⟩ := of_decide_eq_true hview
      exact ⟨fun h => by simp [hcopy] at h, fun h => by simp [hstate] at h⟩
    · rw [hp] at hrow
      obtain ⟨hcopy, hstate, hcolumns⟩ := of_decide_eq_true hrow
      refine ⟨fun _ => hstate, fun _ _ => ⟨hcopy, fun b hb => ?_⟩⟩
      rw [hb] at hcolumns
      rw [Option.some.inj hcolumns]
      exact notes_row_survives
    · have hlast : i = 4 := by
        rw [show notesLines.length = 5 from rfl] at hi
        omega
      subst hlast
      exact absurd rfl hne

theorem load_anonymise_notes :
    ∃ loaded loaded', load outConfig [notesDump] = .ok loaded ∧
      load outConfig [(anonymise .zeros (some 1) notesDump).1] = .ok loaded' ∧
        loaded.Resembles (some 1) loaded' := by
  obtain ⟨loaded, -, hload, -⟩ := notesDump_anonymisable.1
  have hchunks : [(anonymise .zeros (some 1) notesDump).1].flatten
      = (anonymise .zeros (some 1) [notesDump].flatten).1 := by simp
  obtain ⟨loaded', hload', hresembles⟩ :=
    load_anonymise hload notesDump_anonymisable .zeros (some 1) hchunks
  exact ⟨loaded, loaded', hload, hload', hresembles⟩

/-- The lines of a dump with one row, of one field. -/
def nameLines (row : Bytes) : List Bytes :=
  [ascii "-- Dumped by pg_dump version 17.0", ascii "CREATE TABLE public.t (name text);",
    ascii "COPY public.t (name) FROM stdin;", row, endOfData]

/-- The field is the letter ò. -/
def accentDump : Bytes := unlines newline (nameLines [0xC3, 0xB2])

theorem anonymise_accent (synth : Synth) :
    (anonymise synth none accentDump).1
      = unlines newline (nameLines (synth.field "public.t" 0 1 [0xC3, 0xB2])) := by
  have hplain : ∀ l ∈ nameLines [0xC3, 0xB2], PlainLine l := by decide +kernel
  have hversion : copyTarget (ascii "-- Dumped by pg_dump version 17.0") = none := by decide +kernel
  have htable : copyTarget (ascii "CREATE TABLE public.t (name text);") = none := by decide +kernel
  have hheader : copyTarget (ascii "COPY public.t (name) FROM stdin;")
      = some (ascii "public.t (name)") := by decide +kernel
  have hname : targetTable (ascii "public.t (name)") = "public.t" := by decide +kernel
  have hend : ([0xC3, 0xB2] : Bytes) ≠ endOfData := by decide
  have hnull : ([0xC3, 0xB2] : Bytes) ≠ nullMarker := by decide
  have hfields : ([0xC3, 0xB2] : Bytes).splitOn tab = [[0xC3, 0xB2]] := by decide
  rw [anonymise, accentDump, strippedLines_unlines hplain]
  simp [nameLines, Tool.lines, Tool.line, Tool.outside, hversion, htable, hheader, hname,
    Tool.row, hend, Tool.rebuildRow, hfields, Tool.rebuild, hnull]

/-- The second byte of the letter is taken for a digit, and what is left is no
text: the dump is loaded, and what is written for it is not. -/
theorem load_anonymise_counterexample :
    (∃ loaded, load outConfig [accentDump] = .ok loaded) ∧
      ∀ synth : Synth, ¬∃ loaded, load outConfig [(anonymise synth none accentDump).1]
        = .ok loaded := by
  have hnone : ∀ place < 10, (runFrom (Reading.line outConfig) (.start outConfig)
      (nameLines [0xC3, digit place])).isNone = true := by decide +kernel
  have hplain : ∀ place < 10, ∀ l ∈ nameLines [0xC3, digit place], PlainLine l := by
    decide +kernel
  constructor
  · exact exists_load (by decide +kernel) (by decide +kernel)
  · rintro synth ⟨loaded, hload⟩
    rw [anonymise_accent] at hload
    obtain ⟨noise, hmade | ⟨-, hreplaced⟩⟩ := synth.field_cases "public.t" 0 1 [0xC3, 0xB2]
    · rw [show kind [0xC3, 0xB2] = .other by decide] at hmade
      cases hmade
    · generalize synth.field "public.t" 0 1 [0xC3, 0xB2] = row at hload hreplaced
      cases hreplaced with
      | @byte _ first _ rest hne hfirst hrest =>
          obtain rfl : first = 0xC3 := (hfirst.eq_iff (by decide)).2 rfl
          cases hrest with
          | @byte _ second _ rest hne hsecond hrest =>
              have hnil := hrest.length_eq
              obtain rfl := List.eq_nil_of_length_eq_zero hnil
              have hdigit := isAsciiDigit_iff.1 (hsecond.digit (by decide))
              obtain ⟨place, hplace, rfl⟩ : ∃ place < 10, second = digit place := by
                refine ⟨second.toNat - 48, by omega, UInt8.toNat_inj.1 ?_⟩
                rw [digit, toNat_letter (by omega)]
                omega
              obtain ⟨scanner, hrun, -⟩ :=
                (load_unlines (hplain place hplace) (List.flatten_singleton ..)).1 hload
              have hrun' := hnone place hplace
              rw [hrun] at hrun'
              cases hrun'

end PgDelta.Anonymise
