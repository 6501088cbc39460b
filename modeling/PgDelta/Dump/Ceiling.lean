import PgDelta.Dump.ChunkReader
import PgDelta.Copy.Decode

/-!
The ceiling of the chunk reader against the limit on a row.

The buffer never holds more than `maxChunk` bytes, and the error is raised when
it is full and has no newline in it. A line of exactly `maxChunk` bytes fills
the buffer before its newline, or the end of the stream, has been read: the
reader rejects lines of `maxChunk` bytes and more, and delivers shorter ones.
-/

namespace PgDelta.Dump

open PgDelta.Lib PgDelta.Copy

namespace ChunkReader

/-- The buffer stays below the target, and a reader at the end of the stream
has room left in it. -/
structure Capped (r : ChunkReader) : Prop where
  filled_le : r.filled ≤ r.target
  target_le : r.target ≤ r.maxChunk
  room : r.eof = true → r.filled < r.target

theorem withLimits_capped (inner : Inner) (target maxChunk : ℕ) :
    (withLimits inner target maxChunk).Capped where
  filled_le := Nat.zero_le _
  target_le := le_max_right _ _
  room := by simp [withLimits]

theorem Capped.carryForward {r : ChunkReader} (h : r.Capped) : r.carryForward.Capped := by
  have hfilled := h.filled_le
  unfold ChunkReader.carryForward
  split
  · refine ⟨?_, h.target_le, fun heof => ?_⟩
    · exact (Nat.sub_le _ _).trans hfilled
    · exact lt_of_le_of_lt (Nat.sub_le _ _) (h.room heof)
  · exact h

theorem Capped.fill {r r' : ChunkReader} (h : r.Capped) (hr : r.fill = .ok r') : r'.Capped := by
  induction r using fill.induct with
  | case1 r hmore message hread =>
      rw [ChunkReader.fill, dif_pos hmore, hread] at hr
      cases hr
  | case2 r hmore inner hread ih =>
      rw [ChunkReader.fill, dif_pos hmore, hread] at hr
      exact ih ⟨h.filled_le, h.target_le, fun _ => hmore.1⟩ hr
  | case3 r hmore b got inner hread ih =>
      rw [ChunkReader.fill, dif_pos hmore, hread] at hr
      obtain ⟨-, hlen, -⟩ := Inner.read_ok (by omega) hread
      refine ih ⟨?_, h.target_le, ?_⟩ hr
      · change r.filled + (b :: got).length ≤ r.target
        omega
      · intro heof
        rw [hmore.2] at heof
        cases heof
  | case4 r hfull =>
      rw [ChunkReader.fill, dif_neg hfull, Except.ok.injEq] at hr
      rw [← hr]
      exact h

theorem Capped.grow {r : ChunkReader} (h : r.Capped) (hpos : 0 < min (r.target * 2) r.maxChunk) :
    Capped { r with target := min (r.target * 2) r.maxChunk, target_pos := hpos } := by
  have hle : r.target ≤ min (r.target * 2) r.maxChunk :=
    le_min (by omega) h.target_le
  exact ⟨h.filled_le.trans hle, min_le_right _ _, fun heof => (h.room heof).trans_le hle⟩

def Answers (r : ChunkReader) : Prop := ∀ n, ∃ want, r.inner.replies n = .ok want

theorem Inner.read_replies {r r' : Inner} {len : ℕ} {got : Bytes}
    (h : r.read len = .ok (got, r')) : r'.replies = r.replies := by
  unfold Inner.read at h
  cases hreply : r.replies r.calls with
  | error message => simp [hreply] at h
  | ok want =>
      simp only [hreply, Except.ok.injEq, Prod.mk.injEq] at h
      rw [← h.2]

theorem Inner.read_answered {r : Inner} (h : ∀ n, ∃ want, r.replies n = .ok want) {len : ℕ}
    {message : String} : r.read len ≠ .error message := by
  obtain ⟨want, hwant⟩ := h r.calls
  simp [Inner.read, hwant]

theorem Answers.fill {r : ChunkReader} (h : r.Answers) :
    ∃ r', r.fill = .ok r' ∧ r'.Answers := by
  induction r using fill.induct with
  | case1 r hmore message hread => exact absurd hread (Inner.read_answered h)
  | case2 r hmore inner hread ih =>
      rw [ChunkReader.fill, dif_pos hmore, hread]
      apply ih
      simpa [Answers, Inner.read_replies hread] using h
  | case3 r hmore b got inner hread ih =>
      rw [ChunkReader.fill, dif_pos hmore, hread]
      apply ih
      simpa [Answers, Inner.read_replies hread] using h
  | case4 r hfull =>
      rw [ChunkReader.fill, dif_neg hfull]
      exact ⟨r, rfl, h⟩

/-! ### One call -/

def Against (ceiling : ℕ) (s : Bytes) : Except Error (Option Bytes × ChunkReader) → Prop
  | .error (.rowTooLarge _ _) => ∃ l ∈ allLines newline s, ceiling ≤ l.length
  | .error _ => True
  | .ok (none, _) => True
  | .ok (some chunk, r) =>
    r.Capped ∧ r.maxChunk = ceiling ∧ ∀ l ∈ allLines newline chunk, l.length < ceiling

theorem fill_error {r : ChunkReader} {e : Error} (h : r.fill = .error e) :
    ∃ message, e = .io message := by
  induction r using fill.induct with
  | case1 r hmore message hread =>
      rw [ChunkReader.fill, dif_pos hmore, hread] at h
      exact ⟨message, (Except.error.inj h).symm⟩
  | case2 r hmore inner hread ih =>
      rw [ChunkReader.fill, dif_pos hmore, hread] at h
      exact ih h
  | case3 r hmore b got inner hread ih =>
      rw [ChunkReader.fill, dif_pos hmore, hread] at h
      exact ih h
  | case4 r hfull =>
      rw [ChunkReader.fill, dif_neg hfull] at h
      cases h

theorem Capped.line_below {r : ChunkReader} (h : r.Capped) {nl : ℕ}
    (hnl : memrchr newline (r.buf.take r.filled) = some nl) :
    ∀ l ∈ allLines newline (r.buf.take (nl + 1)), l.length < r.maxChunk := by
  intro l hl
  obtain ⟨-, -, hlt⟩ := memrchr_eq_some hnl
  have hget := getElem?_of_memrchr hnl
  have hle : nl < r.filled := by
    rw [List.length_take] at hlt
    omega
  rw [List.getElem?_take_of_lt hle] at hget
  have hlast : (r.buf.take (nl + 1)).getLast? = some newline := by
    rw [List.take_add_one, hget]
    simp
  rw [allLines, if_pos (lines_rest_of_getLast? hlast), List.append_nil] at hl
  have hshort := length_lt_of_mem_lines hl
  have hfilled := h.filled_le
  have htarget := h.target_le
  rw [List.length_take] at hshort
  omega

/-- The last line of a stream that does not end with a newline. -/
theorem Capped.tail_below {r : ChunkReader} (h : r.Capped) (heof : r.eof = true) :
    ∀ l ∈ allLines newline (r.buf.take r.filled), l.length < r.maxChunk := by
  intro l hl
  have hshort := length_le_of_mem_allLines hl
  have hroom := h.room heof
  have htarget := h.target_le
  rw [List.length_take] at hshort
  omega

/-- A full buffer without a newline lies in one line. -/
theorem Holds.overlong {r : ChunkReader} {s : Bytes} (h : r.Holds s) (hc : r.consumed = 0)
    (hnl : newline ∉ r.buf.take r.filled) (hfull : r.target ≤ r.filled) :
    ∃ l ∈ allLines newline s, r.target ≤ l.length := by
  have hpos := r.target_pos
  have hbuf := h.filled_le
  have hstream := h.stream
  rw [hc, slice_zero] at hstream
  have hprefix : r.buf.take r.filled <+: s := ⟨_, hstream⟩
  have hlen : (r.buf.take r.filled).length = r.filled := by simp [hbuf]
  have hne : r.buf.take r.filled ≠ [] := List.ne_nil_of_length_pos (by omega)
  obtain ⟨l, hl, hle⟩ := exists_mem_allLines_of_prefix hprefix hnl hne
  exact ⟨l, hl, by omega⟩

theorem nextChunk_against {r : ChunkReader} {s : Bytes} (h : r.Holds s) (hcap : r.Capped) :
    Against r.maxChunk s r.nextChunk := by
  obtain ⟨hcarry, hc⟩ := carryForward_holds h
  have hmax : r.carryForward.maxChunk = r.maxChunk := by
    unfold ChunkReader.carryForward
    split <;> rfl
  obtain ⟨a, e, -, hfail, hr⟩ | ⟨a, b, hok, ⟨hb, hcb, hcapb, hmaxb⟩, hend⟩ :=
    nextChunkLoop_ending
      (P := fun a => a.Holds s ∧ a.consumed = 0 ∧ a.Capped ∧ a.maxChunk = r.maxChunk)
      (fun {a b} ha hok =>
        ⟨fill_holds ha.1 ha.2.1 hok, (fill_frame hok).2.2.1.trans ha.2.1, ha.2.2.1.fill hok,
          (fill_frame hok).2.1.trans ha.2.2.2⟩)
      (fun a hpos ha =>
        ⟨⟨ha.1.consumed_le, ha.1.filled_le, ha.1.stream, ha.1.eof⟩, ha.2.1, ha.2.2.1.grow hpos,
          ha.2.2.2⟩)
      ⟨hcarry, hc, hcap.carryForward, hmax⟩
  · obtain ⟨message, rfl⟩ := fill_error hfail
    rw [nextChunk, hr]
    exact trivial
  · rw [nextChunk]
    generalize r.carryForward.nextChunkLoop = out at hend
    cases hend with
    | finished hfilled => exact trivial
    | line hnl =>
        refine ⟨⟨hcapb.filled_le, hcapb.target_le, hcapb.room⟩, hmaxb, ?_⟩
        rw [← hmaxb]
        exact hcapb.line_below hnl
    | tail hfilled hnl heof =>
        refine ⟨⟨hcapb.filled_le, hcapb.target_le, hcapb.room⟩, hmaxb, ?_⟩
        rw [← hmaxb]
        exact hcapb.tail_below heof
    | tooLarge hnl heof hmaxle =>
        have hfull : b.target ≤ b.filled := by
          rcases (fill_frame hok).2.2.2 with hfull | hend
          · exact hfull
          · rw [heof] at hend
            cases hend
        obtain ⟨l, hl, hle⟩ := hb.overlong hcb hnl hfull
        exact ⟨l, hl, by omega⟩

theorem Answers.nextChunk {r : ChunkReader} (h : r.Answers) :
    (∃ chunk r', r.nextChunk = .ok (chunk, r') ∧ r'.Answers) ∨
      ∃ len limit, r.nextChunk = .error (.rowTooLarge len limit) := by
  have hcarry : r.carryForward.Answers := by
    unfold ChunkReader.carryForward
    split <;> exact h
  obtain ⟨a, e, ha, hfail, -⟩ | ⟨a, b, hok, hb, hend⟩ :=
    nextChunkLoop_ending (P := Answers)
      (fun {a b} ha hok => by
        obtain ⟨c, hc, hanswers⟩ := Answers.fill ha
        rw [hok] at hc
        rwa [Except.ok.inj hc])
      (fun a hpos ha => ha) hcarry
  · obtain ⟨c, hc, -⟩ := ha.fill
    rw [hfail] at hc
    cases hc
  · rw [ChunkReader.nextChunk]
    generalize r.carryForward.nextChunkLoop = out at hend
    cases hend with
    | finished hfilled => exact Or.inl ⟨_, _, rfl, hb⟩
    | line hnl => exact Or.inl ⟨_, _, rfl, hb⟩
    | tail hfilled hnl heof => exact Or.inl ⟨_, _, rfl, hb⟩
    | tooLarge hnl heof hmax => exact Or.inr ⟨_, _, rfl⟩

/-! ### A whole stream -/

/-- What is handed out ends a line or ends the stream, so its lines are lines
of the stream and the others are those of the rest. -/
theorem allLines_delivered {chunk rest : Bytes}
    (hend : chunk.getLast? = some newline ∨ rest = []) :
    allLines newline (chunk ++ rest) = allLines newline chunk ++ allLines newline rest :=
  allLines_append (hend.imp_left lines_rest_of_getLast?)

theorem readAll_cons {r r' : ChunkReader} {calls : ℕ} {chunk : Bytes}
    (hnext : r.nextChunk = .ok (some chunk, r')) :
    r.readAll (calls + 1) = (r'.readAll calls).map fun out => out.map (chunk :: ·) := by
  rw [readAll, hnext]

/-- A stream is given up on at a line that reaches the ceiling. -/
theorem exists_of_rejected {r : ChunkReader} {s : Bytes} (h : r.Holds s) (hcap : r.Capped)
    {calls len limit : ℕ} (hr : r.readAll calls = some (.error (.rowTooLarge len limit))) :
    ∃ l ∈ allLines newline s, r.maxChunk ≤ l.length := by
  induction calls generalizing r s with
  | zero => cases hr
  | succ calls ih =>
      have hagainst := nextChunk_against h hcap
      cases hnext : r.nextChunk with
      | error e =>
          rw [readAll, hnext] at hr
          obtain rfl : e = .rowTooLarge len limit := by simpa using hr
          rw [hnext] at hagainst
          exact hagainst
      | ok out =>
          obtain ⟨_ | chunk, r'⟩ := out
          · rw [readAll, hnext] at hr
            cases hr
          · obtain ⟨rest, rfl, hrest, -, hend⟩ := nextChunk_delivers h hnext
            rw [hnext] at hagainst
            obtain ⟨hcap', hmax, -⟩ := hagainst
            rw [readAll_cons hnext, Option.map_eq_some_iff] at hr
            obtain ⟨out, hout, herror⟩ := hr
            cases out with
            | ok chunks => cases herror
            | error e =>
                obtain rfl : e = .rowTooLarge len limit := by simpa [Except.map] using herror
                obtain ⟨l, hl, hle⟩ := ih hrest hcap' hout
                refine ⟨l, ?_, hmax ▸ hle⟩
                rw [allLines_delivered hend]
                exact List.mem_append_right _ hl

theorem below_of_delivered {r : ChunkReader} {s : Bytes} (h : r.Holds s) (hcap : r.Capped)
    {calls : ℕ} {chunks : List Bytes} (hr : r.readAll calls = some (.ok chunks)) :
    ∀ l ∈ allLines newline s, l.length < r.maxChunk := by
  induction calls generalizing r s chunks with
  | zero => cases hr
  | succ calls ih =>
      have hagainst := nextChunk_against h hcap
      cases hnext : r.nextChunk with
      | error e =>
          rw [readAll, hnext] at hr
          cases hr
      | ok out =>
          obtain ⟨_ | chunk, r'⟩ := out
          · have hnone : s = [] := nextChunk_delivers h hnext
            simp [hnone, allLines]
          · obtain ⟨rest, rfl, hrest, -, hend⟩ := nextChunk_delivers h hnext
            rw [hnext] at hagainst
            obtain ⟨hcap', hmax, hbelow⟩ := hagainst
            rw [readAll_cons hnext, Option.map_eq_some_iff] at hr
            obtain ⟨out, hout, hok⟩ := hr
            cases out with
            | error e => cases hok
            | ok cs =>
                intro l hl
                rw [allLines_delivered hend, List.mem_append] at hl
                rcases hl with hl | hl
                · exact hbelow l hl
                · rw [← hmax]
                  exact ih hrest hcap' hout l hl

theorem Answers.readAll {r : ChunkReader} (h : r.Answers) {calls : ℕ} {e : Error}
    (hr : r.readAll calls = some (.error e)) : ∃ len limit, e = .rowTooLarge len limit := by
  induction calls generalizing r with
  | zero => cases hr
  | succ calls ih =>
      rcases h.nextChunk with ⟨_ | chunk, r', hnext, h'⟩ | ⟨len, limit, hnext⟩
      · rw [ChunkReader.readAll, hnext] at hr
        cases hr
      · rw [readAll_cons hnext, Option.map_eq_some_iff] at hr
        obtain ⟨out, hout, herror⟩ := hr
        cases out with
        | ok chunks => cases herror
        | error e' =>
            obtain rfl : e' = e := Except.error.inj herror
            exact ih h' hout
      · rw [ChunkReader.readAll, hnext] at hr
        exact ⟨len, limit, (by simpa using hr.symm)⟩

/-- Some run over the stream is given up on, because of a line that is too
long. -/
def Rejects (target maxChunk : ℕ) (stream : Bytes) : Prop :=
  ∃ inner : Inner, inner.unread = stream ∧ ∃ calls len limit,
    (withLimits inner target maxChunk).readAll calls = some (.error (.rowTooLarge len limit))

/-- The length of the longest line. -/
def longestLine (stream : Bytes) : ℕ :=
  ((allLines newline stream).map List.length).foldr max 0

theorem lt_longestLine_iff {n : ℕ} {stream : Bytes} :
    n < longestLine stream ↔ ∃ l ∈ allLines newline stream, n < l.length := by
  unfold longestLine
  induction allLines newline stream with
  | nil => simp
  | cons l ls ih => simp [ih]

theorem le_longestLine_iff {n : ℕ} (hn : 0 < n) {stream : Bytes} :
    n ≤ longestLine stream ↔ ∃ l ∈ allLines newline stream, n ≤ l.length := by
  obtain ⟨m, rfl⟩ := Nat.exists_eq_succ_of_ne_zero hn.ne'
  exact lt_longestLine_iff

theorem longestLine_le_iff {n : ℕ} {stream : Bytes} :
    longestLine stream ≤ n ↔ ∀ l ∈ allLines newline stream, l.length ≤ n := by
  rw [← not_lt, lt_longestLine_iff]
  simp

/-- The reader rejects exactly the streams with a line that reaches the
ceiling. -/
theorem rejects_iff (target maxChunk : ℕ) (stream : Bytes) :
    Rejects target maxChunk stream ↔ max maxChunk (max target 1) ≤ longestLine stream := by
  rw [le_longestLine_iff (by omega)]
  constructor
  · rintro ⟨inner, rfl, calls, len, limit, hr⟩
    exact exists_of_rejected (withLimits_holds _ _ _) (withLimits_capped _ _ _) hr
  · rintro ⟨l, hl, hle⟩
    let inner : Inner := ⟨stream, fun _ => .ok 1, 0⟩
    have hanswers : (withLimits inner target maxChunk).Answers := fun _ => ⟨1, rfl⟩
    obtain ⟨out, hout, -⟩ := readAll_withLimits inner target maxChunk
    cases out with
    | ok chunks =>
        have hbelow := below_of_delivered (withLimits_holds inner target maxChunk)
          (withLimits_capped inner target maxChunk) hout l hl
        exact absurd hle (not_le.mpr hbelow)
    | error e =>
        obtain ⟨len, limit, rfl⟩ := hanswers.readAll hout
        exact ⟨inner, rfl, _, len, limit, hout⟩

/-- Default chunk size handed to the decode pool. -/
def defaultChunkBytes : ℕ := 16 * 2 ^ 20

/-- The reader of a load: the row limit is what bounds a chunk. -/
def LoadRejects (limits : Limits) (stream : Bytes) : Prop :=
  Rejects defaultChunkBytes (max limits.maxRowBytes defaultChunkBytes) stream

/-- The reader gives up only on streams with a line longer than `maxChunk`,
unless the longest line has exactly that length; and so a load whose limit is
not below the default chunk gives up on rows that are exactly at the limit. -/
theorem next_chunk_ceiling {target maxChunk : ℕ} (htarget : target ≤ maxChunk) (limits : Limits)
    (stream : Bytes) :
    ((Rejects target maxChunk stream → ∃ l ∈ allLines newline stream, maxChunk < l.length) ↔
      maxChunk = 0 ∨ longestLine stream ≠ maxChunk) ∧
    (((∀ l ∈ allLines newline stream, l.length ≤ limits.maxRowBytes) →
        ¬LoadRejects limits stream) ↔
      limits.maxRowBytes < defaultChunkBytes ∨ longestLine stream ≠ limits.maxRowBytes) := by
  constructor
  · rw [rejects_iff, ← lt_longestLine_iff]
    omega
  · have hchunk : 0 < defaultChunkBytes := by decide
    rw [LoadRejects, rejects_iff, ← longestLine_le_iff]
    omega

theorem next_chunk_ceiling_three :
    (Rejects 4 4 (ascii "xxx\n") → ∃ l ∈ allLines newline (ascii "xxx\n"), 4 < l.length) ∧
      ((∀ l ∈ allLines newline (ascii "xxx\n"), l.length ≤ ({} : Limits).maxRowBytes) →
        ¬LoadRejects {} (ascii "xxx\n")) := by
  obtain ⟨hreader, hload⟩ := next_chunk_ceiling (le_refl 4) {} (ascii "xxx\n")
  exact ⟨hreader.mpr (by decide), hload.mpr (by decide)⟩

/-- A line of four bytes behind a ceiling of four. -/
theorem next_chunk_line_at_ceiling :
    (withLimits ⟨ascii "xxxx\n", fun _ => .ok 4, 0⟩ 4 4).readAll 1
        = some (.error (.rowTooLarge 4 4)) ∧
      ¬∃ l ∈ allLines newline (ascii "xxxx\n"), 4 < l.length := by
  refine ⟨?_, by decide⟩
  have hfill : (withLimits ⟨ascii "xxxx\n", fun _ => .ok 4, 0⟩ 4 4).fill = .ok
      { withLimits ⟨ascii "xxxx\n", fun _ => .ok 4, 0⟩ 4 4 with
        inner := ⟨ascii "\n", fun _ => .ok 4, 1⟩
        buf := ascii "xxxx"
        filled := 4 } := by
    rw [fill, dif_pos ⟨by decide, rfl⟩]
    exact fill.eq_1 _
  rw [readAll, nextChunk, carryForward, if_neg (by decide), nextChunkLoop, hfill]
  rfl

end ChunkReader

end PgDelta.Dump
