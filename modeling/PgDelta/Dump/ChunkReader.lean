import PgDelta.Error
import PgDelta.Lib.Lines

/-!
Newline-aligned chunks of a byte stream.

`ChunkReader.nextChunk` keeps one buffer across calls. The invariant is
`ChunkReader.Holds r s`: what the buffer still has to hand out, followed by
what the inner reader has not read, is `s`. One call either hands out a
non-empty prefix of `s` and leaves the invariant for the rest, or reports the
end of a stream that is empty.
-/

namespace PgDelta.Dump

open PgDelta.Lib

/-- The reader below a `ChunkReader`. `replies n` is what the `n`-th call to
`read` does: fail, or give that many bytes, cut to what the buffer takes and
to what is left, and never none while there are bytes left. -/
structure Inner where
  unread : Bytes
  replies : ℕ → Except String ℕ
  calls : ℕ

def Inner.read (r : Inner) (len : ℕ) : Except String (Bytes × Inner) :=
  match r.replies r.calls with
  | .error message => .error message
  | .ok want =>
    let got := min len (max want 1)
    .ok (r.unread.take got, { r with unread := r.unread.drop got, calls := r.calls + 1 })

/-- What a successful `read` into a non-empty buffer does: it moves a prefix
of the unread bytes, and an empty prefix means the end of the stream. -/
theorem Inner.read_ok {r r' : Inner} {len : ℕ} {got : Bytes} (hlen : 0 < len)
    (h : r.read len = .ok (got, r')) :
    got ++ r'.unread = r.unread ∧ got.length ≤ len ∧ (got = [] → r.unread = []) := by
  unfold Inner.read at h
  cases hreply : r.replies r.calls with
  | error message => simp [hreply] at h
  | ok want =>
      simp only [hreply, Except.ok.injEq, Prod.mk.injEq] at h
      obtain ⟨rfl, rfl⟩ := h
      refine ⟨List.take_append_drop _ _, by simp, ?_⟩
      intro hempty
      rcases List.take_eq_nil_iff.mp hempty with hzero | hempty
      · omega
      · exact hempty

structure ChunkReader where
  inner : Inner
  buf : Bytes
  /-- Bytes of `buf` holding data. -/
  filled : ℕ
  /-- Bytes at the head of `buf` already returned to the caller. -/
  consumed : ℕ
  target : ℕ
  maxChunk : ℕ
  eof : Bool
  target_pos : 0 < target

namespace ChunkReader

def withLimits (inner : Inner) (target maxChunk : ℕ) : ChunkReader where
  inner := inner
  buf := []
  filled := 0
  consumed := 0
  target := max target 1
  maxChunk := max maxChunk (max target 1)
  eof := false
  target_pos := by omega

/-- Carry forward whatever the previous call did not return. -/
def carryForward (r : ChunkReader) : ChunkReader :=
  if 0 < r.consumed then
    { r with
      buf := slice r.buf r.consumed r.filled ++ r.buf.drop (r.filled - r.consumed)
      filled := r.filled - r.consumed
      consumed := 0 }
  else r

/-- The buffer, grown with zeroes to the target where it is shorter. -/
def resized (r : ChunkReader) : Bytes :=
  if r.buf.length < r.target then
    r.buf ++ List.replicate (r.target - r.buf.length) 0
  else r.buf

def fill (r : ChunkReader) : Except Error ChunkReader :=
  if _h : r.filled < r.target ∧ r.eof = false then
    match r.inner.read (r.target - r.filled) with
    | .error message => .error (.io message)
    | .ok ([], inner) => fill { r with buf := r.resized, inner := inner, eof := true }
    | .ok (b :: got, inner) =>
      fill { r with
        buf := r.resized.take r.filled ++ (b :: got) ++
          r.resized.drop (r.filled + (b :: got).length)
        inner := inner
        filled := r.filled + (b :: got).length }
  else .ok r
termination_by (r.target - r.filled, if r.eof then 0 else 1)
decreasing_by
  · simp [_h.2, Prod.lex_iff]
  · simp only [Prod.lex_iff, List.length_cons]
    omega

/-- What a call to `next_chunk` finds and leaves: `s` is the stream that the
caller has not been given yet. -/
structure Holds (r : ChunkReader) (s : Bytes) : Prop where
  consumed_le : r.consumed ≤ r.filled
  filled_le : r.filled ≤ r.buf.length
  stream : slice r.buf r.consumed r.filled ++ r.inner.unread = s
  eof : r.eof = true → r.inner.unread = []

theorem withLimits_holds (inner : Inner) (target maxChunk : ℕ) :
    (withLimits inner target maxChunk).Holds inner.unread where
  consumed_le := le_rfl
  filled_le := le_rfl
  stream := by simp [withLimits, slice]
  eof := by simp [withLimits]

theorem carryForward_holds {r : ChunkReader} {s : Bytes} (h : r.Holds s) :
    r.carryForward.Holds s ∧ r.carryForward.consumed = 0 := by
  have hle := h.consumed_le
  have hbuf := h.filled_le
  by_cases hc : 0 < r.consumed
  · have hlen : (slice r.buf r.consumed r.filled).length = r.filled - r.consumed := by
      simp [min_eq_left hbuf]
    refine ⟨⟨?_, ?_, ?_, ?_⟩, ?_⟩
    · simp [carryForward, hc]
    · simp only [carryForward, hc, if_true, List.length_append, List.length_drop, hlen]
      omega
    · simp only [carryForward, hc, if_true, slice_zero]
      rw [List.take_append_of_le_length (by omega), List.take_of_length_le (by omega)]
      exact h.stream
    · simpa [carryForward, hc] using h.eof
    · simp [carryForward, hc]
  · have hcarry : r.carryForward = r := by simp [carryForward, hc]
    rw [hcarry]
    exact ⟨h, by omega⟩

theorem resized_spec (r : ChunkReader) (h : r.filled ≤ r.buf.length) :
    r.resized.take r.filled = r.buf.take r.filled ∧ r.filled ≤ r.resized.length ∧
      r.target ≤ r.resized.length := by
  unfold resized
  split
  · refine ⟨List.take_append_of_le_length h, ?_, ?_⟩ <;> simp <;> omega
  · exact ⟨rfl, h, by omega⟩

theorem fill_frame {r r' : ChunkReader} (hr : r.fill = .ok r') :
    r'.target = r.target ∧ r'.maxChunk = r.maxChunk ∧ r'.consumed = r.consumed ∧
      (r'.target ≤ r'.filled ∨ r'.eof = true) := by
  induction r using fill.induct with
  | case1 r hmore message hread =>
      rw [fill, dif_pos hmore, hread] at hr
      simp at hr
  | case2 r hmore inner hread ih =>
      rw [fill, dif_pos hmore, hread] at hr
      exact ih hr
  | case3 r hmore b got inner hread ih =>
      rw [fill, dif_pos hmore, hread] at hr
      exact ih hr
  | case4 r hfull =>
      rw [fill, dif_neg hfull, Except.ok.injEq] at hr
      subst hr
      rw [not_and_or, not_lt] at hfull
      exact ⟨rfl, rfl, rfl, hfull.imp_right fun h => by simpa using h⟩

/-- The fill loop only moves bytes from the inner reader to the end of the
filled part. -/
theorem fill_holds {r r' : ChunkReader} {s : Bytes} (h : r.Holds s) (hc : r.consumed = 0)
    (hr : r.fill = .ok r') : r'.Holds s := by
  induction r using fill.induct with
  | case1 r hmore message hread =>
      rw [fill, dif_pos hmore, hread] at hr
      simp at hr
  | case2 r hmore inner hread ih =>
      rw [fill, dif_pos hmore, hread] at hr
      obtain ⟨hmove, -, hend⟩ := Inner.read_ok (by omega) hread
      obtain ⟨htake, hfilled, -⟩ := resized_spec r h.filled_le
      have hunread : r.inner.unread = [] := hend rfl
      have hinner : inner.unread = [] := by simpa [hunread] using hmove
      refine ih ⟨by simp [hc], hfilled, ?_, fun _ => hinner⟩ hc hr
      have hstream := h.stream
      rw [hc, slice_zero, hunread] at hstream
      simpa [hc, slice_zero, htake, hinner] using hstream
  | case3 r hmore b got inner hread ih =>
      rw [fill, dif_pos hmore, hread] at hr
      obtain ⟨hmove, hlen, -⟩ := Inner.read_ok (by omega) hread
      obtain ⟨htake, hfilled, htarget⟩ := resized_spec r h.filled_le
      refine ih ⟨by simp [hc], ?_, ?_, ?_⟩ hc hr
      · simp only [List.length_append, List.length_take, List.length_drop]
        omega
      · have hstream := h.stream
        simp only [hc, slice_zero] at hstream ⊢
        rw [List.take_append_of_le_length (by simp; omega), List.take_of_length_le (by simp),
          htake, List.append_assoc, hmove, hstream]
      · intro heof
        rw [hmore.2] at heof
        cases heof
  | case4 r hfull =>
      rw [fill, dif_neg hfull, Except.ok.injEq] at hr
      rw [← hr]
      exact h

theorem grown_pos (r : ChunkReader) (hmax : ¬r.maxChunk ≤ r.target) :
    0 < min (r.target * 2) r.maxChunk := by
  have hpos := r.target_pos
  omega

theorem grown_lt {r r' : ChunkReader} (hfill : r.fill = .ok r') (hmax : ¬r'.maxChunk ≤ r'.target) :
    r'.maxChunk - min (r'.target * 2) r'.maxChunk < r.maxChunk - r.target := by
  have hpos := r'.target_pos
  obtain ⟨htarget, hmaxChunk, -⟩ := fill_frame hfill
  omega

/-- The body of `next_chunk` behind the carry: fill, hand out the part up to
the last newline, and grow the target while one line is longer than it. -/
def nextChunkLoop (r : ChunkReader) : Except Error (Option Bytes × ChunkReader) :=
  match _hfill : r.fill with
  | .error e => .error e
  | .ok r' =>
    if r'.filled = 0 then .ok (none, r')
    else
      match memrchr newline (r'.buf.take r'.filled) with
      | some nl => .ok (some (r'.buf.take (nl + 1)), { r' with consumed := nl + 1 })
      | none =>
        if r'.eof then
          -- Final line of a stream that does not end with a newline.
          .ok (some (r'.buf.take r'.filled), { r' with consumed := r'.filled })
        else if _hmax : r'.maxChunk ≤ r'.target then
          .error (.rowTooLarge r'.filled r'.maxChunk)
        else
          nextChunkLoop { r' with
            target := min (r'.target * 2) r'.maxChunk
            target_pos := r'.grown_pos _hmax }
termination_by r.maxChunk - r.target
decreasing_by exact grown_lt _hfill _hmax

def nextChunk (r : ChunkReader) : Except Error (Option Bytes × ChunkReader) :=
  r.carryForward.nextChunkLoop

/-- `next_chunk` called until it returns `None` or fails, at most `calls`
times; no result when that many calls are not enough. -/
def readAll : ℕ → ChunkReader → Option (Except Error (List Bytes))
  | 0, _ => none
  | calls + 1, r =>
    match r.nextChunk with
    | .error e => some (.error e)
    | .ok (none, _) => some (.ok [])
    | .ok (some chunk, r') => (readAll calls r').map fun out => out.map (chunk :: ·)

/-- What one call leaves the caller with: the end of an empty stream, or a
non-empty chunk that ends with a newline unless the stream ends with it. -/
def Delivers (s : Bytes) : Option Bytes × ChunkReader → Prop
  | (none, _) => s = []
  | (some chunk, r) => ∃ rest, s = chunk ++ rest ∧ r.Holds rest ∧ chunk ≠ [] ∧
      (chunk.getLast? = some newline ∨ rest = [])

/-- Handing out the first `n` filled bytes. -/
theorem Holds.consume {r : ChunkReader} {s : Bytes} (h : r.Holds s) (hc : r.consumed = 0)
    {n : ℕ} (hn : n ≤ r.filled) :
    ({ r with consumed := n } : ChunkReader).Holds (s.drop n) ∧ r.buf.take n ++ s.drop n = s := by
  have hstream := h.stream
  have hbuf := h.filled_le
  rw [hc, slice_zero] at hstream
  have hdrop : s.drop n = slice r.buf n r.filled ++ r.inner.unread := by
    rw [← hstream, List.drop_append_of_le_length (by simp; omega)]
    rfl
  refine ⟨⟨hn, hbuf, hdrop.symm, h.eof⟩, ?_⟩
  have htake : r.buf.take n = s.take n := by
    rw [← hstream, List.take_append_of_le_length (by simp; omega), List.take_take,
      min_eq_left hn]
  rw [htake, List.take_append_drop]

theorem Holds.delivers_line {r : ChunkReader} {s : Bytes} (h : r.Holds s) (hc : r.consumed = 0)
    {nl : ℕ} (hnl : memrchr newline (r.buf.take r.filled) = some nl) :
    Delivers s (some (r.buf.take (nl + 1)), { r with consumed := nl + 1 }) := by
  obtain ⟨-, -, hlt⟩ := memrchr_eq_some hnl
  have hle : nl + 1 ≤ r.filled := by
    simp only [List.length_take] at hlt
    omega
  obtain ⟨hrest, hjoin⟩ := h.consume hc hle
  have hbuf := h.filled_le
  have htake : r.buf.take (nl + 1) = r.buf.take nl ++ [newline] := by
    have hget := getElem?_of_memrchr hnl
    rw [List.getElem?_take_of_lt (by omega)] at hget
    rw [List.take_add_one, hget]
    rfl
  exact ⟨s.drop (nl + 1), hjoin.symm, hrest, by simp [htake], Or.inl (by simp [htake])⟩

/-- Handing out the last line of a stream that does not end with a newline. -/
theorem Holds.delivers_tail {r : ChunkReader} {s : Bytes} (h : r.Holds s) (hc : r.consumed = 0)
    (hfilled : r.filled ≠ 0) (heof : r.eof = true) :
    Delivers s (some (r.buf.take r.filled), { r with consumed := r.filled }) := by
  obtain ⟨hrest, hjoin⟩ := h.consume hc le_rfl
  have hbuf := h.filled_le
  refine ⟨s.drop r.filled, hjoin.symm, hrest, ?_, Or.inr ?_⟩
  · rw [Ne, List.take_eq_nil_iff, not_or]
    exact ⟨hfilled, List.ne_nil_of_length_pos (by omega)⟩
  · have hstream := h.stream
    rw [hc, slice_zero, h.eof heof, List.append_nil] at hstream
    rw [← hstream, List.drop_eq_nil_of_le (by simp)]

/-- How a call can end once the buffer has been filled for the last time. -/
inductive Ending (r : ChunkReader) : Except Error (Option Bytes × ChunkReader) → Prop
  | finished (hfilled : r.filled = 0) : Ending r (.ok (none, r))
  | line {nl : ℕ} (hnl : memrchr newline (r.buf.take r.filled) = some nl) :
      Ending r (.ok (some (r.buf.take (nl + 1)), { r with consumed := nl + 1 }))
  | tail (hfilled : r.filled ≠ 0) (hnl : newline ∉ r.buf.take r.filled) (heof : r.eof = true) :
      Ending r (.ok (some (r.buf.take r.filled), { r with consumed := r.filled }))
  | tooLarge (hnl : newline ∉ r.buf.take r.filled) (heof : r.eof = false)
      (hmax : r.maxChunk ≤ r.target) : Ending r (.error (.rowTooLarge r.filled r.maxChunk))

/-- The rule for the loop: what filling and growing keep holds when the call
ends, in the fill that fails or behind the one that is the last. -/
theorem nextChunkLoop_ending {P : ChunkReader → Prop}
    (hfill : ∀ {a b : ChunkReader}, P a → a.fill = .ok b → P b)
    (hgrow : ∀ (a : ChunkReader) (hpos : 0 < min (a.target * 2) a.maxChunk), P a →
      P { a with target := min (a.target * 2) a.maxChunk, target_pos := hpos })
    {r : ChunkReader} (h : P r) :
    (∃ (a : ChunkReader) (e : Error), P a ∧ a.fill = .error e ∧ r.nextChunkLoop = .error e) ∨
      ∃ a b : ChunkReader, a.fill = .ok b ∧ P b ∧ Ending b r.nextChunkLoop := by
  -- The target doubles up to `maxChunk`, which bounds the number of rounds.
  induction hn : r.maxChunk - r.target using Nat.strong_induction_on generalizing r with
  | h n ih =>
      rw [nextChunkLoop]
      split
      · next e hfail => exact Or.inl ⟨r, e, h, hfail, rfl⟩
      · next r' hok =>
          have h' := hfill h hok
          split
          · next hzero => exact Or.inr ⟨r, r', hok, h', .finished hzero⟩
          · next hfilled =>
              split
              · next nl hnl => exact Or.inr ⟨r, r', hok, h', .line hnl⟩
              · next hnl =>
                  have hfree := memrchr_eq_none_iff.mp hnl
                  split
                  · next heof => exact Or.inr ⟨r, r', hok, h', .tail hfilled hfree heof⟩
                  · next heof =>
                      split
                      · next hmax =>
                          exact Or.inr ⟨r, r', hok, h', .tooLarge hfree (by simpa using heof) hmax⟩
                      · next hmax =>
                          have hless := grown_lt hok hmax
                          rw [hn] at hless
                          exact ih _ hless (hgrow r' (r'.grown_pos hmax) h') rfl

theorem nextChunkLoop_delivers {r : ChunkReader} {s : Bytes} (h : r.Holds s)
    (hc : r.consumed = 0) {out : Option Bytes × ChunkReader} (hr : r.nextChunkLoop = .ok out) :
    Delivers s out := by
  have hrule := nextChunkLoop_ending (P := fun r => r.Holds s ∧ r.consumed = 0)
    (fun ha hok => ⟨fill_holds ha.1 ha.2 hok, (fill_frame hok).2.2.1.trans ha.2⟩)
    (fun a _ ha => ⟨⟨ha.1.consumed_le, ha.1.filled_le, ha.1.stream, ha.1.eof⟩, ha.2⟩) ⟨h, hc⟩
  rw [hr] at hrule
  obtain ⟨a, e, -, -, hfail⟩ | ⟨a, b, hok, ⟨hb, hcb⟩, hend⟩ := hrule
  · cases hfail
  · cases hend with
    | finished hzero =>
        have hpos := b.target_pos
        have heof : b.eof = true := (fill_frame hok).2.2.2.resolve_left (by omega)
        have hnone : s = [] := by simpa [slice, hzero, hb.eof heof] using hb.stream.symm
        exact hnone
    | line hnl => exact hb.delivers_line hcb hnl
    | tail hfilled _ heof => exact hb.delivers_tail hcb hfilled heof

theorem nextChunk_delivers {r : ChunkReader} {s : Bytes} (h : r.Holds s)
    {out : Option Bytes × ChunkReader} (hr : r.nextChunk = .ok out) : Delivers s out :=
  nextChunkLoop_delivers (carryForward_holds h).1 (carryForward_holds h).2 hr

/-- The chunks handed out before the end: together they are the stream, none
is empty, and all but the last end with a newline. -/
structure Chunks (s : Bytes) (chunks : List Bytes) : Prop where
  flatten : chunks.flatten = s
  ne_nil : ∀ c ∈ chunks, c ≠ []
  aligned : ∀ c ∈ chunks.dropLast, c.getLast? = some newline

theorem Chunks.nil : Chunks [] [] := ⟨rfl, by simp, by simp⟩

theorem Chunks.cons {chunk rest : Bytes} {chunks : List Bytes} (h : Chunks rest chunks)
    (hne : chunk ≠ []) (hend : chunk.getLast? = some newline ∨ rest = []) :
    Chunks (chunk ++ rest) (chunk :: chunks) := by
  refine ⟨by simp [h.flatten], by simpa [hne] using h.ne_nil, ?_⟩
  cases chunks with
  | nil => simp
  | cons c cs =>
      have hrest : rest ≠ [] := by
        rw [← h.flatten]
        simp [h.ne_nil c (by simp)]
      rw [List.dropLast_cons_cons, List.forall_mem_cons]
      exact ⟨hend.resolve_right hrest, h.aligned⟩

theorem readAll_chunks {r : ChunkReader} {s : Bytes} (h : r.Holds s) {calls : ℕ}
    (hcalls : s.length < calls) :
    ∃ out, r.readAll calls = some out ∧ ∀ chunks, out = .ok chunks → Chunks s chunks := by
  induction calls generalizing r s with
  | zero => omega
  | succ calls ih =>
      cases hnext : r.nextChunk with
      | error e => exact ⟨.error e, by simp [readAll, hnext], by simp⟩
      | ok out =>
          have hdeliver := nextChunk_delivers h hnext
          match out, hdeliver with
          | (none, r'), hend =>
              refine ⟨.ok [], by simp [readAll, hnext], ?_⟩
              rintro chunks ⟨⟩
              rw [hend]
              exact Chunks.nil
          | (some chunk, r'), ⟨rest, hs, hrest, hne, hend⟩ =>
              have hless : rest.length < calls := by
                have := List.length_pos_of_ne_nil hne
                rw [hs, List.length_append] at hcalls
                omega
              obtain ⟨out, hout, hspec⟩ := ih hrest hless
              refine ⟨out.map (chunk :: ·), by simp [readAll, hnext, hout], ?_⟩
              intro chunks hchunks
              cases out with
              | error e => simp [Except.map] at hchunks
              | ok cs =>
                  obtain rfl : chunk :: cs = chunks := by simpa [Except.map] using hchunks
                  rw [hs]
                  exact (hspec cs rfl).cons hne hend

/-- Reading a stream to its end, over an inner reader that answers with
arbitrary short reads: the calls come to an end, and when none of them failed
the chunks are the stream, each non-empty and all but the last ended by a
newline. -/
theorem readAll_withLimits (inner : Inner) (target maxChunk : ℕ) :
    ∃ out, (withLimits inner target maxChunk).readAll (inner.unread.length + 1) = some out ∧
      ∀ chunks, out = .ok chunks →
        chunks.flatten = inner.unread ∧ (∀ c ∈ chunks, c ≠ []) ∧
          ∀ c ∈ chunks.dropLast, c.getLast? = some newline := by
  obtain ⟨out, hout, hspec⟩ :=
    readAll_chunks (withLimits_holds inner target maxChunk) (Nat.lt_succ_self _)
  refine ⟨out, hout, fun chunks hchunks => ?_⟩
  have h := hspec chunks hchunks
  exact ⟨h.flatten, h.ne_nil, h.aligned⟩

end ChunkReader

end PgDelta.Dump
