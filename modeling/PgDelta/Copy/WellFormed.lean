import PgDelta.Copy.Unescape

/-!
Which rows `decode_row` accepts, and what it makes of them.

The iterator over the fields, with its flags, hands out the pieces between the
tabs of a row one after another and checks each limit on the way; `decodePieces`
does the same on the list of the pieces. A row is accepted when it is well
formed, and then its ranges tile the scratch buffer.
-/

namespace PgDelta.Copy

open PgDelta.Lib

/-! ### The pieces of a row -/

def decodePieces (limits : Limits) : ℕ → List Bytes → Bytes → List (Option Range) →
    Except Error (Bytes × List (Option Range))
  | _, [], scratch, out => .ok (scratch, out)
  | count, piece :: pieces, scratch, out =>
    if limits.maxColumns < count + 1 then .error (.tooManyColumns (count + 1) limits.maxColumns)
    else if limits.maxFieldBytes < piece.length then
      .error (.fieldTooLarge piece.length limits.maxFieldBytes)
    else if piece = nullMarker then
      decodePieces limits (count + 1) pieces scratch (out ++ [none])
    else
      match resolve piece with
      | .error e => .error e
      | .ok v =>
        decodePieces limits (count + 1) pieces (scratch ++ v)
          (out ++ [some ⟨scratch.length, (scratch ++ v).length⟩])

theorem Fields.checkRow_passes {it : Fields}
    (h : it.rowChecked = true ∨ it.row.length ≤ it.limits.maxRowBytes) :
    it.checkRow = (none, { it with rowChecked := true }) := by
  unfold Fields.checkRow
  split_ifs with hchecked hlen
  · rw [← hchecked]
  · obtain h | h := h
    · exact absurd h hchecked
    · omega
  · rfl

theorem Fields.next_finished {it : Fields}
    (hrow : it.rowChecked = true ∨ it.row.length ≤ it.limits.maxRowBytes)
    (hfin : it.finished = true) : it.next.1 = none := by
  rw [Fields.next, Fields.checkRow_passes hrow]
  simp [hfin]

/-- What `next` answers when the limits let the piece `raw` pass or not. -/
theorem Fields.next_of_takeRaw {it it' : Fields} {raw : Bytes}
    (hrow : it.rowChecked = true ∨ it.row.length ≤ it.limits.maxRowBytes)
    (hfin : it.finished = false)
    (htake : ({ it with rowChecked := true } : Fields).takeRaw = (raw, it')) :
    it.next =
      if it'.limits.maxColumns < it'.count + 1 then
        (some (.error (.tooManyColumns (it'.count + 1) it'.limits.maxColumns)),
          { it' with count := it'.count + 1, finished := true })
      else if it'.limits.maxFieldBytes < raw.length then
        (some (.error (.fieldTooLarge raw.length it'.limits.maxFieldBytes)),
          { it' with count := it'.count + 1, finished := true })
      else (some (.ok (classify raw)), { it' with count := it'.count + 1 }) := by
  have hfin' : ({ it with rowChecked := true } : Fields).finished = false := hfin
  rw [Fields.next, Fields.checkRow_passes hrow]
  generalize ({ it with rowChecked := true } : Fields) = it₁ at htake hfin' ⊢
  simp only [hfin', htake, Bool.false_eq_true, if_false]

theorem decodeFields_finished {it : Fields}
    (hrow : it.rowChecked = true ∨ it.row.length ≤ it.limits.maxRowBytes)
    (hfin : it.finished = true) (fuel : ℕ) (scratch : Bytes) (out : List (Option Range)) :
    decodeFields fuel it scratch out = .ok (scratch, out) := by
  cases fuel with
  | zero => rfl
  | succ fuel =>
    have hnext : it.next = (none, it.next.2) := by rw [← Fields.next_finished hrow hfin]
    rw [decodeFields, hnext]

/-- One round of the loop over the iterator is one of the loop over the pieces. -/
theorem decodeFields_round {it it' : Fields} {raw : Bytes} {pieces : List Bytes}
    (hrow : it.rowChecked = true ∨ it.row.length ≤ it.limits.maxRowBytes)
    (hfin : it.finished = false)
    (htake : ({ it with rowChecked := true } : Fields).takeRaw = (raw, it'))
    (hlimits : it'.limits = it.limits) (hcount : it'.count = it.count) {fuel : ℕ}
    (hrest : ∀ scratch out, decodeFields fuel { it' with count := it'.count + 1 } scratch out
      = decodePieces it.limits (it.count + 1) pieces scratch out)
    (scratch : Bytes) (out : List (Option Range)) :
    decodeFields (fuel + 1) it scratch out
      = decodePieces it.limits it.count (raw :: pieces) scratch out := by
  rw [decodeFields, decodePieces, Fields.next_of_takeRaw hrow hfin htake, hlimits, hcount]
  rw [hcount, hlimits] at hrest
  by_cases hcolumns : it.limits.maxColumns < it.count + 1
  · rw [if_pos hcolumns, if_pos hcolumns]
  rw [if_neg hcolumns, if_neg hcolumns]
  by_cases hfield : it.limits.maxFieldBytes < raw.length
  · rw [if_pos hfield, if_pos hfield]
  rw [if_neg hfield, if_neg hfield]
  by_cases hnull : raw = nullMarker
  · subst hnull
    exact hrest scratch (out ++ [none])
  · have hfalse : (classify raw).isNull = false := by
      unfold classify
      rw [if_neg hnull]
      split_ifs <;> rfl
    simp only [hfalse, Bool.false_eq_true, if_false, if_neg hnull, unescapeInto_classify hnull]
    cases resolve raw with
    | error e => rfl
    | ok v => exact hrest _ _

/-- The loop over the iterator is the loop over the pieces. -/
theorem decodeFields_eq {it : Fields} {s : Bytes}
    (hrow : it.rowChecked = true ∨ it.row.length ≤ it.limits.maxRowBytes)
    (hrest : it.row.drop it.pos = s) (hfin : it.finished = false) {fuel : ℕ}
    (hfuel : s.length < fuel) (scratch : Bytes) (out : List (Option Range)) :
    decodeFields fuel it scratch out
      = decodePieces it.limits it.count (s.splitOn tab) scratch out := by
  induction fuel generalizing it s scratch out with
  | zero => omega
  | succ fuel ih =>
    by_cases htab : tab ∈ s
    · obtain ⟨a, t, rfl, ha⟩ := List.eq_append_cons_of_mem htab
      have hslice : slice it.row it.pos (it.pos + a.length) = a := by
        rw [slice, List.drop_take, Nat.add_sub_cancel_left, hrest, List.take_left]
      have hdrop : it.row.drop (it.pos + a.length + 1) = t := by
        rw [Nat.add_assoc, ← List.drop_drop, hrest]
        simp
      have htake : ({ it with rowChecked := true } : Fields).takeRaw
          = (a, { it with rowChecked := true, pos := it.pos + a.length + 1 }) := by
        simp [Fields.takeRaw, hrest, memchr_append_cons ha, hslice]
      have hless : t.length < fuel := by
        rw [List.length_append, List.length_cons] at hfuel
        omega
      rw [List.splitOn_append_cons_self_of_not_mem ha]
      refine decodeFields_round hrow hfin htake rfl rfl (fun scratch out => ?_) scratch out
      exact @ih { it with rowChecked := true, pos := it.pos + a.length + 1, count := it.count + 1 }
        t (.inl rfl) hdrop hfin hless scratch out
    · have htake : ({ it with rowChecked := true } : Fields).takeRaw
          = (s, { it with rowChecked := true, finished := true }) := by
        simp [Fields.takeRaw, hrest, memchr_eq_none_iff.2 htab]
      rw [List.splitOn_eq_singleton htab]
      refine decodeFields_round hrow hfin htake rfl rfl (fun scratch out => ?_) scratch out
      rw [decodePieces]
      exact decodeFields_finished (.inl rfl) rfl fuel scratch out

theorem decodeFields_tooLarge {row : Bytes} {limits : Limits}
    (h : limits.maxRowBytes < row.length) (fuel : ℕ) (scratch : Bytes)
    (out : List (Option Range)) :
    decodeFields (fuel + 1) (fields row limits) scratch out
      = .error (.rowTooLarge row.length limits.maxRowBytes) := by
  simp [decodeFields, Fields.next, Fields.checkRow, fields, h]

/-! ### Rows that are accepted -/

/-- A row that fits the table and the limits, and can be resolved. -/
structure WellFormed (row : Bytes) (expected : ℕ) (limits : Limits) : Prop where
  size : row.length ≤ limits.maxRowBytes
  count : (row.splitOn tab).length = expected
  columns : expected ≤ limits.maxColumns
  field : ∀ piece ∈ row.splitOn tab, piece.length ≤ limits.maxFieldBytes
  escapes : ∀ piece ∈ row.splitOn tab, piece ≠ nullMarker → ∃ v, resolve piece = .ok v

/-- The bytes of a range, unless it reaches beyond the buffer. -/
def Range.index (r : Range) (scratch : Bytes) : Option Bytes :=
  if r.start ≤ r.stop ∧ r.stop ≤ scratch.length then some (slice scratch r.start r.stop) else none

/-- Ranges that stand for the pieces, one behind the other from `start` to the
end of the buffer. -/
def Tiles (scratch : Bytes) : ℕ → List Bytes → List (Option Range) → Prop
  | start, [], [] => start = scratch.length
  | start, piece :: pieces, none :: out => piece = nullMarker ∧ Tiles scratch start pieces out
  | start, piece :: pieces, some r :: out =>
    piece ≠ nullMarker ∧ r.start = start
      ∧ (∃ v, r.index scratch = some v ∧ resolve piece = .ok v)
      ∧ Tiles scratch r.stop pieces out
  | _, _, _ => False

/-- Clear the two buffers, whatever they hold, and decode a row into them. -/
def decodeRowInto (row : Bytes) (expected : ℕ) (limits : Limits)
    (buffers : Bytes × List (Option Range)) : Except Error (Bytes × List (Option Range)) :=
  match decodeFields (row.length + 2) (fields row limits) (buffers.1.take 0) (buffers.2.take 0) with
  | .error e => .error e
  | .ok (scratch, out) =>
    if out.length = expected then .ok (scratch, out)
    else .error (.fieldCountMismatch out.length expected)

theorem decodeRowInto_eq (row : Bytes) (expected : ℕ) (limits : Limits)
    (buffers : Bytes × List (Option Range)) :
    decodeRowInto row expected limits buffers = decodeRow row expected limits := rfl

theorem Tiles.length {scratch : Bytes} {start : ℕ} {pieces : List Bytes}
    {out : List (Option Range)} (h : Tiles scratch start pieces out) :
    out.length = pieces.length := by
  induction pieces generalizing start out with
  | nil =>
    cases out with
    | nil => rfl
    | cons r out => exact h.elim
  | cons piece pieces ih =>
    cases out with
    | nil => exact h.elim
    | cons r out =>
      cases r with
      | none => rw [List.length_cons, List.length_cons, ih h.2]
      | some r => rw [List.length_cons, List.length_cons, ih h.2.2.2]

/-- What the loop over the pieces has checked and done when it comes to their
end. -/
theorem decodePieces_ok {limits : Limits} {count : ℕ} {pieces : List Bytes} {scratch bytes : Bytes}
    {out ranges : List (Option Range)}
    (h : decodePieces limits count pieces scratch out = .ok (bytes, ranges)) :
    (pieces ≠ [] → count + pieces.length ≤ limits.maxColumns)
      ∧ (∀ piece ∈ pieces, piece.length ≤ limits.maxFieldBytes)
      ∧ (∀ piece ∈ pieces, piece ≠ nullMarker → ∃ v, resolve piece = .ok v)
      ∧ ∃ more, ranges = out ++ more ∧ scratch <+: bytes
        ∧ Tiles bytes scratch.length pieces more := by
  induction pieces generalizing count scratch out with
  | nil =>
    obtain ⟨rfl, rfl⟩ := Prod.mk.inj (Except.ok.inj h)
    exact ⟨by simp, by simp, by simp, [], by simp, List.prefix_rfl, rfl⟩
  | cons piece pieces ih =>
    have hstep : ¬limits.maxColumns < count + 1 →
        (pieces ≠ [] → count + 1 + pieces.length ≤ limits.maxColumns) →
        count + (piece :: pieces).length ≤ limits.maxColumns := by
      intro hcolumns hmax
      cases pieces with
      | nil => simpa using hcolumns
      | cons p ps =>
        have hrest := hmax (List.cons_ne_nil p ps)
        rw [List.length_cons]
        omega
    rw [decodePieces] at h
    split_ifs at h with hcolumns hfield hnull
    · obtain ⟨hmax, hlength, hvalid, more, hranges, hscratch, htiles⟩ := ih h
      refine ⟨fun _ => ?_, ?_, ?_, none :: more, by simp [hranges], hscratch, hnull, htiles⟩
      · exact hstep hcolumns hmax
      · simpa using ⟨by omega, hlength⟩
      · simpa [hnull] using hvalid
    · cases hread : resolve piece with
      | error e => simp [hread] at h
      | ok v =>
        simp only [hread] at h
        obtain ⟨hmax, hlength, hvalid, more, hranges, hscratch, htiles⟩ := ih h
        refine ⟨fun _ => ?_, ?_, ?_, some ⟨scratch.length, (scratch ++ v).length⟩ :: more,
          by simp [hranges], (List.prefix_append _ _).trans hscratch, hnull, rfl, ⟨v, ?_, hread⟩,
          htiles⟩
        · exact hstep hcolumns hmax
        · simpa using ⟨by omega, hlength⟩
        · simpa [hread] using hvalid
        · obtain ⟨t, rfl⟩ := hscratch
          rw [Range.index, if_pos ⟨by simp, by simp⟩, slice, List.take_left, List.drop_left]

theorem decodePieces_of_fit {limits : Limits} {count : ℕ} {pieces : List Bytes}
    (hcolumns : count + pieces.length ≤ limits.maxColumns)
    (hfield : ∀ piece ∈ pieces, piece.length ≤ limits.maxFieldBytes)
    (hescapes : ∀ piece ∈ pieces, piece ≠ nullMarker → ∃ v, resolve piece = .ok v)
    (scratch : Bytes) (out : List (Option Range)) :
    ∃ bytes ranges, decodePieces limits count pieces scratch out = .ok (bytes, ranges) := by
  induction pieces generalizing count scratch out with
  | nil => exact ⟨scratch, out, rfl⟩
  | cons piece pieces ih =>
    rw [List.length_cons] at hcolumns
    have hlength := hfield piece List.mem_cons_self
    have hrest := fun scratch out => @ih (count + 1) (by omega)
      (fun p hp => hfield p (List.mem_cons_of_mem _ hp))
      (fun p hp => hescapes p (List.mem_cons_of_mem _ hp)) scratch out
    rw [decodePieces, if_neg (by omega), if_neg (by omega)]
    by_cases hnull : piece = nullMarker
    · rw [if_pos hnull]
      exact hrest _ _
    · obtain ⟨v, hv⟩ := hescapes piece List.mem_cons_self hnull
      rw [if_neg hnull, hv]
      exact hrest _ _

theorem decodeRow_eq (row : Bytes) (expected : ℕ) (limits : Limits)
    (h : row.length ≤ limits.maxRowBytes) :
    decodeRow row expected limits =
      match decodePieces limits 0 (row.splitOn tab) [] [] with
      | .error e => .error e
      | .ok (scratch, out) =>
        if out.length = expected then .ok (scratch, out)
        else .error (.fieldCountMismatch out.length expected) := by
  have hloop := @decodeFields_eq (fields row limits) row (.inr h) rfl rfl (row.length + 2)
    (by omega) [] []
  rw [decodeRow, hloop]
  rfl

theorem Tiles.index {scratch : Bytes} {start : ℕ} {pieces : List Bytes}
    {out : List (Option Range)} (h : Tiles scratch start pieces out) {r : Range}
    (hr : some r ∈ out) : (r.index scratch).isSome = true := by
  induction pieces generalizing start out with
  | nil =>
    cases out with
    | nil => cases hr
    | cons s out => exact h.elim
  | cons piece pieces ih =>
    cases out with
    | nil => exact h.elim
    | cons s out =>
      cases s with
      | none => exact ih h.2 (by simpa using hr)
      | some s =>
        obtain ⟨-, -, ⟨v, hv, -⟩, htiles⟩ := h
        obtain rfl | hr : r = s ∨ some r ∈ out := by simpa using hr
        · rw [hv]
          rfl
        · exact ih htiles hr

theorem WellFormed.decodeRow {row : Bytes} {expected : ℕ} {limits : Limits}
    (h : WellFormed row expected limits) :
    ∃ decoded, decodeRow row expected limits = .ok decoded := by
  have hcolumns : 0 + (row.splitOn tab).length ≤ limits.maxColumns := by
    rw [Nat.zero_add, h.count]
    exact h.columns
  obtain ⟨bytes, ranges, hok⟩ := decodePieces_of_fit hcolumns h.field h.escapes [] []
  obtain ⟨-, -, -, more, hranges, -, htiles⟩ := decodePieces_ok hok
  have hlength : ranges.length = expected := by
    rw [hranges, List.nil_append, htiles.length, h.count]
  refine ⟨(bytes, ranges), ?_⟩
  rw [decodeRow_eq row expected limits h.size, hok]
  exact if_pos hlength

theorem decodeRow_ok {row : Bytes} {expected : ℕ} {limits : Limits} {scratch : Bytes}
    {out : List (Option Range)} (h : decodeRow row expected limits = .ok (scratch, out)) :
    WellFormed row expected limits ∧ Tiles scratch 0 (row.splitOn tab) out := by
  have hsize : row.length ≤ limits.maxRowBytes := by
    by_contra hlarge
    rw [Copy.decodeRow, decodeFields_tooLarge (by omega)] at h
    cases h
  rw [decodeRow_eq row expected limits hsize] at h
  cases hok : decodePieces limits 0 (row.splitOn tab) [] [] with
  | error e => simp [hok] at h
  | ok r =>
    obtain ⟨bytes, ranges⟩ := r
    simp only [hok] at h
    split_ifs at h with hcount
    obtain ⟨rfl, rfl⟩ := Prod.mk.inj (Except.ok.inj h)
    obtain ⟨hmax, hfield, hescapes, more, hranges, -, htiles⟩ := decodePieces_ok hok
    obtain rfl : ranges = more := by simpa using hranges
    have hlength : (row.splitOn tab).length = expected := by rw [← htiles.length, hcount]
    have hcolumns := hmax (List.splitOn_ne_nil tab row)
    exact ⟨⟨hsize, hlength, by omega, hfield, hescapes⟩, htiles⟩

/-- A row is decoded, whatever the buffers held, exactly when it is well formed;
and then the ranges are one for each piece, and tile the scratch buffer. -/
theorem decode_row_ok_iff (row : Bytes) (expected : ℕ) (limits : Limits)
    (buffers : Bytes × List (Option Range)) :
    ((∃ decoded, decodeRowInto row expected limits buffers = .ok decoded)
        ↔ WellFormed row expected limits)
      ∧ ∀ scratch out, decodeRowInto row expected limits buffers = .ok (scratch, out) →
        out.length = (row.splitOn tab).length ∧ Tiles scratch 0 (row.splitOn tab) out
          ∧ ∀ r, some r ∈ out → (r.index scratch).isSome = true := by
  rw [decodeRowInto_eq]
  refine ⟨⟨?_, WellFormed.decodeRow⟩, fun scratch out h => ?_⟩
  · rintro ⟨⟨scratch, out⟩, h⟩
    exact (decodeRow_ok h).1
  · obtain ⟨-, htiles⟩ := decodeRow_ok h
    exact ⟨htiles.length, htiles, fun r hr => htiles.index hr⟩

end PgDelta.Copy
