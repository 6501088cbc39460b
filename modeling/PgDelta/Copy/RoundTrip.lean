import PgDelta.Copy.Decode

/-!
What the decoder computes: the rows of a chunk are its complete lines, and a
row written in COPY TEXT decodes to the fields it was written from.

`encodeRow` is the writer's side of the format. Nothing it writes contains a
raw tab inside a field, a raw line ending inside a row, or the two bytes of
the terminator as a row of their own.
-/

namespace PgDelta.Copy

open PgDelta.Lib

/-! ### Rows of a chunk -/

theorem nextRow_of_not_mem {rest : Bytes} (h : newline ∉ rest) : nextRow rest = none := by
  simp [nextRow, memchr_eq_none_iff.mpr h]

theorem nextRow_line {l : Bytes} (h : newline ∉ l) (rest : Bytes) :
    nextRow (l ++ newline :: rest) = some (stripCr l, rest) := by
  simp [nextRow, memchr_append_cons h]

theorem rowsLoop_eq (fuel : ℕ) (rest : Bytes) (h : rest.length < fuel) :
    rowsLoop fuel rest = (lines newline rest).1.map stripCr := by
  induction fuel generalizing rest with
  | zero => omega
  | succ fuel ih =>
      by_cases hnl : newline ∈ rest
      · obtain ⟨l, s, rfl, hl⟩ := List.eq_append_cons_of_mem hnl
        have hs : s.length < fuel := by
          simp only [List.length_append, List.length_cons] at h
          omega
        rw [rowsLoop, nextRow_line hl, lines_line hl]
        simp [ih s hs]
      · rw [rowsLoop, nextRow_of_not_mem hnl, lines_of_not_mem hnl]
        rfl

/-- The rows of a chunk are its complete lines, each without one carriage
return at its end. -/
theorem rows_eq (chunk : Bytes) : rows chunk = (lines newline chunk).1.map stripCr :=
  rowsLoop_eq _ _ (Nat.lt_succ_self _)

theorem rows_unlines {ls : List Bytes} (h : ∀ l ∈ ls, newline ∉ l) :
    rows (unlines newline ls) = ls.map stripCr := by
  have hlines := lines_unlines_append h []
  rw [List.append_nil] at hlines
  rw [rows_eq, hlines]
  simp

theorem remainderLoop_eq (fuel : ℕ) (rest : Bytes) (h : rest.length < fuel) :
    remainderLoop fuel rest = (lines newline rest).2 := by
  induction fuel generalizing rest with
  | zero => omega
  | succ fuel ih =>
      by_cases hnl : newline ∈ rest
      · obtain ⟨l, s, rfl, hl⟩ := List.eq_append_cons_of_mem hnl
        have hs : s.length < fuel := by
          simp only [List.length_append, List.length_cons] at h
          omega
        rw [remainderLoop, nextRow_line hl, lines_line hl]
        exact ih s hs
      · rw [remainderLoop, nextRow_of_not_mem hnl, lines_of_not_mem hnl]

theorem remainder_unlines {ls : List Bytes} (h : ∀ l ∈ ls, newline ∉ l) :
    remainder (unlines newline ls) = [] := by
  have hlines := lines_unlines_append h []
  rw [List.append_nil] at hlines
  rw [remainder, remainderLoop_eq _ _ (Nat.lt_succ_self _), hlines]
  rfl

theorem stripCr_of_not_mem {line : Bytes} (h : carriageReturn ∉ line) : stripCr line = line := by
  unfold stripCr
  rw [if_neg]
  intro hlast
  exact h (List.mem_of_getLast? hlast)

/-! ### COPY TEXT -/

/-- One byte of a value as COPY TEXT writes it. -/
def escapeByte (b : UInt8) : Bytes :=
  if b = backslash then [backslash, backslash]
  else if b = 0x08 then [backslash, 98]
  else if b = 0x0C then [backslash, 102]
  else if b = newline then [backslash, 110]
  else if b = carriageReturn then [backslash, 114]
  else if b = tab then [backslash, 116]
  else if b = 0x0B then [backslash, 118]
  else [b]

def encodeValue (v : Bytes) : Bytes := v.flatMap escapeByte

def encodeField : Option Bytes → Bytes
  | none => nullMarker
  | some v => encodeValue v

/-- Encoded fields, joined by tabs. -/
def encodeRow : List (Option Bytes) → Bytes
  | [] => []
  | [f] => encodeField f
  | f :: g :: fs => encodeField f ++ tab :: encodeRow (g :: fs)

@[simp] theorem encodeValue_nil : encodeValue [] = [] := rfl

@[simp] theorem encodeValue_cons (b : UInt8) (v : Bytes) :
    encodeValue (b :: v) = escapeByte b ++ encodeValue v := rfl

/-- An escaped byte is the byte itself, or a backslash and a byte that names
it to `unescapeOne` and is neither `N` nor a period. -/
theorem escapeByte_cases (b : UInt8) :
    (escapeByte b = [b] ∧ b ≠ backslash ∧ b ≠ newline ∧ b ≠ carriageReturn ∧ b ≠ tab) ∨
      ∃ c, escapeByte b = [backslash, c] ∧ (∀ s, unescapeOne (c :: s) = .ok (b, s)) ∧
        c ≠ 78 ∧ c ≠ 46 ∧ c ≠ newline ∧ c ≠ carriageReturn ∧ c ≠ tab := by
  unfold escapeByte
  split_ifs with h1 h2 h3 h4 h5 h6 h7
  · exact .inr ⟨_, rfl, fun s => by subst h1; rfl, by decide⟩
  · exact .inr ⟨_, rfl, fun s => by subst h2; rfl, by decide⟩
  · exact .inr ⟨_, rfl, fun s => by subst h3; rfl, by decide⟩
  · exact .inr ⟨_, rfl, fun s => by subst h4; rfl, by decide⟩
  · exact .inr ⟨_, rfl, fun s => by subst h5; rfl, by decide⟩
  · exact .inr ⟨_, rfl, fun s => by subst h6; rfl, by decide⟩
  · exact .inr ⟨_, rfl, fun s => by subst h7; rfl, by decide⟩
  · exact .inl ⟨rfl, h1, h4, h5, h6⟩

theorem not_mem_encodeField (f : Option Bytes) :
    newline ∉ encodeField f ∧ carriageReturn ∉ encodeField f ∧ tab ∉ encodeField f := by
  cases f with
  | none => decide
  | some v =>
      induction v with
      | nil => simp [encodeField]
      | cons b v ih =>
          simp only [encodeField, encodeValue_cons, List.mem_append, not_or] at ih ⊢
          rcases escapeByte_cases b with ⟨he, -, hn, hr, ht⟩ | ⟨c, he, -, -, -, hn, hr, ht⟩
          · simp [he, ih, hn.symm, hr.symm, ht.symm]
          · simp [he, ih, hn.symm, hr.symm, ht.symm, show newline ≠ backslash by decide,
              show carriageReturn ≠ backslash by decide, show tab ≠ backslash by decide]

theorem not_mem_encodeRow (fs : List (Option Bytes)) :
    newline ∉ encodeRow fs ∧ carriageReturn ∉ encodeRow fs := by
  induction fs using encodeRow.induct with
  | case1 => simp [encodeRow]
  | case2 f => exact ⟨(not_mem_encodeField f).1, (not_mem_encodeField f).2.1⟩
  | case3 f g fs ih =>
      obtain ⟨hn, hr, -⟩ := not_mem_encodeField f
      simp [encodeRow, ih, hn, hr, show newline ≠ tab by decide,
        show carriageReturn ≠ tab by decide]

/-- The first two bytes of a field, if it has that many, are not a backslash
and a period. -/
theorem take_encodeField_ne (f : Option Bytes) (s : Bytes) :
    encodeField f ++ tab :: s ≠ endOfData ∧ encodeField f ≠ endOfData := by
  cases f with
  | none => simp [encodeField, nullMarker, endOfData]
  | some v =>
      cases v with
      | nil => simp [encodeField, endOfData, show tab ≠ backslash by decide]
      | cons b v =>
          rcases escapeByte_cases b with ⟨he, hb, -⟩ | ⟨c, he, -, -, hc, -⟩
          · simp [encodeField, he, endOfData, hb]
          · simp [encodeField, he, endOfData, hc]

/-- No row of fields is written as the terminator line. -/
theorem encodeRow_ne_endOfData (fs : List (Option Bytes)) : encodeRow fs ≠ endOfData := by
  cases fs with
  | nil => simp [encodeRow, endOfData]
  | cons f fs =>
      cases fs with
      | nil => exact (take_encodeField_ne f []).2
      | cons g fs => exact (take_encodeField_ne f _).1

/-- No value is written as the NULL marker. -/
theorem encodeValue_ne_nullMarker (v : Bytes) : encodeValue v ≠ nullMarker := by
  cases v with
  | nil => simp [nullMarker]
  | cons b v =>
      rcases escapeByte_cases b with ⟨he, hb, -⟩ | ⟨c, he, -, hc, -⟩
      · simp [he, nullMarker, hb]
      · simp [he, nullMarker, hc]

/-! ### Decoding what was encoded -/

theorem unescapeLoop_nil (fuel : ℕ) (out : Bytes) : unescapeLoop fuel [] out = .ok out := by
  cases fuel <;> simp [unescapeLoop]

theorem unescapeLoop_cons {b : UInt8} (hb : b ≠ backslash) (fuel : ℕ) (s out : Bytes) :
    unescapeLoop (fuel + 1) (b :: s) out = unescapeLoop (fuel + 1) s (out ++ [b]) := by
  cases hs : memchr backslash s with
  | none => simp [unescapeLoop, memchr_cons_of_ne hb, hs]
  | some off => simp [unescapeLoop, memchr_cons_of_ne hb, hs]

theorem unescapeLoop_escape {b : UInt8} {s rest : Bytes} (h : unescapeOne s = .ok (b, rest))
    (fuel : ℕ) (out : Bytes) :
    unescapeLoop (fuel + 1) (backslash :: s) out = unescapeLoop fuel rest (out ++ [b]) := by
  simp [unescapeLoop, h]

theorem unescapeLoop_encodeValue (v : Bytes) (fuel : ℕ) (out : Bytes) (h : v.length < fuel) :
    unescapeLoop fuel (encodeValue v) out = .ok (out ++ v) := by
  induction v generalizing fuel out with
  | nil => simp [unescapeLoop_nil]
  | cons b v ih =>
      obtain ⟨fuel, rfl⟩ : ∃ n, fuel = n + 1 := ⟨fuel - 1, by omega⟩
      rw [List.length_cons] at h
      rw [encodeValue_cons]
      rcases escapeByte_cases b with ⟨he, hb, -⟩ | ⟨c, he, hc, -⟩
      · rw [he, List.singleton_append, unescapeLoop_cons hb, ih _ _ (by omega)]
        simp
      · rw [he, List.cons_append, List.singleton_append, unescapeLoop_escape (hc _),
          ih _ _ (by omega)]
        simp

theorem length_le_encodeValue (v : Bytes) : v.length ≤ (encodeValue v).length := by
  induction v with
  | nil => simp
  | cons b v ih =>
      rcases escapeByte_cases b with ⟨he, -⟩ | ⟨c, he, -⟩ <;> simp [he] <;> omega

theorem isNull_classify_encodeField (f : Option Bytes) :
    (classify (encodeField f)).isNull = f.isNone := by
  cases f with
  | none => rfl
  | some v =>
      have hne : encodeField (some v) ≠ nullMarker := encodeValue_ne_nullMarker v
      rw [classify, if_neg hne]
      split_ifs <;> rfl

/-- A value that needs no escape is written as it is; any other is resolved
by the escape loop. -/
theorem unescapeInto_classify_encodeValue (v scratch : Bytes) :
    (classify (encodeValue v)).unescapeInto scratch = .ok (scratch ++ v) := by
  have hloop := unescapeLoop_encodeValue v ((encodeValue v).length + 1) scratch
    (Nat.lt_succ_of_le (length_le_encodeValue v))
  simp only [classify, if_neg (encodeValue_ne_nullMarker v)]
  split_ifs with hesc
  · exact hloop
  · have hnone : memchr backslash (encodeValue v) = none := by simpa using hesc
    rw [← hloop]
    simp [Field.unescapeInto, unescapeLoop, hnone]

/-- Limits within which a row is decoded. -/
structure Limits.Admit (limits : Limits) (fs : List (Option Bytes)) : Prop where
  row : (encodeRow fs).length ≤ limits.maxRowBytes
  columns : fs.length ≤ limits.maxColumns
  field : ∀ f ∈ fs, (encodeField f).length ≤ limits.maxFieldBytes

/-- An iterator that has the encoding of `fs` still to read. -/
structure Fields.Ahead (it : Fields) (fs : List (Option Bytes)) : Prop where
  row : it.rowChecked = true ∨ it.row.length ≤ it.limits.maxRowBytes
  rest : fs ≠ [] → it.row.drop it.pos = encodeRow fs
  finished : it.finished = fs.isEmpty
  columns : it.count + fs.length ≤ it.limits.maxColumns
  field : ∀ f ∈ fs, (encodeField f).length ≤ it.limits.maxFieldBytes

theorem Fields.Ahead.checkRow {it : Fields} {fs : List (Option Bytes)} (h : it.Ahead fs) :
    ∃ it', it.checkRow = (none, it') ∧ it'.Ahead fs := by
  obtain ⟨hrow, hrest, hfin, hcols, hfield⟩ := h
  unfold Fields.checkRow
  split_ifs with hchecked hlen
  · exact ⟨_, rfl, hrow, hrest, hfin, hcols, hfield⟩
  · rcases hrow with hrow | hrow
    · exact absurd hrow hchecked
    · omega
  · exact ⟨_, rfl, .inl rfl, hrest, hfin, hcols, hfield⟩

/-- Taking one raw field: the encoding of the first field, with the others
still ahead. -/
theorem Fields.Ahead.takeRaw {it : Fields} {f : Option Bytes} {fs : List (Option Bytes)}
    (h : it.Ahead (f :: fs)) :
    ∃ it', it.takeRaw = (encodeField f, it') ∧ it'.limits = it.limits ∧
      it'.count = it.count ∧ { it' with count := it'.count + 1 }.Ahead fs := by
  obtain ⟨hrow, hrest, hfin, hcols, hfield⟩ := h
  have hrest := hrest (by simp)
  have htab : tab ∉ encodeField f := (not_mem_encodeField f).2.2
  have hfin : it.finished = false := by simpa using hfin
  have hcols : it.count + 1 + fs.length ≤ it.limits.maxColumns := by
    rw [List.length_cons] at hcols
    omega
  have hfield' : ∀ g ∈ fs, (encodeField g).length ≤ it.limits.maxFieldBytes :=
    fun g hg => hfield g (by simp [hg])
  cases fs with
  | nil =>
      rw [encodeRow] at hrest
      refine ⟨{ it with finished := true }, ?_, rfl, rfl, ?_⟩
      · simp [Fields.takeRaw, hrest, memchr_eq_none_iff.mpr htab]
      · exact ⟨hrow, by simp, rfl, hcols, hfield'⟩
  | cons g fs =>
      rw [encodeRow] at hrest
      have hslice : slice it.row it.pos (it.pos + (encodeField f).length) = encodeField f := by
        rw [slice, List.drop_take, Nat.add_sub_cancel_left, hrest, List.take_left]
      refine ⟨{ it with pos := it.pos + (encodeField f).length + 1 }, ?_, rfl, rfl, ?_⟩
      · simp [Fields.takeRaw, hrest, memchr_append_cons htab, hslice]
      · refine ⟨hrow, fun _ => ?_, hfin, hcols, hfield'⟩
        rw [Nat.add_assoc, ← List.drop_drop, hrest]
        simp

theorem Fields.Ahead.next_nil {it : Fields} (h : it.Ahead []) : it.next.1 = none := by
  obtain ⟨it', hcheck, hahead⟩ := h.checkRow
  have hfin : it'.finished = true := hahead.finished
  simp [Fields.next, hcheck, hfin]

theorem Fields.Ahead.next_cons {it : Fields} {f : Option Bytes} {fs : List (Option Bytes)}
    (h : it.Ahead (f :: fs)) :
    ∃ it', it.next = (some (.ok (classify (encodeField f))), it') ∧ it'.Ahead fs := by
  obtain ⟨it₁, hcheck, h₁⟩ := h.checkRow
  obtain ⟨it₂, htake, hlimits, hcount, h₂⟩ := h₁.takeRaw
  have hfin : it₁.finished = false := by simpa using h₁.finished
  have hcols : it₁.count + 1 ≤ it₁.limits.maxColumns := by
    have := h₁.columns
    rw [List.length_cons] at this
    omega
  have hlen := h₁.field f (by simp)
  refine ⟨_, ?_, h₂⟩
  simp only [Fields.next, hcheck, hfin, htake, Bool.false_eq_true, if_false]
  rw [if_neg (by rw [hlimits, hcount]; omega), if_neg (by rw [hlimits]; omega)]

/-- The loop of `decodeRow` appends the values to the scratch buffer, and its
ranges find them there whatever is appended behind them. -/
theorem decodeFields_ahead (fs : List (Option Bytes)) (it : Fields) (h : it.Ahead fs)
    (fuel : ℕ) (hfuel : fs.length < fuel) (scratch : Bytes) (out : List (Option Range)) :
    ∃ bytes ranges,
      decodeFields fuel it scratch out = .ok (scratch ++ bytes, out ++ ranges) ∧
        ranges.length = fs.length ∧
        ∀ t, values (scratch ++ bytes ++ t, ranges) = fs := by
  induction fs generalizing it fuel scratch out with
  | nil =>
      obtain ⟨fuel, rfl⟩ : ∃ n, fuel = n + 1 := ⟨fuel - 1, by omega⟩
      have hnext : it.next = (none, it.next.2) := by rw [← h.next_nil]
      refine ⟨[], [], ?_, rfl, fun t => rfl⟩
      rw [decodeFields, hnext]
      simp
  | cons f fs ih =>
      obtain ⟨fuel, rfl⟩ : ∃ n, fuel = n + 1 := ⟨fuel - 1, by omega⟩
      rw [List.length_cons] at hfuel
      obtain ⟨it', hnext, h'⟩ := h.next_cons
      cases f with
      | none =>
          obtain ⟨bytes, ranges, hloop, hlen, hvalues⟩ :=
            ih it' h' fuel (by omega) scratch (out ++ [none])
          refine ⟨bytes, none :: ranges, ?_, by simp [hlen], fun t => ?_⟩
          · rw [decodeFields, hnext]
            simp [isNull_classify_encodeField, hloop]
          · simpa [values] using hvalues t
      | some v =>
          obtain ⟨bytes, ranges, hloop, hlen, hvalues⟩ :=
            ih it' h' fuel (by omega) (scratch ++ v)
              (out ++ [some ⟨scratch.length, (scratch ++ v).length⟩])
          refine ⟨v ++ bytes, some ⟨scratch.length, (scratch ++ v).length⟩ :: ranges, ?_,
            by simp [hlen], fun t => ?_⟩
          · have hnull : (classify (encodeValue v)).isNull = false :=
              isNull_classify_encodeField (some v)
            simp only [decodeFields, hnext, encodeField, hnull,
              unescapeInto_classify_encodeValue, hloop]
            simp
          · have hv : slice (scratch ++ (v ++ bytes) ++ t) scratch.length
                (scratch ++ v).length = v := by
              simp [slice, List.take_append]
            have hfs := hvalues t
            simp only [values, List.map_cons, Option.map_some, hv, List.cons.injEq, true_and]
            simpa [values] using hfs

theorem length_le_encodeRow (fs : List (Option Bytes)) : fs.length ≤ (encodeRow fs).length + 1 := by
  induction fs using encodeRow.induct with
  | case1 => simp
  | case2 f => simp
  | case3 f g fs ih =>
      simp only [encodeRow, List.length_append, List.length_cons] at ih ⊢
      omega

/-- A row decodes to the fields it was written from. -/
theorem decodeRow_encodeRow (fs : List (Option Bytes)) (hne : fs ≠ []) (limits : Limits)
    (h : limits.Admit fs) :
    ∃ decoded, decodeRow (encodeRow fs) fs.length limits = .ok decoded ∧ values decoded = fs := by
  have hahead : (fields (encodeRow fs) limits).Ahead fs :=
    ⟨.inr h.row, fun _ => rfl, by simp [fields, hne], by simpa [fields] using h.columns, h.field⟩
  have hfuel := length_le_encodeRow fs
  obtain ⟨bytes, ranges, hloop, hlen, hvalues⟩ :=
    decodeFields_ahead fs _ hahead ((encodeRow fs).length + 2) (by omega) [] []
  refine ⟨(bytes, ranges), ?_, by simpa using hvalues []⟩
  simp [decodeRow, hloop, hlen]

end PgDelta.Copy
