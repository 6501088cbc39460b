import PgDelta.Types.Agreement

/-!
The nulls of a table and where they come from.

A null in a finished array was a null in the dump, or stands for a value that
the Arrow type cannot hold. The builders count the second kind by the field,
so an array with several such elements counts for one.
-/

namespace PgDelta.Builders

open PgDelta.Lib PgDelta.Types PgDelta.Values

/-! ### The values that have no encoding -/

def Kind.unheld : Kind → List Text
  | .decimal _ _ => ["NaN".toList]
  | .date | .timestamp _ => ["infinity".toList, "-infinity".toList]
  | _ => []

/-- A value that has no encoding in the arrays of the builder. -/
def Kind.degrades (kind : Kind) (v : Bytes) : Bool :=
  (fromUtf8 v).any fun s => kind.unheld.contains (trim s)

theorem degrades_of_trimmed {kind : Kind} {v : Bytes} {column expected : String} {s : Text}
    (h : trimmed v column expected = .ok s) : kind.degrades v = kind.unheld.contains s := by
  unfold trimmed at h
  cases hs : fromUtf8 v with
  | none => simp [hs] at h
  | some t =>
      obtain rfl : trim t = s := by simpa [hs] using h
      simp [Kind.degrades, hs]

theorem degrades_of_unheld_nil {kind : Kind} (h : kind.unheld = []) (v : Bytes) :
    kind.degrades v = false := by
  cases hs : fromUtf8 v <;> simp [Kind.degrades, hs, h]

theorem parseBounded_ne_none {lo hi : ℤ} {expected : String} {v : Bytes} {column : String} :
    parseBounded lo hi expected v column ≠ .ok none := by
  unfold parseBounded
  split
  · simp
  · split <;> simp

theorem parseFloating_ne_none {α : Type} {round : FloatLiteral → α} {expected : String} {v : Bytes}
    {column : String} : parseFloating round expected v column ≠ .ok none := by
  unfold parseFloating
  split
  · simp
  · split <;> simp

theorem parseBool_ne_none {v : Bytes} {column : String} : parseBool v column ≠ .ok none := by
  unfold parseBool
  split_ifs <;> simp

theorem parseTime_ne_none {v : Bytes} {column : String} : parseTime v column ≠ .ok none := by
  unfold parseTime
  split
  · simp
  · dsimp only
    split <;> simp

theorem parseDecimal_isNone {v : Bytes} {precision : ℕ} {scale : ℤ} {column : String}
    {parsed : Option ℤ} (h : parseDecimal v precision scale column = .ok parsed) :
    parsed.isNone = (Kind.decimal precision scale).degrades v := by
  unfold parseDecimal at h
  cases hs : trimmed v column "numeric" with
  | error e => simp [hs] at h
  | ok s =>
      rw [degrades_of_trimmed hs]
      simp only [hs] at h
      by_cases hnan : s = "NaN".toList
      · rw [if_pos hnan] at h
        obtain rfl := Except.ok.inj h
        simp [Kind.unheld, hnan]
      · rw [if_neg hnan] at h
        have hsome : parsed.isNone = false := by
          split_ifs at h
          -- The sign is split on as well.
          all_goals
            split at h
            · cases h
            · split_ifs at h
              rw [← Except.ok.inj h]
              rfl
        have hother : (s == "NaN".toList) = false := beq_eq_false_iff_ne.mpr hnan
        rw [hsome, Kind.unheld, List.contains_cons, List.contains_nil, hother]
        rfl

theorem parseDate_isNone {v : Bytes} {column : String} {parsed : Option ℤ}
    (h : parseDate v column = .ok parsed) : parsed.isNone = Kind.date.degrades v := by
  unfold parseDate at h
  cases hs : trimmed v column "date" with
  | error e => simp [hs] at h
  | ok s =>
      rw [degrades_of_trimmed hs]
      simp only [hs] at h
      by_cases hinf : s = "infinity".toList ∨ s = "-infinity".toList
      · rw [if_pos hinf] at h
        obtain rfl := Except.ok.inj h
        simpa [Kind.unheld] using hinf
      · rw [if_neg hinf] at h
        have hsome : parsed.isNone = false := by
          split at h
          · cases h
          · split_ifs at h
            all_goals
              rw [← Except.ok.inj h]
              rfl
        simpa [hsome, Kind.unheld] using hinf

theorem parseTimestamp_isNone {v : Bytes} {tz : Bool} {column : String} {parsed : Option ℤ}
    (h : parseTimestamp v tz column = .ok parsed) :
    parsed.isNone = (Kind.timestamp tz).degrades v := by
  unfold parseTimestamp at h
  -- Whatever these functions are, since evaluating them takes long.
  generalize checkedI64 = check, daysFromCivil = days, microsPerDay = day at h
  revert check days day
  refine id ?_
  intro check days day h
  cases hs : trimmed v column "timestamp" with
  | error e => simp [hs] at h
  | ok s =>
      rw [degrades_of_trimmed hs]
      simp only [hs] at h
      by_cases hinf : s = "infinity".toList ∨ s = "-infinity".toList
      · rw [if_pos hinf] at h
        obtain rfl := Except.ok.inj h
        simpa [Kind.unheld] using hinf
      · rw [if_neg hinf] at h
        have hsome : parsed.isNone = false := by
          split at h
          · cases h
          · split at h
            · cases h
            · split at h
              · rw [← Except.ok.inj h]
                rfl
              · cases h
        simpa [hsome, Kind.unheld] using hinf

/-- A parser that answers through `some` only, for a type that holds all its
values. -/
theorem isNone_of_ne_none {α : Type} {kind : Kind} {v : Bytes} {r : Except Error (Option α)}
    {f : α → Value} {parsed : Option Value} (hkind : kind.unheld = []) (hr : r ≠ .ok none)
    (h : r.map (·.map f) = .ok parsed) : parsed.isNone = kind.degrades v := by
  rw [degrades_of_unheld_nil hkind]
  cases r with
  | error e => cases h
  | ok a =>
      cases a with
      | none => exact absurd rfl hr
      | some a =>
          rw [← Except.ok.inj h]
          rfl

theorem isNone_of_map {α : Type} {r : Except Error (Option α)} {f : α → Value}
    {parsed : Option Value} {d : Bool} (hr : ∀ a, r = .ok a → a.isNone = d)
    (h : r.map (·.map f) = .ok parsed) : parsed.isNone = d := by
  cases r with
  | error e => cases h
  | ok a =>
      rw [← hr a rfl, ← Except.ok.inj h]
      exact Option.isNone_map

/-- The parser behind a builder answers nothing exactly for the values that
have no encoding. -/
theorem Kind.parse_isNone {kind : Kind} {v : Bytes} {column : String} {parsed : Option Value}
    (h : kind.parse v column = .ok parsed) : parsed.isNone = kind.degrades v := by
  cases kind with
  | int16 => exact isNone_of_ne_none rfl parseBounded_ne_none h
  | int32 => exact isNone_of_ne_none rfl parseBounded_ne_none h
  | int64 => exact isNone_of_ne_none rfl parseBounded_ne_none h
  | float32 => exact isNone_of_ne_none rfl parseFloating_ne_none h
  | float64 => exact isNone_of_ne_none rfl parseFloating_ne_none h
  | decimal precision scale => exact isNone_of_map (fun _ => parseDecimal_isNone) h
  | boolean => exact isNone_of_ne_none rfl parseBool_ne_none h
  | date => exact isNone_of_map (fun _ => parseDate_isNone) h
  | timestamp tz => exact isNone_of_map (fun _ => parseTimestamp_isNone) h
  | time => exact isNone_of_ne_none rfl parseTime_ne_none h
  | binary =>
      rw [degrades_of_unheld_nil rfl]
      unfold Kind.parse at h
      cases hb : parseBytea v column [] with
      | error e => simp [hb, Except.map] at h
      | ok b =>
          simp only [hb, Except.map, Except.ok.injEq] at h
          rw [← h]
          rfl
  | utf8 =>
      rw [degrades_of_unheld_nil rfl]
      unfold Kind.parse at h
      cases hs : fromUtf8 v with
      | none => simp [hs] at h
      | some s =>
          simp only [hs, Except.ok.injEq] at h
          rw [← h]
          rfl

theorem Kind.substitutes_of_degrades {kind : Kind} {v : Bytes} (h : kind.degrades v = true) :
    kind.substitutes = true := by
  cases kind with
  | decimal _ _ => rfl
  | date => rfl
  | timestamp _ => rfl
  | _ => rw [degrades_of_unheld_nil rfl] at h; cases h

/-! ### One field -/

def nullCount (values : List (Option Value)) : ℕ := values.countP Option.isNone

@[simp] theorem nullCount_append (xs ys : List (Option Value)) :
    nullCount (xs ++ ys) = nullCount xs + nullCount ys := List.countP_append

@[simp] theorem nullCount_singleton (x : Option Value) : nullCount [x] = x.isNone.toNat := by
  cases x <;> rfl

def ArrayRef.nulls : ArrayRef → ℕ
  | .flat a => nullCount a.values
  | .list items _ validity => validity.countP (!·) + nullCount items.values

def arrayElements (v : Bytes) : List (Option Bytes) :=
  match parseArrayElements v "" with
  | .ok elements => elements
  | .error _ => []

theorem arrayElements_eq {v : Bytes} {column : String} {elements : List (Option Bytes)}
    (h : parseArrayElements v column = .ok elements) : arrayElements v = elements := by
  unfold arrayElements parseArrayElements at *
  split_ifs at h ⊢ with hbraces
  dsimp only at h ⊢
  split_ifs at h ⊢ with hempty
  · exact Except.ok.inj h
  · cases hloop : arrayElementsLoop (v.tail.dropLast.length + 1) v.tail.dropLast [] with
    | none =>
        simp only [hloop] at h
        cases h
    | some es =>
        simp only [hloop] at h ⊢
        exact Except.ok.inj h

namespace ColumnBuilder

def nulls : ColumnBuilder → ℕ
  | .scalar b => nullCount b.values
  | .list element _ validity => validity.countP (!·) + nullCount element.values

/-- The nulls that the dump has in a field of the column. -/
def inputNulls (c : ColumnBuilder) : Option Bytes → ℕ
  | none => 1
  | some v =>
    match c with
    | .scalar _ => 0
    | .list _ _ _ => (arrayElements v).countP Option.isNone

/-- The values without an encoding in a field of the column. -/
def degraded (c : ColumnBuilder) : Option Bytes → ℕ
  | none => 0
  | some v =>
    match c with
    | .scalar b => (b.kind.degrades v).toNat
    | .list element _ _ => (arrayElements v).countP fun e => e.any element.kind.degrades

theorem inputNulls_congr {c d : ColumnBuilder} (h : c.blank = d.blank) :
    c.inputNulls = d.inputNulls := by
  funext value
  cases c with
  | scalar b =>
      cases d with
      | scalar b' => rfl
      | list element offsets validity => cases h
  | list element offsets validity =>
      cases d with
      | scalar b => cases h
      | list element' offsets' validity' => rfl

theorem degraded_congr {c d : ColumnBuilder} (h : c.blank = d.blank) :
    c.degraded = d.degraded := by
  funext value
  cases c with
  | scalar b =>
      cases d with
      | scalar b' =>
          have hkind : b.kind = b'.kind := congrArg (·.kind) (ColumnBuilder.scalar.inj h)
          cases value <;> simp [degraded, hkind]
      | list element offsets validity => cases h
  | list element offsets validity =>
      cases d with
      | scalar b => cases h
      | list element' offsets' validity' =>
          have hkind : element.kind = element'.kind :=
            congrArg (·.kind) (ColumnBuilder.list.inj h).1
          cases value <;> simp [degraded, hkind]

end ColumnBuilder

theorem ScalarBuilder.append_nulls {b b' : ScalarBuilder} {value : Option Bytes} {column : String}
    {s : Bool} (h : b.append value column = .ok (b', s)) :
    nullCount b'.values
        = nullCount b.values + value.isNone.toNat + (value.any b.kind.degrades).toNat ∧
      s = value.any b.kind.degrades ∧ b'.kind = b.kind := by
  cases value with
  | none =>
      obtain ⟨rfl, rfl⟩ := Prod.mk.inj (Except.ok.inj h)
      exact ⟨by simp, rfl, rfl⟩
  | some v =>
      rw [ScalarBuilder.append] at h
      cases hp : b.kind.parse v column with
      | error e => simp [hp] at h
      | ok parsed =>
          simp only [hp] at h
          obtain ⟨rfl, rfl⟩ := Prod.mk.inj (Except.ok.inj h)
          have hnone := Kind.parse_isNone hp
          refine ⟨by simp [hnone], ?_, rfl⟩
          rw [hnone, Option.any_some, Bool.and_eq_right_iff_imp]
          exact Kind.substitutes_of_degrades

theorem ScalarBuilder.appendAll_nulls {column : String} {b b' : ScalarBuilder}
    {vs : List (Option Bytes)} {s s' : Bool} (h : b.appendAll column vs s = .ok (b', s')) :
    nullCount b'.values = nullCount b.values + vs.countP Option.isNone
        + vs.countP (fun v => v.any b.kind.degrades) ∧
      s' = (s || vs.any fun v => v.any b.kind.degrades) := by
  induction vs generalizing b s with
  | nil =>
      obtain ⟨rfl, rfl⟩ := Prod.mk.inj (Except.ok.inj h)
      exact ⟨by simp, by simp⟩
  | cons v vs ih =>
      rw [appendAll] at h
      cases ha : b.append v column with
      | error e => simp [ha] at h
      | ok r =>
          obtain ⟨b₁, s₁⟩ := r
          simp only [ha] at h
          obtain ⟨hnulls, rfl, hkind⟩ := append_nulls ha
          obtain ⟨hrest, hs⟩ := ih h
          rw [hkind] at hrest hs
          refine ⟨?_, by rw [hs, List.any_cons, Bool.or_assoc]⟩
          rw [hrest, hnulls, List.countP_cons, List.countP_cons]
          cases v.isNone <;> cases v.any b.kind.degrades <;> simp <;> omega

theorem toNat_any {α : Type} (p : α → Bool) (l : List α) :
    (l.any p).toNat = min 1 (l.countP p) := by
  induction l with
  | nil => rfl
  | cons x l ih =>
      cases hx : p x
      · simp [hx, ih]
      · simp [hx]

/-- A field adds the nulls that the dump has in it and one for each of its
values without an encoding, but is counted at most once. -/
theorem ColumnBuilder.append_nulls {c c' : ColumnBuilder} {value : Option Bytes} {column : String}
    {s : Bool} (h : c.append value column = .ok (c', s)) :
    c'.nulls = c.nulls + c.inputNulls value + c.degraded value ∧
      s.toNat = min 1 (c.degraded value) := by
  cases c with
  | scalar b =>
      rw [append] at h
      cases ha : b.append value column with
      | error e => simp [ha] at h
      | ok r =>
          obtain ⟨b₁, s₁⟩ := r
          simp only [ha] at h
          obtain ⟨rfl, rfl⟩ := Prod.mk.inj (Except.ok.inj h)
          obtain ⟨hnulls, rfl, -⟩ := ScalarBuilder.append_nulls ha
          cases value with
          | none => exact ⟨by simpa [nulls, inputNulls, degraded] using hnulls, rfl⟩
          | some v =>
              refine ⟨by simpa [nulls, inputNulls, degraded] using hnulls, ?_⟩
              simp only [degraded, Option.any_some]
              cases b.kind.degrades v <;> rfl
  | list element offsets validity =>
      cases value with
      | none =>
          obtain ⟨rfl, rfl⟩ := Prod.mk.inj (Except.ok.inj h)
          refine ⟨?_, rfl⟩
          simp only [nulls, inputNulls, degraded, List.countP_append, List.countP_singleton]
          simp
          omega
      | some v =>
          rw [append] at h
          cases hp : parseArrayElements v column with
          | error e => simp [hp] at h
          | ok elements =>
              simp only [hp] at h
              cases ha : element.appendAll column elements false with
              | error e => simp [ha] at h
              | ok r =>
                  obtain ⟨element₁, s₁⟩ := r
                  simp only [ha] at h
                  split_ifs at h
                  obtain ⟨rfl, rfl⟩ := Prod.mk.inj (Except.ok.inj h)
                  obtain ⟨hnulls, rfl⟩ := ScalarBuilder.appendAll_nulls ha
                  refine ⟨?_, ?_⟩
                  · simp only [nulls, inputNulls, degraded, arrayElements_eq hp, hnulls,
                      List.countP_append]
                    simp
                    omega
                  · rw [Bool.false_or, toNat_any, degraded, arrayElements_eq hp]

/-- Finishing moves the nulls into the array. -/
theorem ColumnBuilder.finish_nulls {c c' : ColumnBuilder} {array : ArrayRef}
    (h : c.finish = .ok (array, c')) : array.nulls = c.nulls ∧ c' = c.blank ∧ c'.nulls = 0 := by
  cases c with
  | scalar b =>
      obtain ⟨rfl, rfl⟩ := Prod.mk.inj (Except.ok.inj h)
      exact ⟨rfl, rfl, rfl⟩
  | list element offsets validity =>
      rw [finish] at h
      split_ifs at h
      obtain ⟨rfl, rfl⟩ := Prod.mk.inj (Except.ok.inj h)
      exact ⟨rfl, rfl, rfl⟩

/-! ### One column of a batch -/

namespace BatchBuilder

theorem appendCells_get {columns columns' : List ColumnBuilder} {names : List String}
    {counts counts' : List ℕ} {values : List (Option Bytes)}
    (h : appendCells columns names counts values = .ok (columns', counts'))
    (hnames : names.length = columns.length) (hcounts : counts.length = columns.length)
    (hvalues : values.length = columns.length) {i : ℕ} {c : ColumnBuilder}
    (hc : columns[i]? = some c) :
    ∃ name value c' s, values[i]? = some value ∧ c.append value name = .ok (c', s) ∧
      columns'[i]? = some c' ∧ counts'[i]? = counts[i]?.map (· + s.toNat) := by
  induction columns generalizing columns' names counts counts' values i with
  | nil => cases hc
  | cons d columns ih =>
      obtain ⟨name, names, count, counts, value, values, d', s, columns₁, counts₁, rfl, rfl, rfl,
        happend, hrest, rfl, rfl⟩ | ⟨hnone, -, -⟩ := appendCells_cons h
      · cases i with
        | zero =>
            obtain rfl : d = c := by simpa using hc
            exact ⟨name, value, d', s, rfl, happend, rfl, rfl⟩
        | succ i =>
            obtain ⟨name', value', c', s', hget⟩ := ih hrest (Nat.succ.inj hnames)
              (Nat.succ.inj hcounts) (Nat.succ.inj hvalues) hc
            exact ⟨name', value', c', s', hget⟩
      · obtain rfl | rfl | rfl := hnone
        · cases hnames
        · cases hcounts
        · cases hvalues

theorem appendSized_get {b b' : BatchBuilder} {values : List (Option Bytes)} {size : ℕ}
    (hb : b.Agrees) (h : b.appendSized values size = .ok b') {i : ℕ} {c : ColumnBuilder}
    (hc : b.columns[i]? = some c) :
    ∃ name value c' s, values[i]? = some value ∧ c.append value name = .ok (c', s) ∧
      b'.columns[i]? = some c' ∧ b'.substitutions[i]? = b.substitutions[i]?.map (· + s.toNat) := by
  unfold appendSized at h
  split at h
  · cases h
  · next hlen =>
      split at h
      · cases h
      · next columns substitutions ha =>
          obtain rfl := Except.ok.inj h
          exact appendCells_get ha hb.names hb.substitutions (not_not.mp hlen) hc

theorem finishColumns_get {columns columns' : List ColumnBuilder} {arrays : List ArrayRef}
    (h : finishColumns columns = .ok (arrays, columns')) {i : ℕ} {c : ColumnBuilder}
    (hc : columns[i]? = some c) :
    ∃ array c', c.finish = .ok (array, c') ∧ arrays[i]? = some array ∧
      columns'[i]? = some c' := by
  induction columns generalizing columns' arrays i with
  | nil => cases hc
  | cons d columns ih =>
      rw [finishColumns] at h
      cases hf : d.finish with
      | error e => simp [hf] at h
      | ok r =>
          simp only [hf] at h
          cases hr : finishColumns columns with
          | error e => simp [hr] at h
          | ok rs =>
              simp only [hr] at h
              obtain ⟨rfl, rfl⟩ := Prod.mk.inj (Except.ok.inj h)
              cases i with
              | zero =>
                  obtain rfl : d = c := by simpa using hc
                  exact ⟨r.1, r.2, hf, rfl, rfl⟩
              | succ i => exact ih hr hc

/-- The nulls in one column of some batches. -/
def columnNulls (i : ℕ) (batches : List RecordBatch) : ℕ :=
  (batches.map fun batch => (batch.columns[i]?.map ArrayRef.nulls).getD 0).sum

@[simp] theorem columnNulls_append (i : ℕ) (xs ys : List RecordBatch) :
    columnNulls i (xs ++ ys) = columnNulls i xs + columnNulls i ys := by
  simp [columnNulls]

/-- Finishing a batch moves the nulls of a column into it, and the column
starts anew unless there was nothing to finish. -/
theorem finish_get {b b' : BatchBuilder} {batch : Option RecordBatch}
    (h : b.finish = .ok (batch, b')) {i : ℕ} {c : ColumnBuilder} (hc : b.columns[i]? = some c) :
    ∃ c', b'.columns[i]? = some c' ∧ c'.blank = c.blank ∧
      columnNulls i batch.toList + c'.nulls = c.nulls ∧ (b.rows = 0 ∧ c' = c ∨ c'.nulls = 0) := by
  unfold finish at h
  split at h
  · next hrows =>
      obtain ⟨rfl, rfl⟩ := Prod.mk.inj (Except.ok.inj h)
      exact ⟨c, hc, rfl, by simp [columnNulls], Or.inl ⟨hrows, rfl⟩⟩
  · split at h
    · cases h
    · next arrays columns hf =>
        split at h
        · cases h
        · next x hx =>
            obtain ⟨rfl, rfl⟩ := Prod.mk.inj (Except.ok.inj h)
            obtain ⟨array, c', hfc, harray, hc'⟩ := finishColumns_get hf hc
            obtain ⟨hnulls, hblank, hzero⟩ := ColumnBuilder.finish_nulls hfc
            refine ⟨c', hc', by rw [hblank, ColumnBuilder.blank_blank], ?_, Or.inr hzero⟩
            simp [columnNulls, (tryNew_ok hx).1, harray, hnulls, hzero]

/-! ### Every use of a builder -/

/-- The batches that some calls finish and the builder that they leave behind,
unless one of them fails. -/
def run : BatchBuilder → List Call → Except Error (List RecordBatch × BatchBuilder)
  | b, [] => .ok ([], b)
  | b, .appendRow values :: calls =>
    match b.appendRow values with
    | .error e => .error e
    | .ok b => b.run calls
  | b, .appendRowRanges scratch ranges :: calls =>
    match b.appendRowRanges scratch ranges with
    | .error e => .error e
    | .ok b => b.run calls
  | b, .finish :: calls =>
    match b.finish with
    | .error e => .error e
    | .ok (batch, b) =>
      match b.run calls with
      | .error e => .error e
      | .ok (batches, b) => .ok (batch.toList ++ batches, b)

/-- The fields of one column in the rows that some calls append. -/
def fields (i : ℕ) (calls : List Call) : List (Option Bytes) :=
  calls.filterMap fun
    | .appendRow values => values[i]?
    | .appendRowRanges scratch ranges => (Copy.values (scratch, ranges))[i]?
    | .finish => none

/-- The account of one column: its nulls, finished or not, are those of the
dump and the values without an encoding, and each field with such a value has
been counted once. -/
structure Account (i : ℕ) (c₀ : ColumnBuilder) (seen : List (Option Bytes))
    (batches : List RecordBatch) (b : BatchBuilder) : Prop where
  agrees : b.Agrees
  balance : ∃ c, b.columns[i]? = some c ∧ c.blank = c₀ ∧ (b.rows = 0 → c.nulls = 0) ∧
    columnNulls i batches + c.nulls
      = (seen.map c₀.inputNulls).sum + (seen.map c₀.degraded).sum
  counted : b.substitutions[i]? = some (seen.map fun f => min 1 (c₀.degraded f)).sum

section Account

variable {i : ℕ} {c₀ : ColumnBuilder} {seen : List (Option Bytes)} {batches : List RecordBatch}
  {b b' : BatchBuilder}

theorem Account.append (h : Account i c₀ seen batches b) {values : List (Option Bytes)}
    {size : ℕ} (hrow : b.appendSized values size = .ok b') :
    Account i c₀ (seen ++ values[i]?.toList) batches b' := by
  obtain ⟨c, hc, hblank, -, hbalance⟩ := h.balance
  obtain ⟨name, value, c', s, hvalue, happend, hc', hsubs⟩ := appendSized_get h.agrees hrow hc
  obtain ⟨-, -, -, -, -, hrows, -, hagrees⟩ := appendSized_spec h.agrees hrow
  obtain ⟨cell, -, -, hblank', -⟩ :=
    ColumnBuilder.append_spec (h.agrees.column c (List.mem_of_getElem? hc)).1 happend
  obtain ⟨hnulls, hs⟩ := ColumnBuilder.append_nulls happend
  have hkinds : c.blank = c₀.blank := by rw [← hblank, ColumnBuilder.blank_blank]
  rw [ColumnBuilder.inputNulls_congr hkinds, ColumnBuilder.degraded_congr hkinds] at hnulls
  rw [ColumnBuilder.degraded_congr hkinds] at hs
  rw [hvalue, Option.toList_some]
  refine ⟨hagrees, ⟨c', hc', hblank'.trans hblank, fun hzero => by omega, ?_⟩, ?_⟩
  · simp only [List.map_append, List.map_singleton, List.sum_append, List.sum_singleton]
    omega
  · rw [hsubs, h.counted, Option.map_some, hs]
    simp only [List.map_append, List.map_singleton, List.sum_append, List.sum_singleton]

theorem Account.finish (h : Account i c₀ seen batches b) {batch : Option RecordBatch}
    (hfinish : b.finish = .ok (batch, b')) : Account i c₀ seen (batches ++ batch.toList) b' := by
  obtain ⟨c, hc, hblank, hzero, hbalance⟩ := h.balance
  obtain ⟨-, -, hrows, -, hsubs, -, hagrees, -⟩ := finish_spec h.agrees hfinish
  obtain ⟨c', hc', hblank', hmoved, hpending⟩ := finish_get hfinish hc
  refine ⟨hagrees, ⟨c', hc', hblank'.trans hblank, fun _ => ?_, ?_⟩, hsubs ▸ h.counted⟩
  · obtain ⟨hnone, rfl⟩ | hnone := hpending
    · exact hzero hnone
    · exact hnone
  · rw [columnNulls_append]
    omega

/-- What a sequence of calls does to the account of a column. -/
theorem Account.run (h : Account i c₀ seen batches b) {calls : List Call}
    {more : List RecordBatch} (hrun : b.run calls = .ok (more, b')) :
    Account i c₀ (seen ++ fields i calls) (batches ++ more) b' := by
  induction calls generalizing b seen batches more with
  | nil =>
      obtain ⟨rfl, rfl⟩ := Prod.mk.inj (Except.ok.inj hrun)
      simpa [fields] using h
  | cons call calls ih =>
      cases call with
      | appendRow values =>
          rw [BatchBuilder.run] at hrun
          cases hrow : b.appendRow values with
          | error e => simp [hrow] at hrun
          | ok b₁ =>
              simp only [hrow] at hrun
              have hnext := ih (h.append hrow) hrun
              cases hget : values[i]? <;> simpa [fields, hget] using hnext
      | appendRowRanges scratch ranges =>
          rw [BatchBuilder.run] at hrun
          cases hrow : b.appendRowRanges scratch ranges with
          | error e => simp [hrow] at hrun
          | ok b₁ =>
              simp only [hrow] at hrun
              have hnext := ih (h.append hrow) hrun
              cases hget : (Copy.values (scratch, ranges))[i]? <;>
                simpa [fields, hget] using hnext
      | finish =>
          rw [BatchBuilder.run] at hrun
          cases hfinish : b.finish with
          | error e => simp [hfinish] at hrun
          | ok r =>
              obtain ⟨batch, b₁⟩ := r
              simp only [hfinish] at hrun
              cases hrest : b₁.run calls with
              | error e => simp [hrest] at hrun
              | ok rs =>
                  simp only [hrest] at hrun
                  obtain ⟨rfl, rfl⟩ := Prod.mk.inj (Except.ok.inj hrun)
                  have hnext := ih (h.finish hfinish) hrest
                  simpa [fields] using hnext

end Account

theorem new_account {columns : List (String × ResolvedType)} (maxRows maxBytes : ℕ)
    (wide native : Bool) {i : ℕ} {name : String} {rt : ResolvedType}
    (hi : columns[i]? = some (name, rt)) :
    Account i (ColumnBuilder.new rt wide native) [] []
      (new columns maxRows maxBytes wide native) where
  agrees := new_agrees _ _ _ _ _
  balance := by
    refine ⟨ColumnBuilder.new rt wide native, by simp [new, hi], ColumnBuilder.new_blank _ _ _,
      fun _ => ?_, ?_⟩
    all_goals
      rw [← ColumnBuilder.new_blank]
      cases ColumnBuilder.new rt wide native <;> rfl
  counted := by
    have hlt : i < columns.length := by
      by_contra hge
      rw [List.getElem?_eq_none (by omega)] at hi
      cases hi
    simp [new, hlt]

theorem sum_min_one_eq_iff {α : Type} (f : α → ℕ) (l : List α) :
    (l.map fun x => min 1 (f x)).sum = (l.map f).sum ↔ ∀ x ∈ l, f x ≤ 1 := by
  induction l with
  | nil => simp
  | cons x l ih =>
      have hle : (l.map fun x => min 1 (f x)).sum ≤ (l.map f).sum :=
        List.sum_le_sum fun x _ => min_le_right _ _
      simp only [List.map_cons, List.sum_cons, List.forall_mem_cons, ← ih]
      omega

/-- The counts of substitutions account for the nulls that the dump does not
have, over any rows and batches, exactly when no field of the column has more
than one value without an encoding. -/
theorem substitutions_account_iff {columns : List (String × ResolvedType)} {maxRows maxBytes : ℕ}
    {wide native : Bool} {calls : List Call} {batches : List RecordBatch}
    {last : Option RecordBatch} {b b' : BatchBuilder}
    (hrun : (new columns maxRows maxBytes wide native).run calls = .ok (batches, b))
    (hlast : b.finish = .ok (last, b')) {i : ℕ} {name : String} {rt : ResolvedType}
    (hi : columns[i]? = some (name, rt)) :
    b'.substitutions[i]? = some (columnNulls i (batches ++ last.toList)
        - ((fields i calls).map (ColumnBuilder.new rt wide native).inputNulls).sum)
      ↔ ∀ f ∈ fields i calls, (ColumnBuilder.new rt wide native).degraded f ≤ 1 := by
  have hpending := (new_account maxRows maxBytes wide native hi).run hrun
  obtain ⟨-, -, hrows, -⟩ := finish_spec hpending.agrees hlast
  have haccount := hpending.finish hlast
  rw [List.nil_append, List.nil_append] at haccount
  obtain ⟨c, -, -, hzero, hbalance⟩ := haccount.balance
  have hnone := hzero hrows
  rw [haccount.counted, Option.some.injEq, ← sum_min_one_eq_iff]
  omega

/-- Two rows of an array, and a batch between them. -/
def nanCalls : List Call :=
  [.appendRow [some (ascii "{1.5,NaN,NULL}")], .finish, .appendRow [none]]

theorem substitutions_account_nan :
    ∃ batches last b b', (new [("ns", resolve "numeric(4,1)[]")] 8 64 false true).run nanCalls
        = .ok (batches, b) ∧ b.finish = .ok (last, b') ∧
      b'.substitutions[0]? = some (columnNulls 0 (batches ++ last.toList)
        - ((fields 0 nanCalls).map
          (ColumnBuilder.new (resolve "numeric(4,1)[]") false true).inputNulls).sum) := by
  have hok : (((new [("ns", resolve "numeric(4,1)[]")] 8 64 false true).run nanCalls).bind
      fun r => r.2.finish).toBool = true := by
    decide +kernel
  cases hrun : (new [("ns", resolve "numeric(4,1)[]")] 8 64 false true).run nanCalls with
  | error e =>
      rw [hrun] at hok
      cases hok
  | ok r =>
      obtain ⟨batches, b⟩ := r
      cases hlast : b.finish with
      | error e =>
          rw [hrun] at hok
          simp only [Except.bind, hlast] at hok
          cases hok
      | ok r =>
          exact ⟨batches, r.1, b, r.2, rfl, hlast,
            (substitutions_account_iff hrun hlast rfl).mpr (by decide +kernel)⟩

/-- Two values without an encoding in one field make two nulls and count once. -/
theorem substitutions_account_two :
    ((new [("ns", resolve "numeric(4,1)[]")] 8 64 false true).run
        [.appendRow [some (ascii "{NaN,NaN}")], .finish]).toOption.map
      (fun r => (r.2.substitutions, columnNulls 0 r.1)) = some ([1], 2)
    ∧ (ColumnBuilder.new (resolve "numeric(4,1)[]") false true).inputNulls
      (some (ascii "{NaN,NaN}")) = 0 := by
  constructor <;> decide +kernel

end BatchBuilder

end PgDelta.Builders
