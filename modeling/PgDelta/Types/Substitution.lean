import PgDelta.Types.Dates
import PgDelta.Types.Decimals
import PgDelta.Types.Rows

/-!
Values that Arrow has no encoding for. A server writes infinities of dates and
timestamps, numbers that are none, and timestamps up to the year 294276; a
value without an encoding is to become a counted null, and no value of its type
but a finite number that is too wide for its decimal is to be refused.
-/

namespace PgDelta.Builders

open PgDelta.Lib PgDelta.Types PgDelta.Values

/-! ### What a server holds -/

/-- A value of an ordered type, or one of the infinities beyond it. -/
inductive Extended (α : Type)
  | finite (a : α)
  | infinity
  | negInfinity

/-- A date from 4713 BC to 5874897 AD. -/
structure ServerDate extends Date where
  old : -2440588 ≤ toDate.dayNumber
  late : toDate.dayNumber < 2145042906

/-- A timestamp whose instant is from 4713 BC to 294276 AD. It is written with
an offset when its type has a time zone. -/
structure ServerTimestamp (tz : Bool) extends Timestamp where
  zone : toTimestamp.offset.isSome = tz
  old : -210866803200000000 ≤ toTimestamp.instant
  late : toTimestamp.instant < 9224318016000000000

inductive ServerNumeric
  | finite (x : Numeral)
  | nan
  | infinity
  | negInfinity

inductive Datum
  | date (d : Extended ServerDate)
  | timestamp {tz : Bool} (t : Extended (ServerTimestamp tz))
  | numeric (x : ServerNumeric)

def Extended.text {α : Type} (text : α → Text) : Extended α → Text
  | .finite a => text a
  | .infinity => "infinity".toList
  | .negInfinity => "-infinity".toList

section Text

variable {α : Type} (text : α → Text)

@[simp] theorem Extended.text_finite (a : α) : (finite a).text text = text a := rfl

@[simp] theorem Extended.text_infinity : infinity.text text = "infinity".toList := rfl

@[simp] theorem Extended.text_negInfinity : negInfinity.text text = "-infinity".toList := rfl

end Text

namespace Datum

def text : Datum → Text
  | .date d => d.text fun d => dateText d.toDate
  | .timestamp t => t.text fun t => t.toTimestamp.text
  | .numeric (.finite x) => x.text
  | .numeric .nan => "NaN".toList
  | .numeric .infinity => "Infinity".toList
  | .numeric .negInfinity => "-Infinity".toList

/-- The bytes of the field. -/
def bytes (x : Datum) : Bytes := utf8 (String.ofList x.text)

theorem bytes_date (d : Extended ServerDate) :
    (date d).bytes = utf8 (String.ofList (d.text fun d => dateText d.toDate)) := rfl

theorem bytes_timestamp {tz : Bool} (t : Extended (ServerTimestamp tz)) :
    (timestamp t).bytes = utf8 (String.ofList (t.text fun t => t.toTimestamp.text)) := rfl

theorem bytes_numeric (x : Numeral) :
    (numeric (.finite x)).bytes = utf8 (String.ofList x.text) := rfl

/-- Whether a column of the type holds such values. -/
def IsOf (x : Datum) (rt : ResolvedType) : Prop :=
  rt.isArray = false ∧
    match x with
    | .date _ => rt.pg = .date
    | @Datum.timestamp tz _ => rt.pg = .timestamp tz
    | .numeric _ => ∃ precision scale, rt.pg = .numeric precision scale

/-- The integer that stands for the value in an array of an Arrow type. -/
def Encoded (x : Datum) (dt : DataType) (n : ℤ) : Prop :=
  match x, dt with
  | .date (.finite d), .date32 => n = d.toDate.dayNumber ∧ -2 ^ 31 ≤ n ∧ n < 2 ^ 31
  | .timestamp (.finite t), .timestamp _ => n = t.toTimestamp.instant ∧ -2 ^ 63 ≤ n ∧ n < 2 ^ 63
  | .numeric (.finite x), .decimal128 precision scale =>
    ∃ m, x.Unscaled precision scale.toNat m ∧ n = if x.sign = ['-'] then -(m : ℤ) else m
  | _, _ => False

/-- A number that is finite. -/
def IsFiniteNumeric (x : Datum) : Prop := ∃ y, x = .numeric (.finite y)

/-- The values that the loader does not take for malformed: neither is the
number infinite, nor does the instant of a timestamp or the local time that it
is written with lie behind the last microsecond of 64 bits. -/
def Passes : Datum → Prop
  | .timestamp (.finite t) =>
    t.toTimestamp.localMicros < 2 ^ 63 ∧ t.toTimestamp.instant < 2 ^ 63
  | .numeric .infinity | .numeric .negInfinity => False
  | _ => True

end Datum

/-- A value is stored as a null, which is told to the batch and counted. -/
structure Substituted (b : ColumnBuilder) (v : Bytes) (column : String) : Prop where
  null : ∃ b', b.append (some v) column = .ok (b', true) ∧ b'.cells = b.cells ++ [.null]
  counted : ∀ {batch batch' : BatchBuilder} {values : List (Option Bytes)} {size i : ℕ},
    batch.columns[i]? = some b → batch.names[i]? = some column → values[i]? = some (some v) →
      batch.appendSized values size = .ok batch' →
        batch'.substitutions[i]? = batch.substitutions[i]?.map (· + 1)

/-- What the loader owes a value of a column. -/
structure Settled (b : ColumnBuilder) (x : Datum) (column : String) (dt : DataType) : Prop where
  substituted : (∀ n, ¬x.Encoded dt n) → ¬x.IsFiniteNumeric → Substituted b x.bytes column
  refused : ∀ {e}, b.append (some x.bytes) column = .error e →
    x.IsFiniteNumeric ∧ ∀ n, ¬x.Encoded dt n

/-! ### Counting -/

/-- A row counts what each of its values has been stored as. -/
theorem BatchBuilder.appendCells_counts {columns columns' : List ColumnBuilder}
    {names : List String} {counts counts' : List ℕ} {values : List (Option Bytes)}
    (h : appendCells columns names counts values = .ok (columns', counts')) {i : ℕ}
    {c : ColumnBuilder} {name : String} {value : Option Bytes} (hc : columns[i]? = some c)
    (hname : names[i]? = some name) (hvalue : values[i]? = some value) {c' : ColumnBuilder}
    {s : Bool} (ha : c.append value name = .ok (c', s)) :
    counts'[i]? = counts[i]?.map (· + s.toNat) := by
  induction columns generalizing columns' names counts counts' values i with
  | nil => cases hc
  | cons d columns ih =>
    obtain ⟨n, names, count, counts, v, values, d', t, columns₁, counts₁, rfl, rfl, rfl, happend,
      hrest, rfl, rfl⟩ | ⟨hnone, rfl, rfl⟩ := BatchBuilder.appendCells_cons h
    · cases i with
      | zero =>
        obtain rfl : d = c := by simpa using hc
        obtain rfl : n = name := by simpa using hname
        obtain rfl : v = value := by simpa using hvalue
        rw [happend] at ha
        obtain ⟨-, rfl⟩ := Prod.mk.inj (Except.ok.inj ha)
        rfl
      | succ i => exact ih hrest hc hname hvalue
    · obtain rfl | rfl | rfl := hnone
      · cases hname
      · rfl
      · cases hvalue

/-! ### What a builder does with what its parser answers -/

theorem ScalarBuilder.append_of_none {b : ScalarBuilder} {v : Bytes} {column : String}
    (hb : b.kind.substitutes = true) (h : b.kind.parse v column = .ok none) :
    (ColumnBuilder.scalar b).append (some v) column
      = .ok (.scalar { b with values := b.values ++ [none] }, true) := by
  simp only [ColumnBuilder.append, ScalarBuilder.append, h, hb, Option.isNone_none, Bool.and_self]

theorem ScalarBuilder.append_of_some {b : ScalarBuilder} {v : Bytes} {column : String} {a : Value}
    (h : b.kind.parse v column = .ok (some a)) :
    (ColumnBuilder.scalar b).append (some v) column
      = .ok (.scalar { b with values := b.values ++ [some a] }, false) := by
  simp only [ColumnBuilder.append, ScalarBuilder.append, h, Option.isNone_some, Bool.and_false]

theorem ScalarBuilder.append_of_error {b : ScalarBuilder} {v : Bytes} {column : String} {e : Error}
    (h : b.kind.parse v column = .error e) :
    (ColumnBuilder.scalar b).append (some v) column = .error e := by
  simp only [ColumnBuilder.append, ScalarBuilder.append, h]

/-- A value that the parser answers nothing for is a null, and counted. -/
theorem substituted_of_none {b : ScalarBuilder} {v : Bytes} {column : String}
    (hb : b.kind.substitutes = true) (h : b.kind.parse v column = .ok none) :
    Substituted (.scalar b) v column := by
  have happend := ScalarBuilder.append_of_none hb h
  refine ⟨⟨_, happend, ?_⟩, ?_⟩
  · simp [ColumnBuilder.cells, Cell.ofOption]
  · intro batch batch' values size i hc hname hvalue hrow
    unfold BatchBuilder.appendSized at hrow
    split at hrow
    · cases hrow
    · split at hrow
      · cases hrow
      next hcells =>
        obtain rfl := Except.ok.inj hrow
        exact BatchBuilder.appendCells_counts hcells hc hname hvalue happend

section Outcomes

variable {b : ScalarBuilder} {x : Datum} {column : String} {dt : DataType}

theorem settled_of_none (hb : b.kind.substitutes = true)
    (h : b.kind.parse x.bytes column = .ok none) : Settled (.scalar b) x column dt := by
  refine ⟨fun _ _ => substituted_of_none hb h, fun he => ?_⟩
  rw [ScalarBuilder.append_of_none hb h] at he
  cases he

theorem settled_of_some {a : Value} {n : ℤ} (h : b.kind.parse x.bytes column = .ok (some a))
    (hn : x.Encoded dt n) : Settled (.scalar b) x column dt := by
  refine ⟨fun hnone _ => absurd hn (hnone n), fun he => ?_⟩
  rw [ScalarBuilder.append_of_some h] at he
  cases he

theorem settled_of_wide (hx : x.IsFiniteNumeric) (hn : ∀ n, ¬x.Encoded dt n) :
    Settled (.scalar b) x column dt :=
  ⟨fun _ h => absurd hx h, fun _ => ⟨hx, hn⟩⟩

theorem not_settled_of_error {e : Error} (h : b.kind.parse x.bytes column = .error e)
    (hx : ¬x.IsFiniteNumeric) : ¬Settled (.scalar b) x column dt :=
  fun hs => hx (hs.refused (ScalarBuilder.append_of_error h)).1

end Outcomes

/-! ### What the parsers answer -/

theorem trimmed_infinity {t : Text} (h : t = "infinity".toList ∨ t = "-infinity".toList)
    (column expected : String) :
    trimmed (utf8 (String.ofList t)) column expected = .ok t := by
  have htrim : trim t = t := by
    obtain rfl | rfl := h <;> decide +kernel
  rw [trimmed, fromUtf8_utf8]
  simp only [String.toList_ofList, htrim]

theorem parseDate_infinity {t : Text} (h : t = "infinity".toList ∨ t = "-infinity".toList)
    (column : String) : parseDate (utf8 (String.ofList t)) column = .ok none := by
  rw [parseDate, trimmed_infinity h]
  exact if_pos h

theorem parseTimestamp_infinity {t : Text} (h : t = "infinity".toList ∨ t = "-infinity".toList)
    (tz : Bool) (column : String) :
    parseTimestamp (utf8 (String.ofList t)) tz column = .ok none := by
  rw [parseTimestamp, trimmed_infinity h]
  exact if_pos h

/-- The instant is computed by way of the local time, each of which is checked. -/
theorem parseTimestamp_server {tz : Bool} (t : ServerTimestamp tz) (column : String) :
    parseTimestamp (utf8 (String.ofList t.toTimestamp.text)) tz column =
      if t.toTimestamp.localMicros < 2 ^ 63 ∧ t.toTimestamp.instant < 2 ^ 63 then
        .ok (some t.toTimestamp.instant)
      else .error (bad column "timestamp") := by
  have hclock := t.toTimestamp.clock.micros_lt
  have hzone := t.toTimestamp.seconds_bounds
  have hold := t.old
  have hlate := t.late
  unfold Timestamp.instant Timestamp.localMicros at hold hlate
  have hparse := parseTimestamp_instant (t := t.toTimestamp) (by omega) (by omega) column
  rwa [t.zone] at hparse

theorem parseDecimal_nan (precision : ℕ) (scale : ℤ) (column : String) :
    parseDecimal (utf8 (String.ofList "NaN".toList)) precision scale column = .ok none := by
  have htrim : trim "NaN".toList = "NaN".toList := by decide +kernel
  rw [parseDecimal, trimmed, fromUtf8_utf8]
  simp only [String.toList_ofList, htrim, if_pos]

/-- An infinite number has letters where digits are expected. -/
theorem parseDecimal_infinity {t : Text} (h : t = "Infinity".toList ∨ t = "-Infinity".toList)
    (precision : ℕ) (scale : ℤ) (column : String) :
    parseDecimal (utf8 (String.ofList t)) precision scale column
      = .error (bad column "numeric") := by
  have htrim : trim t = t := by
    obtain rfl | rfl := h <;> decide +kernel
  have hnan : t ≠ "NaN".toList := by
    obtain rfl | rfl := h <;> decide +kernel
  rw [parseDecimal, trimmed, fromUtf8_utf8]
  simp only [String.toList_ofList, htrim, if_neg hnan]
  obtain rfl | rfl := h
  · rfl
  · rfl

/-! ### The builders of these columns -/

theorem Kind.parse_date (v : Bytes) (column : String) :
    Kind.date.parse v column = (parseDate v column).map (·.map .int) := rfl

theorem Kind.parse_timestamp (v : Bytes) (tz : Bool) (column : String) :
    (Kind.timestamp tz).parse v column = (parseTimestamp v tz column).map (·.map .int) := rfl

theorem Kind.parse_decimal (v : Bytes) (precision : ℕ) (scale : ℤ) (column : String) :
    (Kind.decimal precision scale).parse v column
      = (parseDecimal v precision scale column).map (·.map .int) := rfl

theorem exists_scalar {rt : ResolvedType} {wide native : Bool} {b : ColumnBuilder}
    (hb : b.blank = ColumnBuilder.new rt wide native) (harray : rt.isArray = false) :
    ∃ s : ScalarBuilder, b = .scalar s ∧ s.kind = scalarKind rt wide := by
  simp only [ColumnBuilder.new, harray] at hb
  cases b with
  | scalar s =>
    injection hb with hb
    injection hb with hkind
    exact ⟨s, rfl, hkind⟩
  | list element offsets validity => cases hb

/-- A `numeric` that is not stored as text is a decimal of 128 bits. -/
theorem decimal_kind {rt : ResolvedType} {wide : Bool} {precision : Option ℕ} {scale : Option ℤ}
    (hpg : rt.pg = .numeric precision scale) (harray : rt.isArray = false)
    (hmapped : scalarType rt wide ≠ .utf8) :
    ∃ p s : ℕ, p ≤ 38 ∧ scalarKind rt wide = .decimal p s ∧
      scalarType rt wide = .decimal128 p s := by
  have htextual : rt.isTextual = !decimalFits precision scale := by
    simp [ResolvedType.isTextual, harray, hpg]
  unfold scalarType at hmapped ⊢
  unfold scalarKind
  simp only [hpg, htextual] at hmapped ⊢
  by_cases hwide : (wide && numericTooWide precision) = true
  · simp only [if_pos hwide]
    exact ⟨38, 18, le_rfl, by decide, rfl⟩
  · simp only [if_neg hwide] at hmapped ⊢
    by_cases hfits : decimalFits precision scale = true
    · obtain ⟨p, s, rfl, hs, hp, hp', hsp⟩ : ∃ p s : ℕ, precision = some p ∧
          scale.getD 0 = s ∧ 1 ≤ p ∧ p ≤ 38 ∧ s ≤ p := by
        unfold decimalFits at hfits
        split at hfits
        · cases hfits
        next p =>
          split at hfits
          next hp =>
            cases scale with
            | none => exact ⟨p, 0, rfl, rfl, hp.1, hp.2, Nat.zero_le p⟩
            | some s =>
              obtain ⟨hs, hsp⟩ : 0 ≤ s ∧ s ≤ (p : ℤ) := by simpa using hfits
              exact ⟨p, s.toNat, rfl, (Int.toNat_of_nonneg hs).symm, hp.1, hp.2, by omega⟩
          · cases hfits
      have hbounds : 1 ≤ p ∧ p ≤ 38 ∧ (s : ℤ) ≤ 38 ∧ (s : ℤ) ≤ (p : ℤ) := by omega
      refine ⟨p, s, hp', ?_, ?_⟩
      · simp only [hfits, Option.getD_some, hs, decimalKind, if_pos hbounds]
        rfl
      · simp only [hfits, Option.getD_some, hs]
        rfl
    · rw [Bool.not_eq_true] at hfits
      exact absurd (by simp [hfits]) hmapped

/-! ### Every datum -/

section Column

variable {rt : ResolvedType} {wide native : Bool} {b : ColumnBuilder} (column : String)

theorem settled_date {d : Extended ServerDate}
    (hb : b.blank = ColumnBuilder.new rt wide native) (hx : (Datum.date d).IsOf rt) :
    Settled b (.date d) column (arrowType rt wide native) := by
  obtain ⟨harray, hpg⟩ := hx
  obtain ⟨s, rfl, hkind⟩ := exists_scalar hb harray
  have hdate : s.kind = .date := by simp only [hkind, scalarKind, hpg]
  have htype : arrowType rt wide native = .date32 := by
    simp [arrowType, harray, scalarType, hpg]
  have hsub : s.kind.substitutes = true := by rw [hdate]; rfl
  rw [htype]
  cases d with
  | finite d =>
    have hold := d.old
    have hlate := d.late
    have hparse := parseDate_dateText (d := d.toDate) (by omega) (by omega) column
    have hencoded : (Datum.date (.finite d)).Encoded .date32 d.toDate.dayNumber :=
      ⟨rfl, by omega, by omega⟩
    refine settled_of_some (a := .int d.toDate.dayNumber) ?_ hencoded
    rw [hdate, Kind.parse_date, Datum.bytes_date, Extended.text_finite, hparse]
    rfl
  | infinity =>
    refine settled_of_none hsub ?_
    rw [hdate, Kind.parse_date, Datum.bytes_date, Extended.text_infinity,
      parseDate_infinity (.inl rfl)]
    rfl
  | negInfinity =>
    refine settled_of_none hsub ?_
    rw [hdate, Kind.parse_date, Datum.bytes_date, Extended.text_negInfinity,
      parseDate_infinity (.inr rfl)]
    rfl

theorem settled_timestamp_iff {tz : Bool} {t : Extended (ServerTimestamp tz)}
    (hb : b.blank = ColumnBuilder.new rt wide native) (hx : (Datum.timestamp t).IsOf rt) :
    Settled b (.timestamp t) column (arrowType rt wide native) ↔ (Datum.timestamp t).Passes := by
  obtain ⟨harray, hpg⟩ := hx
  obtain ⟨s, rfl, hkind⟩ := exists_scalar hb harray
  have htz : s.kind = .timestamp tz := by simp only [hkind, scalarKind, hpg]
  have htype : arrowType rt wide native = .timestamp (some utc) := by
    simp [arrowType, harray, scalarType, hpg]
  have hsub : s.kind.substitutes = true := by rw [htz]; rfl
  rw [htype]
  cases t with
  | finite t =>
    have hparse := parseTimestamp_server t column
    have hdef : (Datum.timestamp (.finite t)).Passes
        ↔ t.toTimestamp.localMicros < 2 ^ 63 ∧ t.toTimestamp.instant < 2 ^ 63 := Iff.rfl
    rw [hdef]
    constructor
    · intro hs
      by_contra hpasses
      rw [if_neg hpasses] at hparse
      refine not_settled_of_error (e := bad column "timestamp") ?_ (fun ⟨y, hy⟩ => by cases hy) hs
      rw [htz, Kind.parse_timestamp, Datum.bytes_timestamp, Extended.text_finite, hparse]
      rfl
    · intro hpasses
      rw [if_pos hpasses] at hparse
      have hold := t.old
      have hencoded : (Datum.timestamp (.finite t)).Encoded (.timestamp (some utc))
          t.toTimestamp.instant := ⟨rfl, by omega, hpasses.2⟩
      refine settled_of_some (a := .int t.toTimestamp.instant) ?_ hencoded
      rw [htz, Kind.parse_timestamp, Datum.bytes_timestamp, Extended.text_finite, hparse]
      rfl
  | infinity =>
    refine ⟨fun _ => trivial, fun _ => settled_of_none hsub ?_⟩
    rw [htz, Kind.parse_timestamp, Datum.bytes_timestamp, Extended.text_infinity,
      parseTimestamp_infinity (.inl rfl)]
    rfl
  | negInfinity =>
    refine ⟨fun _ => trivial, fun _ => settled_of_none hsub ?_⟩
    rw [htz, Kind.parse_timestamp, Datum.bytes_timestamp, Extended.text_negInfinity,
      parseTimestamp_infinity (.inr rfl)]
    rfl

theorem settled_numeric_iff {x : ServerNumeric}
    (hb : b.blank = ColumnBuilder.new rt wide native) (hx : (Datum.numeric x).IsOf rt)
    (hmapped : arrowType rt wide native ≠ .utf8) :
    Settled b (.numeric x) column (arrowType rt wide native) ↔ (Datum.numeric x).Passes := by
  obtain ⟨harray, precision, scale, hpg⟩ := hx
  obtain ⟨s, rfl, hkind⟩ := exists_scalar hb harray
  have hscalar : arrowType rt wide native = scalarType rt wide := by
    simp [arrowType, harray]
  rw [hscalar] at hmapped ⊢
  obtain ⟨p, q, hp, hdecimal, htype⟩ := decimal_kind hpg harray hmapped
  rw [← hkind] at hdecimal
  have hsub : s.kind.substitutes = true := by rw [hdecimal]; rfl
  rw [htype]
  cases x with
  | finite x =>
    refine ⟨fun _ => trivial, fun _ => ?_⟩
    by_cases hfits : ∃ m, x.Unscaled p q m
    · obtain ⟨m, hm⟩ := hfits
      have hencoded : (Datum.numeric (.finite x)).Encoded (.decimal128 p q)
          (if x.sign = ['-'] then -(m : ℤ) else m) := ⟨m, hm, rfl⟩
      refine settled_of_some (a := .int (if x.sign = ['-'] then -(m : ℤ) else m)) ?_ hencoded
      rw [hdecimal, Kind.parse_decimal, Datum.bytes_numeric, Numeral.parseDecimal_unscaled hp hm]
      rfl
    · exact settled_of_wide ⟨x, rfl⟩ fun n ⟨m, hm, _⟩ => hfits ⟨m, hm⟩
  | nan =>
    refine ⟨fun _ => trivial, fun _ => settled_of_none hsub ?_⟩
    rw [hdecimal, Kind.parse_decimal]
    exact congrArg (Except.map _) (parseDecimal_nan p q column)
  | infinity =>
    refine ⟨fun hs => ?_, fun h => h.elim⟩
    refine not_settled_of_error (e := bad column "numeric") ?_ (fun ⟨y, hy⟩ => by cases hy) hs
    rw [hdecimal, Kind.parse_decimal]
    exact congrArg (Except.map _) (parseDecimal_infinity (.inl rfl) p q column)
  | negInfinity =>
    refine ⟨fun hs => ?_, fun h => h.elim⟩
    refine not_settled_of_error (e := bad column "numeric") ?_ (fun ⟨y, hy⟩ => by cases hy) hs
    rw [hdecimal, Kind.parse_decimal]
    exact congrArg (Except.map _) (parseDecimal_infinity (.inr rfl) p q column)

end Column

/-- A value is settled unless it is an infinite number or a timestamp that is
written or lies behind the last microsecond of 64 bits. -/
theorem server_value_settled_iff {rt : ResolvedType} {wide native : Bool} {b : ColumnBuilder}
    {x : Datum} (hb : b.blank = ColumnBuilder.new rt wide native) (hx : x.IsOf rt)
    (hmapped : arrowType rt wide native ≠ .utf8) (column : String) :
    Settled b x column (arrowType rt wide native) ↔ x.Passes := by
  cases x with
  | date d => exact ⟨fun _ => trivial, fun _ => settled_date column hb hx⟩
  | timestamp t => exact settled_timestamp_iff column hb hx
  | numeric x => exact settled_numeric_iff column hb hx hmapped

/-- December is a month. -/
theorem one_le_twelve : 1 ≤ 12 := by decide

def lastTimestamp : ServerTimestamp false where
  date := ⟨294276, 12, 31, one_le_twelve, by decide, by decide, by decide⟩
  clock := ⟨23, 59, 59, "999999".toList, by decide, by decide, by decide, by decide +kernel,
    by decide +kernel⟩
  offset := none
  zone := rfl
  old := by decide +kernel
  late := by decide +kernel

/-- An infinite `numeric` fails the load, and so does the last timestamp. -/
theorem server_value_settled_counterexample :
    ¬Settled (ColumnBuilder.new (resolve "numeric") true false) (.numeric .infinity) "amount"
        (arrowType (resolve "numeric") true false)
      ∧ ¬Settled (ColumnBuilder.new (resolve "timestamp") false false)
        (.timestamp (.finite lastTimestamp)) "at"
        (arrowType (resolve "timestamp") false false) := by
  constructor
  · rw [settled_numeric_iff "amount" (ColumnBuilder.new_blank _ _ _)
      ⟨by decide +kernel, none, none, by decide +kernel⟩ (by decide +kernel)]
    exact id
  · rw [settled_timestamp_iff "at" (ColumnBuilder.new_blank _ _ _)
      ⟨by decide +kernel, by decide +kernel⟩]
    intro h
    exact absurd h.1 (by decide +kernel)

theorem server_value_settled_infinity :
    Settled (ColumnBuilder.new (resolve "timestamptz") false false)
        (.timestamp (Extended.infinity : Extended (ServerTimestamp true))) "at"
          (arrowType (resolve "timestamptz") false false)
      ↔ (Datum.timestamp (Extended.infinity : Extended (ServerTimestamp true))).Passes :=
  server_value_settled_iff (ColumnBuilder.new_blank _ _ _)
    ⟨by decide +kernel, by decide +kernel⟩ (by decide +kernel) "at"

end PgDelta.Builders
