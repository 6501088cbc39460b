import PgDelta.Types.Dates

/-!
The dates that are accepted. A date that no calendar has is accepted as well
when only the length of its month forbids it, and is then taken for another
day.
-/

namespace PgDelta.Values

open PgDelta.Lib

/-! ### The accepted texts -/

/-- A field of two characters, the first of which may be a plus sign. -/
structure Field where
  first : Char
  second : Char
  first_digit : isDigitChar first = true ∨ first = '+'
  second_digit : isDigitChar second = true

namespace Field

def text (f : Field) : Text := [f.first, f.second]

def value (f : Field) : ℕ :=
  if f.first = '+' then digitsValue [f.second] else digitsValue [f.first, f.second]

end Field

/-- A date as its pieces are admitted. -/
structure CivilText where
  year : Text
  month : Field
  day : Field
  year_ne_nil : year ≠ []
  year_digits : year.all isDigitChar
  year_lt : digitsValue year < 2 ^ 63
  month_pos : 1 ≤ month.value
  month_le : month.value ≤ 12
  day_pos : 1 ≤ day.value
  day_le : day.value ≤ 31

def CivilText.text (t : CivilText) : Text := t.year ++ '-' :: (t.month.text ++ '-' :: t.day.text)

theorem textLen_cons (c : Char) (s : Text) : textLen (c :: s) = lenUtf8 c + textLen s := rfl

/-- Two bytes that are read as a positive number are two digits, or a plus sign
and a digit. -/
theorem parseInt64_field {s : Text} (hlen : textLen s = 2) {n : Int64} (hpos : 1 ≤ n)
    (h : parseInt64 s = some n) :
    ∃ f : Field, s = f.text ∧ n = .ofInt f.value := by
  obtain ⟨k, hk, rfl⟩ := Option.map_eq_some_iff.1 h
  obtain ⟨hlo, hhi, t, hne, hdigits, hsign⟩ := parseInt_cases hk
  have hone : (1 : Int64) = .ofInt 1 := rfl
  rw [hone, ofInt_le_ofInt (by omega) (by omega) hlo (by omega)] at hpos
  have hlength := textLen_of_digits hdigits
  obtain ⟨rfl, rfl⟩ | ⟨rfl | rfl, rfl⟩ := hsign
  · omega
  · have hplus : lenUtf8 '+' = 1 := by decide
    rw [textLen_cons, hplus, hlength] at hlen
    obtain ⟨b, rfl⟩ := List.length_eq_one_iff.1 (show t.length = 1 by omega)
    have hb : isDigitChar b = true := by simpa using hdigits
    exact ⟨⟨'+', b, .inr rfl, hb⟩, rfl, rfl⟩
  · obtain ⟨a, b, rfl⟩ := List.length_eq_two.1 (hlength.symm.trans hlen)
    obtain ⟨ha, hb⟩ : isDigitChar a = true ∧ isDigitChar b = true := by simpa using hdigits
    have hplus : a ≠ '+' := by
      rintro rfl
      cases ha
    exact ⟨⟨a, b, .inl ha, hb⟩, rfl, by rw [Field.value, if_neg hplus]⟩

/-- Three pieces come from two separators. -/
theorem splitn_three {sep : Char} {s a b c : Text} (h : splitn sep 3 s = [a, b, c]) :
    s = a ++ sep :: (b ++ sep :: c) := by
  rw [splitn] at h
  cases hsplit : splitOnce sep s with
  | none => simp [hsplit] at h
  | some p =>
    obtain ⟨a', rest⟩ := p
    simp only [hsplit, splitn] at h
    cases hsplit' : splitOnce sep rest with
    | none => simp [hsplit'] at h
    | some p =>
      obtain ⟨b', c'⟩ := p
      simp only [hsplit', List.cons.injEq, and_true] at h
      obtain ⟨rfl, rfl, rfl⟩ := h
      rw [(splitOnce_eq_some hsplit).1, (splitOnce_eq_some hsplit').1]

theorem Field.value_lt (f : Field) : f.value < 100 := by
  unfold value
  split_ifs with hplus
  · have h : digitsValue [f.second] < 10 := digitsValue_lt (by simp [f.second_digit])
    omega
  · have hfirst := f.first_digit.resolve_right hplus
    exact digitsValue_lt (s := [f.first, f.second]) (by simp [hfirst, f.second_digit])

/-- The pieces of an accepted date, with the numbers that are read. -/
theorem civilParts_eq_some {s : Text} {y m d : Int64} (h : civilParts s = some (y, m, d)) :
    ∃ t : CivilText, s = t.text ∧ y = .ofInt (digitsValue t.year) ∧ m = .ofInt t.month.value
      ∧ d = .ofInt t.day.value := by
  unfold civilParts at h
  split at h
  next ys ms ds hpieces =>
    split_ifs at h with hyear hlength
    split at h
    next y' m' d' hy hm hd =>
      split_ifs at h with hrange
      cases h
      obtain ⟨hne, hdigits⟩ : ys ≠ [] ∧ ys.all isDigitChar = true := by
        simpa [not_or] using hyear
      rw [not_or, not_not, not_not] at hlength
      obtain ⟨hm1, hm12, hd1, hd31⟩ := hrange
      obtain ⟨month, rfl, rfl⟩ := parseInt64_field hlength.1 hm1 hm
      obtain ⟨day, rfl, rfl⟩ := parseInt64_field hlength.2 hd1 hd
      have hmonth := month.value_lt
      have hday := day.value_lt
      have hle : ∀ {a b : ℕ}, a < 100 → b < 100 → Int64.ofInt a ≤ .ofInt b → a ≤ b :=
        fun ha hb h => (field_le ha hb).1 h
      obtain ⟨k, hk, rfl⟩ := Option.map_eq_some_iff.1 hy
      obtain ⟨hlo, hhi, t, -, hdigits', hsign⟩ := parseInt_cases hk
      have hplain : ys = t ∧ k = digitsValue t := by
        obtain ⟨rfl, -⟩ | ⟨rfl | rfl, rfl⟩ := hsign
        · simp [isDigitChar] at hdigits
        · simp [isDigitChar] at hdigits
        · exact ⟨rfl, rfl⟩
      obtain ⟨rfl, rfl⟩ := hplain
      exact ⟨⟨ys, month, day, hne, hdigits, by omega, hle (by omega) hmonth hm1,
        hle hmonth (by omega) hm12, hle (by omega) hday hd1, hle hday (by omega) hd31⟩,
        splitn_three hpieces, rfl, rfl, rfl⟩
    · cases h
  · cases h

theorem Field.minus_not_mem (f : Field) : '-' ∉ f.text := by
  obtain ⟨a, b, ha, hb⟩ := f
  simp only [text, List.mem_cons, List.not_mem_nil, or_false, not_or]
  refine ⟨?_, ?_⟩
  · rintro rfl
    obtain ha | ha := ha <;> cases ha
  · rintro rfl
    cases hb

theorem Field.parseInt64_text (f : Field) : parseInt64 f.text = some (.ofInt f.value) := by
  have hlt := f.value_lt
  have hparse : parseInt (-2 ^ 63) (2 ^ 63 - 1) f.text = some (f.value : ℤ) := by
    by_cases hplus : f.first = '+'
    · have hvalue : f.value = digitsValue [f.second] := if_pos hplus
      have hread := parseDigits_eq_some (s := [f.second]) (by simp) (by simp [f.second_digit])
      rw [text, hplus, parseInt, hread, ← hvalue]
      refine Option.filter_eq_some_iff.2 ⟨rfl, ?_⟩
      rw [decide_eq_true_eq]
      omega
    · have hvalue : f.value = digitsValue f.text := if_neg hplus
      have hdigits : f.text.all isDigitChar = true := by
        simp [text, f.first_digit.resolve_right hplus, f.second_digit]
      rw [hvalue] at hlt ⊢
      exact parseInt_of_digits (by simp [text]) hdigits (by omega) (by omega)
  rw [parseInt64, hparse]
  rfl

theorem Field.textLen_text (f : Field) : textLen f.text = 2 := by
  have hfirst : lenUtf8 f.first = 1 := by
    obtain h | h := f.first_digit
    · exact lenUtf8_of_ascii (by have := (isDigitChar_iff.1 h).2; omega)
    · rw [h]
      rfl
  have hsecond : lenUtf8 f.second = 1 :=
    lenUtf8_of_ascii (by have := (isDigitChar_iff.1 f.second_digit).2; omega)
  rw [text, textLen_cons, textLen_cons, hfirst, hsecond]
  rfl

/-- Every such text is taken apart. -/
theorem civilParts_text (t : CivilText) :
    civilParts t.text
      = some (.ofInt (digitsValue t.year), .ofInt t.month.value, .ofInt t.day.value) := by
  have hdash : '-' ∉ t.year := not_mem_of_digits t.year_digits rfl
  have hpieces : splitn '-' 3 t.text = [t.year, t.month.text, t.day.text] := by
    rw [CivilText.text]
    simp only [splitn, splitOnce_append hdash, splitOnce_append t.month.minus_not_mem]
  have hyear : parseInt64 t.year = some (.ofInt (digitsValue t.year)) := by
    have hlt := t.year_lt
    rw [parseInt64, parseInt_of_digits t.year_ne_nil t.year_digits (by omega) (by omega)]
    rfl
  have hm := t.month.value_lt
  have hd := t.day.value_lt
  have hbounds : (1 : Int64) ≤ .ofInt t.month.value ∧ Int64.ofInt t.month.value ≤ 12
      ∧ (1 : Int64) ≤ .ofInt t.day.value ∧ Int64.ofInt t.day.value ≤ 31 :=
    ⟨(field_le (a := 1) (by omega) hm).2 t.month_pos,
      (field_le (b := 12) hm (by omega)).2 t.month_le,
      (field_le (a := 1) (by omega) hd).2 t.day_pos, (field_le (b := 31) hd (by omega)).2 t.day_le⟩
  rw [civilParts, hpieces]
  simp only [t.year_digits, Field.textLen_text, hyear, Field.parseInt64_text]
  rw [if_neg (by simp [t.year_ne_nil]), if_neg (by simp), if_pos hbounds]

/-! ### The days that dates stand for -/

/-- The numbers of a date, with its era. -/
structure CivilFields where
  bc : Bool
  year : ℕ
  month : ℕ
  day : ℕ

namespace CivilFields

def calendarYear (f : CivilFields) : ℤ := if f.bc then 1 - f.year else f.year

/-- A day behind the end of its month: the 31st of a month of 30 days, the 30th
or 31st of February, or the 29th of February in a year of 365 days. -/
def Overruns (f : CivilFields) : Prop :=
  f.day = 31 ∧ (f.month = 4 ∨ f.month = 6 ∨ f.month = 9 ∨ f.month = 11)
    ∨ f.month = 2 ∧ (30 ≤ f.day ∨ f.day = 29 ∧ isLeapYear f.calendarYear = false)

/-- How many days after the epoch the day would be, if no month ended. -/
def dayCount (f : CivilFields) : ℤ := civilDays f.calendarYear f.month f.day

/-- The year is one of its era, its month has the day, and the number of the day
fits 64 bits. -/
def Regular (f : CivilFields) : Prop :=
  f.year ≠ 0 ∧ ¬f.Overruns ∧ -2 ^ 63 ≤ f.dayCount ∧ f.dayCount < 2 ^ 63

end CivilFields

def CivilText.fields (t : CivilText) (bc : Bool) : CivilFields :=
  ⟨bc, digitsValue t.year, t.month.value, t.day.value⟩

theorem le_daysInMonth_iff {f : CivilFields} (hm : 1 ≤ f.month) (hm' : f.month ≤ 12)
    (hd : f.day ≤ 31) : f.day ≤ daysInMonth f.calendarYear f.month ↔ ¬f.Overruns := by
  unfold CivilFields.Overruns daysInMonth
  cases isLeapYear f.calendarYear <;>
    simp only [Bool.false_eq_true, reduceCtorEq, if_false, if_true, and_false, and_true,
      or_false] <;>
    split_ifs <;> omega

theorem exists_date {t : CivilText} {bc : Bool} (h : ¬(t.fields bc).Overruns) :
    ∃ d : Date, d.year = (t.fields bc).calendarYear ∧ d.month = t.month.value
      ∧ d.day = t.day.value := by
  have hle := (le_daysInMonth_iff (f := t.fields bc) t.month_pos t.month_le t.day_le).2 h
  exact ⟨⟨_, t.month.value, t.day.value, t.month_pos, t.month_le, t.day_pos, hle⟩, rfl, rfl, rfl⟩

/-- The date is written in digits as year, month and day, and the calendar has
the day. -/
def NamesDay (s : Text) (bc : Bool) : Prop :=
  ∃ y m d : Text, s = y ++ '-' :: (m ++ '-' :: d) ∧ y ≠ [] ∧ y.all isDigitChar
    ∧ m.all isDigitChar ∧ m.length = 2 ∧ d.all isDigitChar ∧ d.length = 2
    ∧ ∃ date : Date, date.year = (if bc then 1 - digitsValue y else digitsValue y : ℤ)
      ∧ date.month = digitsValue m ∧ date.day = digitsValue d

theorem Field.text_digits (f : Field) : f.text.all isDigitChar = true ↔ f.first ≠ '+' := by
  have hsecond := f.second_digit
  constructor
  · intro h hplus
    rw [text, hplus] at h
    simp [isDigitChar] at h
  · intro hplus
    simp [text, f.first_digit.resolve_right hplus, hsecond]

theorem Field.value_eq {f : Field} (h : f.first ≠ '+') : f.value = digitsValue f.text := if_neg h

theorem CivilText.plus_mem (t : CivilText) :
    '+' ∈ t.text ↔ t.month.first = '+' ∨ t.day.first = '+' := by
  have hyear : '+' ∉ t.year := not_mem_of_digits t.year_digits rfl
  have hfield : ∀ f : Field, '+' ∈ f.text ↔ f.first = '+' := by
    intro f
    have hsecond : '+' ≠ f.second := by
      intro h
      have := f.second_digit
      rw [← h] at this
      cases this
    simp [Field.text, hsecond, eq_comm]
  simp [CivilText.text, hyear, hfield]

/-- The pieces of a date are found again in its text. -/
theorem text_injective {y m d y' m' d' : Text} (hy : y.all isDigitChar) (hm : m.length = m'.length)
    (hy' : y'.all isDigitChar) (h : y ++ '-' :: (m ++ '-' :: d) = y' ++ '-' :: (m' ++ '-' :: d')) :
    y = y' ∧ m = m' ∧ d = d' := by
  have hsplit : splitOnce '-' (y ++ '-' :: (m ++ '-' :: d)) = some (y, m ++ '-' :: d) :=
    splitOnce_append (not_mem_of_digits hy rfl) _
  rw [h, splitOnce_append (not_mem_of_digits hy' rfl), Option.some.injEq, Prod.mk.injEq] at hsplit
  obtain ⟨rfl, hrest⟩ := hsplit
  obtain ⟨rfl, hd⟩ := List.append_inj hrest hm.symm
  exact ⟨rfl, rfl, (List.cons.inj hd).2.symm⟩

/-- An accepted date is one of the calendar in digits unless a sign stands
before a digit or the day overruns the month. -/
theorem namesDay_iff (t : CivilText) (bc : Bool) :
    NamesDay t.text bc ↔ '+' ∉ t.text ∧ ¬(t.fields bc).Overruns := by
  rw [t.plus_mem, not_or]
  constructor
  · rintro ⟨y, m, d, htext, -, hy, hm, hm2, hd, -, date, hyear, hmonth, hday⟩
    obtain ⟨rfl, rfl, rfl⟩ :=
      text_injective t.year_digits (show t.month.text.length = m.length from hm2.symm) hy htext
    have hmonth' := (t.month.text_digits).1 hm
    have hday' := (t.day.text_digits).1 hd
    refine ⟨⟨hmonth', hday'⟩, ?_⟩
    rw [← Field.value_eq hmonth'] at hmonth
    rw [← Field.value_eq hday'] at hday
    rw [← le_daysInMonth_iff t.month_pos t.month_le t.day_le]
    have hle := date.day_le
    rw [hyear, hmonth, hday] at hle
    exact hle
  · rintro ⟨⟨hmonth, hday⟩, hregular⟩
    obtain ⟨date, hyear, hm, hd⟩ := exists_date hregular
    exact ⟨t.year, t.month.text, t.day.text, rfl, t.year_ne_nil, t.year_digits,
      t.month.text_digits.2 hmonth, rfl, t.day.text_digits.2 hday, rfl, date, hyear,
      hm.trans (Field.value_eq hmonth), hd.trans (Field.value_eq hday)⟩

/-! ### Accepted dates -/

/-- What is left of a timestamp without its era and offset, and its offset. -/
def timestampBody (tz : Bool) (s : Text) : Text × Option Int64 :=
  if tz then splitOffset (splitEra (trim s)).1 else ((splitEra (trim s)).1, none)

def timestampPieces (tz : Bool) (s : Text) : Text × Text :=
  (splitOnce ' ' (timestampBody tz s).1).getD ((timestampBody tz s).1, "00:00:00".toList)

/-- A value that is accepted, with its date part, its era and the number of its
day. That of a timestamp is what its time and offset leave of it. -/
inductive Accepts : Bytes → Text → Bool → ℤ → Prop
  | date {v : Bytes} {s : Text} {column : String} {n : ℤ} (hutf8 : fromUtf8 v = some s)
      (hread : parseDate v column = .ok (some n)) :
      Accepts v (splitEra (trim s)).1 (splitEra (trim s)).2 n
  | timestamp {v : Bytes} {s : Text} {tz : Bool} {column : String} {t n : ℤ} {micros : Int64}
      (hutf8 : fromUtf8 v = some s) (hread : parseTimestamp v tz column = .ok (some t))
      (htime : timeMicros (trim (timestampPieces tz s).2) = some micros)
      (hday : n * 86400000000 + micros.toInt - ((timestampBody tz s).2.getD 0).toInt = t) :
      Accepts v (timestampPieces tz s).1 (splitEra (trim s)).2 n

/-- The number that the code computes for the day. -/
def CivilText.dayRead (t : CivilText) (bc : Bool) : ℤ :=
  (daysFromCivil (.ofInt (t.fields bc).calendarYear) (.ofInt t.month.value)
    (.ofInt t.day.value)).toInt

theorem CivilText.dayRead_eq (t : CivilText) (bc : Bool) :
    t.dayRead bc
      = (daysFromCivil (.ofInt (if bc then 1 - digitsValue t.year else digitsValue t.year))
      (.ofInt t.month.value) (.ofInt t.day.value)).toInt := by
  have hyear : (t.fields bc).calendarYear
      = if bc then 1 - (digitsValue t.year : ℤ) else digitsValue t.year := rfl
  rw [dayRead, hyear]

theorem year_of_era (bc : Bool) (n : ℕ) :
    (if bc then 1 - Int64.ofInt n else .ofInt n) = .ofInt (if bc then 1 - n else n) := by
  cases bc with
  | false => rfl
  | true =>
    have hone : (1 : Int64) = .ofInt 1 := rfl
    simp only [if_true]
    rw [hone, ← Int64.ofInt_sub]

theorem parseDate_eq {v : Bytes} {s : Text} (hutf8 : fromUtf8 v = some s)
    (hfinite : ¬(trim s = "infinity".toList ∨ trim s = "-infinity".toList)) (column : String) :
    parseDate v column =
      match civilParts (splitEra (trim s)).1 with
      | none => .error (bad column "date")
      | some (y, m, d) =>
        if daysFromCivil (if (splitEra (trim s)).2 then 1 - y else y) m d < minSupportedDay
            ∧ (splitEra (trim s)).2 = false then .error (bad column "date")
        else if -2 ^ 31 ≤ (daysFromCivil (if (splitEra (trim s)).2 then 1 - y else y) m d).toInt
            ∧ (daysFromCivil (if (splitEra (trim s)).2 then 1 - y else y) m d).toInt < 2 ^ 31 then
          .ok (some (daysFromCivil (if (splitEra (trim s)).2 then 1 - y else y) m d).toInt)
        else .error (bad column "date") := by
  rw [parseDate, trimmed, hutf8]
  -- Whatever this function is, since evaluating it takes long.
  generalize daysFromCivil = days
  revert days
  refine id ?_
  intro days
  exact if_neg hfinite

theorem parseDate_infinite {v : Bytes} {s : Text} (hutf8 : fromUtf8 v = some s)
    (hinfinite : trim s = "infinity".toList ∨ trim s = "-infinity".toList) (column : String) :
    parseDate v column = .ok none := by
  rw [parseDate, trimmed, hutf8]
  exact if_pos hinfinite

theorem parseDate_accepts {v : Bytes} {s : Text} {column : String} {n : ℤ}
    (hutf8 : fromUtf8 v = some s) (h : parseDate v column = .ok (some n)) :
    ∃ t : CivilText, (splitEra (trim s)).1 = t.text ∧ n = t.dayRead (splitEra (trim s)).2
      ∧ -2 ^ 31 ≤ n ∧ n < 2 ^ 31 := by
  have hfinite : ¬(trim s = "infinity".toList ∨ trim s = "-infinity".toList) := by
    intro hinfinite
    rw [parseDate_infinite hutf8 hinfinite] at h
    cases h
  rw [parseDate_eq hutf8 hfinite] at h
  cases hcivil : civilParts (splitEra (trim s)).1 with
  | none => simp [hcivil] at h
  | some p =>
    obtain ⟨y, m, d⟩ := p
    obtain ⟨t, htext, rfl, rfl, rfl⟩ := civilParts_eq_some hcivil
    simp only [hcivil, year_of_era] at h
    refine ⟨t, htext, ?_⟩
    rw [t.dayRead_eq]
    generalize daysFromCivil _ _ _ = days at h ⊢
    split_ifs at h with hold hrange
    cases h
    exact ⟨rfl, hrange⟩

theorem checkedI64_eq_some {n m : ℤ} (h : checkedI64 n = some m) :
    m = n ∧ -2 ^ 63 ≤ n ∧ n < 2 ^ 63 := by
  unfold checkedI64 at h
  split_ifs at h with hrange
  exact ⟨(Option.some.inj h).symm, hrange⟩

/-- What a timestamp is made of when its era, its offset, its date and its time
are taken apart. -/
def timestampRest (bc : Bool) (offset : Option Int64) (pieces : Text × Text) (column : String) :
    Except Error (Option ℤ) :=
  match civilParts pieces.1 with
  | none => .error (bad column "timestamp")
  | some (y, m, d) =>
    match timeMicros (trim pieces.2) with
    | none => .error (bad column "timestamp")
    | some micros =>
      match ((checkedI64 ((daysFromCivil (if bc then 1 - y else y) m d).toInt
          * microsPerDay.toInt)).bind fun t => checkedI64 (t + micros.toInt)).bind fun t =>
            checkedI64 (t - (offset.getD 0).toInt) with
      | some t => .ok (some t)
      | none => .error (bad column "timestamp")

theorem parseTimestamp_eq {v : Bytes} {s : Text} (hutf8 : fromUtf8 v = some s)
    (hfinite : ¬(trim s = "infinity".toList ∨ trim s = "-infinity".toList)) (tz : Bool)
    (column : String) :
    parseTimestamp v tz column =
      timestampRest (splitEra (trim s)).2 (timestampBody tz s).2 (timestampPieces tz s) column := by
  rw [parseTimestamp, trimmed, hutf8, timestampRest]
  -- Whatever these functions are, since evaluating them takes long.
  generalize checkedI64 = check, daysFromCivil = days, microsPerDay = day
  revert check days day
  refine id ?_
  intro check days day
  exact if_neg hfinite

theorem parseTimestamp_infinite {v : Bytes} {s : Text} (hutf8 : fromUtf8 v = some s)
    (hinfinite : trim s = "infinity".toList ∨ trim s = "-infinity".toList) (tz : Bool)
    (column : String) : parseTimestamp v tz column = .ok none := by
  rw [parseTimestamp, trimmed, hutf8]
  exact if_pos hinfinite

/-- The steps behind the number of the day, when none of them overflows. -/
theorem checked_steps {days t : ℤ} {micros offset : ℤ}
    (h : ((checkedI64 (days * 86400000000)).bind fun t => checkedI64 (t + micros)).bind
      (fun t => checkedI64 (t - offset)) = some t) :
    t = days * 86400000000 + micros - offset ∧ -2 ^ 31 ≤ days ∧ days < 2 ^ 31 := by
  obtain ⟨b, hb, hc⟩ := Option.bind_eq_some_iff.1 h
  obtain ⟨a, ha, hb⟩ := Option.bind_eq_some_iff.1 hb
  obtain ⟨rfl, hlo, hhi⟩ := checkedI64_eq_some ha
  obtain ⟨rfl, -, -⟩ := checkedI64_eq_some hb
  obtain ⟨rfl, -, -⟩ := checkedI64_eq_some hc
  omega

theorem parseTimestamp_accepts {v : Bytes} {s : Text} {tz : Bool} {column : String} {t n : ℤ}
    {micros : Int64} (hutf8 : fromUtf8 v = some s) (h : parseTimestamp v tz column = .ok (some t))
    (htime : timeMicros (trim (timestampPieces tz s).2) = some micros)
    (hday : n * 86400000000 + micros.toInt - ((timestampBody tz s).2.getD 0).toInt = t) :
    ∃ t : CivilText, (timestampPieces tz s).1 = t.text ∧ n = t.dayRead (splitEra (trim s)).2
      ∧ -2 ^ 31 ≤ n ∧ n < 2 ^ 31 := by
  have hfinite : ¬(trim s = "infinity".toList ∨ trim s = "-infinity".toList) := by
    intro hinfinite
    rw [parseTimestamp_infinite hutf8 hinfinite] at h
    cases h
  have hmicros : microsPerDay.toInt = 86400000000 := by decide +kernel
  have hsteps := @checked_steps
  rw [parseTimestamp_eq hutf8 hfinite, timestampRest, hmicros] at h
  generalize checkedI64 = check at h hsteps
  revert check
  refine id ?_
  intro check h hsteps
  cases hcivil : civilParts (timestampPieces tz s).1 with
  | none => simp [hcivil] at h
  | some p =>
    obtain ⟨y, m, d⟩ := p
    obtain ⟨u, htext, rfl, rfl, rfl⟩ := civilParts_eq_some hcivil
    simp only [hcivil, htime, year_of_era] at h
    refine ⟨u, htext, ?_⟩
    rw [u.dayRead_eq]
    split at h
    next r hr =>
      cases h
      have := hsteps hr
      omega
    · cases h

theorem Accepts.cases {v : Bytes} {s : Text} {bc : Bool} {n : ℤ} (h : Accepts v s bc n) :
    ∃ t : CivilText, s = t.text ∧ n = t.dayRead bc ∧ -2 ^ 31 ≤ n ∧ n < 2 ^ 31 := by
  cases h with
  | date hutf8 hread => exact parseDate_accepts hutf8 hread
  | timestamp hutf8 hread htime hday => exact parseTimestamp_accepts hutf8 hread htime hday

/-! ### Days that are taken for one another -/

def dateFields (d : Date) : CivilFields := ⟨decide (d.year ≤ 0), yearOfEra d.year, d.month, d.day⟩

theorem calendarYear_dateFields (d : Date) : (dateFields d).calendarYear = d.year := by
  simp only [dateFields, CivilFields.calendarYear, yearOfEra, decide_eq_true_eq]
  split_ifs <;> omega

theorem dayCount_dateFields (d : Date) : (dateFields d).dayCount = d.dayNumber := by
  rw [CivilFields.dayCount, calendarYear_dateFields]
  exact civilDays_date d

theorem dateFields_regular {d : Date} (hlo : -2 ^ 63 ≤ d.dayNumber) (hhi : d.dayNumber < 2 ^ 63) :
    (dateFields d).Regular := by
  refine ⟨Nat.one_le_iff_ne_zero.1 (yearOfEra_pos d.year), ?_, ?_⟩
  · refine (le_daysInMonth_iff d.month_pos d.month_le (d.day_le.trans (daysInMonth_le _ _))).1 ?_
    rw [calendarYear_dateFields]
    exact d.day_le
  · rw [dayCount_dateFields]
    exact ⟨hlo, hhi⟩

/-- Fields that are regular are those of a date. -/
theorem exists_dateFields {t : CivilText} {bc : Bool} (h : (t.fields bc).Regular) :
    ∃ d : Date, t.fields bc = dateFields d := by
  obtain ⟨hyear, hoverrun, -, -⟩ := h
  obtain ⟨d, hy, hm, hd⟩ := exists_date hoverrun
  refine ⟨d, ?_⟩
  have hyear : digitsValue t.year ≠ 0 := hyear
  have hy : d.year = if bc then 1 - (digitsValue t.year : ℤ) else digitsValue t.year := hy
  simp only [CivilText.fields, dateFields, yearOfEra, hm, hd, hy, CivilFields.mk.injEq, and_true]
  cases bc <;> simp <;> omega

/-- The arithmetic is exact on the days whose number fits. -/
theorem dayRead_of_regular {t : CivilText} {bc : Bool} (h : (t.fields bc).Regular) :
    t.dayRead bc = (t.fields bc).dayCount := by
  obtain ⟨d, hfields⟩ := exists_dateFields h
  have hm := t.month_pos
  have hm' := t.month_le
  obtain ⟨-, -, hlo, hhi⟩ := h
  have hyear : -2 ^ 62 ≤ (t.fields bc).calendarYear ∧ (t.fields bc).calendarYear ≤ 2 ^ 62 := by
    have hbounds := d.dayNumber_bounds
    rw [hfields, dayCount_dateFields] at hlo hhi
    rw [hfields, calendarYear_dateFields]
    unfold daysBeforeYear leapYearsBefore at hbounds
    omega
  rw [CivilText.dayRead, daysFromCivil_ofInt hyear.1 hyear.2 (by omega) (by omega)]
  exact Int64.toInt_ofInt_of_le hlo hhi

theorem Field.ext_text {f g : Field} (h : f.text = g.text) : f = g := by
  obtain ⟨a, b, ha, hb⟩ := f
  obtain ⟨a', b', ha', hb'⟩ := g
  obtain ⟨rfl, rfl⟩ : a = a' ∧ b = b' := by simpa [text] using h
  rfl

theorem CivilText.ext_text {t u : CivilText} (h : t.text = u.text) : t = u := by
  have hlength : t.month.text.length = u.month.text.length := rfl
  obtain ⟨hyear, hmonth, hday⟩ := text_injective t.year_digits hlength u.year_digits h
  have hmonth := Field.ext_text hmonth
  have hday := Field.ext_text hday
  cases t
  cases u
  subst hyear hmonth hday
  rfl

theorem accepts_date {d : Date} (hlo : -2 ^ 31 ≤ d.dayNumber) (hhi : d.dayNumber < 2 ^ 31) :
    ∃ t : CivilText, Accepts (utf8 (String.ofList (dateText d))) t.text (decide (d.year ≤ 0))
      d.dayNumber ∧ t.fields (decide (d.year ≤ 0)) = dateFields d := by
  have hends := digitEnds_isoText d
  have htrim : trim (dateText d) = dateText d := by
    have h := (trimmed_eraMark hends d.year "" "date").1
    rw [trimmed, fromUtf8_utf8, String.toList_ofList] at h
    exact Except.ok.inj h
  have hera : splitEra (trim (dateText d)) = (isoText d, decide (d.year ≤ 0)) := by
    rw [htrim]
    exact splitEra_eraMark hends d.year
  have h := Accepts.date (by rw [fromUtf8_utf8, String.toList_ofList])
    (parseDate_dateText hlo hhi "")
  rw [hera] at h
  obtain ⟨t, htext, -⟩ := h.cases
  refine ⟨t, by rw [← htext]; exact h, ?_⟩
  have hmonth := d.month_le
  have htext : padded 4 (yearOfEra d.year) ++ '-' :: (padded 2 d.month ++ '-' :: padded 2 d.day)
      = t.year ++ '-' :: (t.month.text ++ '-' :: t.day.text) := htext
  have hlength : (padded 2 d.month).length = t.month.text.length :=
    length_padded (by decide) (by omega)
  obtain ⟨hyear, hmonth, hday⟩ := text_injective (padded_all _ _) hlength t.year_digits htext
  have hvalue : ∀ {f : Field} {n : ℕ}, padded 2 n = f.text → f.value = n := by
    intro f n hf
    have hdigits := padded_all 2 n
    rw [hf] at hdigits
    rw [Field.value_eq (f.text_digits.1 hdigits), ← hf, digitsValue_padded]
  rw [CivilText.fields, dateFields, hvalue hmonth, hvalue hday, ← hyear, digitsValue_padded]

/-- An accepted date is written in digits and one of the calendar unless a sign
stands before a digit or the day overruns its month. It has its number for
itself among the dates whose year is one of its era, whose month has the day
and whose number fits 64 bits; every other accepted date has the number of one
of those. -/
theorem accepted_date_iff {v : Bytes} {s : Text} {bc : Bool} {n : ℤ} (h : Accepts v s bc n) :
    ∃ t : CivilText, s = t.text ∧ (NamesDay s bc ↔ '+' ∉ s ∧ ¬(t.fields bc).Overruns)
      ∧ ((∃ (w : Bytes) (u : CivilText) (era : Bool), Accepts w u.text era n
        ∧ (u.fields era).Regular ∧ u.fields era ≠ t.fields bc) ↔ ¬(t.fields bc).Regular) := by
  obtain ⟨t, rfl, rfl, hlo, hhi⟩ := h.cases
  refine ⟨t, rfl, namesDay_iff t bc, ?_⟩
  constructor
  · rintro ⟨w, u, era, hu, hregular, hne⟩ ht
    obtain ⟨u', htext, hn, -, -⟩ := hu.cases
    obtain rfl := CivilText.ext_text htext
    rw [dayRead_of_regular ht, dayRead_of_regular hregular] at hn
    obtain ⟨d, hd⟩ := exists_dateFields ht
    obtain ⟨e, he⟩ := exists_dateFields hregular
    rw [hd, he, dayCount_dateFields, dayCount_dateFields] at hn
    exact hne (by rw [hd, he, Date.dayNumber_injective hn])
  · intro hregular
    obtain ⟨d, hd⟩ := Date.exists_dayNumber (t.dayRead bc)
    obtain ⟨u, hu, hfields⟩ := accepts_date (d := d) (by omega) (by omega)
    have hd' := dateFields_regular (d := d) (by omega) (by omega)
    rw [← hfields] at hd'
    refine ⟨_, u, _, hd ▸ hu, hd', fun heq => hregular ?_⟩
    rw [← heq]
    exact hd'

/-- The thirtieth of February. -/
def lateFebruary : CivilText :=
  ⟨"2023".toList, ⟨'0', '2', .inl rfl, rfl⟩, ⟨'3', '0', .inl rfl, rfl⟩, by decide, by decide,
    by decide, by decide, by decide, by decide, by decide⟩

theorem accepts_lateFebruary : Accepts (utf8 "2023-02-30") lateFebruary.text false 19418 := by
  have hread : parseDate (utf8 "2023-02-30") "at" = .ok (some 19418) := by decide +kernel
  exact .date (fromUtf8_utf8 _) hread

theorem accepted_date_lateFebruary :
    ∃ t : CivilText, lateFebruary.text = t.text
      ∧ (NamesDay lateFebruary.text false
        ↔ '+' ∉ lateFebruary.text ∧ ¬(t.fields false).Overruns)
      ∧ ((∃ (w : Bytes) (u : CivilText) (era : Bool), Accepts w u.text era 19418
        ∧ (u.fields era).Regular ∧ u.fields era ≠ t.fields false) ↔ ¬(t.fields false).Regular) :=
  accepted_date_iff accepts_lateFebruary

/-- The thirtieth of February is accepted, and taken for the second of March. -/
theorem accepted_date_counterexample :
    Accepts (utf8 "2023-02-30") "2023-02-30".toList false 19418
      ∧ Accepts (utf8 "2023-03-02") "2023-03-02".toList false 19418
      ∧ ¬NamesDay "2023-02-30".toList false := by
  have hread : parseDate (utf8 "2023-03-02") "at" = .ok (some 19418) := by decide +kernel
  refine ⟨accepts_lateFebruary, .date (fromUtf8_utf8 _) hread, ?_⟩
  have htext : lateFebruary.text = "2023-02-30".toList := rfl
  rw [← htext, namesDay_iff]
  exact fun h => h.2 (.inr ⟨rfl, .inl le_rfl⟩)

end PgDelta.Values
