import PgDelta.Lib.Calendar
import PgDelta.Lib.Numerals
import PgDelta.Types.Values

/-!
Dates and timestamps as a server writes them, and what the parsers make of
them. `days_from_civil` counts the days of the proleptic Gregorian calendar.
-/

namespace PgDelta.Values

open PgDelta.Lib

/-! ### The days of the calendar -/

/-- The count of `days_from_civil` without a bound on its numbers. -/
def civilDays (y m d : ℤ) : ℤ :=
  let y := if m ≤ 2 then y - 1 else y
  let era := (if 0 ≤ y then y else y - 399).tdiv 400
  let yoe := y - era * 400
  let mp := (m + 9).tmod 12
  let doy := (153 * mp + 2).tdiv 5 + d - 1
  let doe := yoe * 365 + yoe.tdiv 4 - yoe.tdiv 100 + doy
  era * 146097 + doe - 719468

theorem era_eq (y : ℤ) : (if 0 ≤ y then y else y - 399).tdiv 400 = y / 400 := by
  split_ifs with h
  · exact Int.tdiv_eq_ediv_of_nonneg h
  · rw [← neg_neg ((y - 399).tdiv 400), ← Int.neg_tdiv, Int.tdiv_eq_ediv_of_nonneg (by omega)]
    omega

theorem ofInt_div {a b : ℤ} (ha : -2 ^ 63 ≤ a) (ha' : a < 2 ^ 63) (hb : 0 ≤ b)
    (hb' : b < 2 ^ 63) : Int64.ofInt a / .ofInt b = .ofInt (a.tdiv b) := by
  have hmin : Int64.minValue.toInt = -2 ^ 63 := rfl
  have hmax : Int64.maxValue.toInt = 2 ^ 63 - 1 := rfl
  exact (Int64.ofInt_tdiv (by omega) (by omega) (by omega) (by omega)).symm

theorem ofInt_mod {a b : ℤ} (ha : -2 ^ 63 ≤ a) (ha' : a < 2 ^ 63) (hb : 0 ≤ b)
    (hb' : b < 2 ^ 63) : Int64.ofInt a % .ofInt b = .ofInt (a.tmod b) := by
  have hmin : Int64.minValue.toInt = -2 ^ 63 := rfl
  have hmax : Int64.maxValue.toInt = 2 ^ 63 - 1 := rfl
  exact (Int64.ofInt_tmod (by omega) (by omega) (by omega) (by omega)).symm

theorem ofInt_le_ofInt {a b : ℤ} (ha : -2 ^ 63 ≤ a) (ha' : a < 2 ^ 63) (hb : -2 ^ 63 ≤ b)
    (hb' : b < 2 ^ 63) : Int64.ofInt a ≤ .ofInt b ↔ a ≤ b := by
  have hmin : Int64.minValue.toInt = -2 ^ 63 := rfl
  have hmax : Int64.maxValue.toInt = 2 ^ 63 - 1 := rfl
  exact Int64.ofInt_le_iff_le (by omega) (by omega) (by omega) (by omega)

theorem daysFromCivil_ofInt {y m d : ℤ} (hy : -2 ^ 62 ≤ y) (hy' : y ≤ 2 ^ 62) (hm : 1 ≤ m)
    (hm' : m ≤ 12) :
    daysFromCivil (.ofInt y) (.ofInt m) (.ofInt d) = .ofInt (civilDays y m d) := by
  -- Each quantity of the computation is that of the integers, step by step.
  have hyear : (if Int64.ofInt m ≤ 2 then Int64.ofInt y - 1 else .ofInt y)
      = .ofInt (if m ≤ 2 then y - 1 else y) := by
    have h : Int64.ofInt m ≤ .ofInt 2 ↔ m ≤ 2 :=
      ofInt_le_ofInt (by omega) (by omega) (by omega) (by omega)
    have h' : Int64.ofInt (y - 1) = .ofInt y - 1 := Int64.ofInt_sub _ _
    change (if Int64.ofInt m ≤ .ofInt 2 then _ else _) = _
    simp only [h]
    split_ifs
    · exact h'.symm
    · rfl
  have hyear' : -2 ^ 62 - 1 ≤ (if m ≤ 2 then y - 1 else y) ∧
      (if m ≤ 2 then y - 1 else y) ≤ 2 ^ 62 := by
    split_ifs <;> omega
  unfold daysFromCivil civilDays
  simp only [hyear]
  generalize (if m ≤ 2 then y - 1 else y) = y at hyear' ⊢
  have hera : (if 0 ≤ Int64.ofInt y then Int64.ofInt y else .ofInt y - 399) / 400
      = .ofInt ((if 0 ≤ y then y else y - 399).tdiv 400) := by
    have h : Int64.ofInt 0 ≤ .ofInt y ↔ 0 ≤ y :=
      ofInt_le_ofInt (by omega) (by omega) (by omega) (by omega)
    change (if Int64.ofInt 0 ≤ .ofInt y then _ else _) / _ = _
    simp only [h]
    split_ifs
    · exact ofInt_div (b := 400) (by omega) (by omega) (by omega) (by omega)
    · have h' : Int64.ofInt (y - 399) = .ofInt y - 399 := Int64.ofInt_sub _ _
      rw [← h']
      exact ofInt_div (b := 400) (by omega) (by omega) (by omega) (by omega)
  simp only [hera]
  rw [era_eq]
  have hyoe : Int64.ofInt y - .ofInt (y / 400) * 400 = .ofInt (y - y / 400 * 400) := by
    rw [Int64.ofInt_sub, Int64.ofInt_mul]
    rfl
  simp only [hyoe]
  have hyoe' : 0 ≤ y - y / 400 * 400 ∧ y - y / 400 * 400 < 400 := by omega
  generalize y - y / 400 * 400 = yoe at hyoe' ⊢
  have hmp : (Int64.ofInt m + 9) % 12 = .ofInt ((m + 9).tmod 12) := by
    have h : Int64.ofInt (m + 9) = .ofInt m + 9 := Int64.ofInt_add _ _
    rw [← h]
    exact ofInt_mod (b := 12) (by omega) (by omega) (by omega) (by omega)
  have hmp' : 0 ≤ (m + 9).tmod 12 ∧ (m + 9).tmod 12 < 12 := by
    rw [Int.tmod_eq_emod_of_nonneg (by omega)]
    omega
  simp only [hmp]
  generalize (m + 9).tmod 12 = mp at hmp' ⊢
  have hdoy : (153 * Int64.ofInt mp + 2) / 5 + .ofInt d - 1
      = .ofInt ((153 * mp + 2).tdiv 5 + d - 1) := by
    have h : Int64.ofInt (153 * mp + 2) = 153 * .ofInt mp + 2 := by
      rw [Int64.ofInt_add, Int64.ofInt_mul]
      rfl
    rw [← h, Int64.ofInt_sub _ 1, Int64.ofInt_add _ d,
      ← ofInt_div (b := 5) (by omega) (by omega) (by omega) (by omega)]
    rfl
  have hdoe : Int64.ofInt yoe * 365 + .ofInt yoe / 4 - .ofInt yoe / 100
      = .ofInt (yoe * 365 + yoe.tdiv 4 - yoe.tdiv 100) := by
    rw [Int64.ofInt_sub, Int64.ofInt_add, Int64.ofInt_mul,
      ← ofInt_div (b := 4) (by omega) (by omega) (by omega) (by omega),
      ← ofInt_div (b := 100) (by omega) (by omega) (by omega) (by omega)]
    rfl
  simp only [hdoy, hdoe]
  rw [← Int64.ofInt_add, Int64.ofInt_sub, Int64.ofInt_add _ (_ + _), Int64.ofInt_mul]
  rfl

/-- Counted from the first of March, years differ by their leap days and
months by their place in the year. -/
theorem civilDays_eq (y : ℤ) {m : ℤ} (hm : 1 ≤ m) (d : ℤ) :
    civilDays y m d = 365 * (if m ≤ 2 then y - 1 else y) + (if m ≤ 2 then y - 1 else y) / 4
      - (if m ≤ 2 then y - 1 else y) / 100 + (if m ≤ 2 then y - 1 else y) / 400
      + (153 * ((m + 9) % 12) + 2) / 5 + d - 719469 := by
  unfold civilDays
  simp only [era_eq]
  generalize (if m ≤ 2 then y - 1 else y) = y
  rw [Int.tmod_eq_emod_of_nonneg (by omega), Int.tdiv_eq_ediv_of_nonneg (by omega),
    Int.tdiv_eq_ediv_of_nonneg (by omega), Int.tdiv_eq_ediv_of_nonneg (by omega)]
  omega

/-- The days of the months before a month, of which those from March on come
as the formula has them. -/
theorem daysBeforeMonth_eq (y : ℤ) {m : ℕ} (hm : 1 ≤ m) (hm' : m ≤ 12) :
    (daysBeforeMonth y m : ℤ) = (153 * ((m + 9) % 12) + 2) / 5
      + if m ≤ 2 then -306 else if isLeapYear y then 60 else 59 := by
  cases h : isLeapYear y <;> interval_cases m <;>
    simp [daysBeforeMonth, daysInMonth, h]

/-- The count of `days_from_civil` is that of the calendar. -/
theorem civilDays_date (d : Date) : civilDays d.year d.month d.day = d.dayNumber := by
  have hm : (1 : ℤ) ≤ d.month := by exact_mod_cast d.month_pos
  have hmonth := daysBeforeMonth_eq d.year d.month_pos d.month_le
  have hleap := isLeapYear_iff d.year
  rw [civilDays_eq d.year hm, Date.dayNumber, hmonth, daysBeforeYear, leapYearsBefore,
    leapYearsBefore]
  generalize (153 * (((d.month : ℤ) + 9) % 12) + 2) / 5 = doy
  by_cases hearly : d.month ≤ 2
  · have : (d.month : ℤ) ≤ 2 := by exact_mod_cast hearly
    simp only [hearly, this, if_true]
    omega
  · have : ¬(d.month : ℤ) ≤ 2 := by exact_mod_cast hearly
    simp only [hearly, this, if_false]
    split_ifs with h
    · have := hleap.1 h
      omega
    · have : ¬(d.year % 4 = 0 ∧ (d.year % 100 ≠ 0 ∨ d.year % 400 = 0)) := fun hc => h (hleap.2 hc)
      omega

/-! ### Dates as text -/

/-- A date in the ISO style, whose year has at least four digits. -/
def isoDate (y m d : ℕ) : Text := padded 4 y ++ '-' :: (padded 2 m ++ '-' :: padded 2 d)

/-- The year as it is written: years before year 1 count backwards from 1 BC. -/
def yearOfEra (y : ℤ) : ℕ := if 0 < y then y.toNat else (1 - y).toNat

/-- The mark behind a date or timestamp of a year before year 1. -/
def eraMark (y : ℤ) : Text := if 0 < y then [] else " BC".toList

def isoText (d : Date) : Text := isoDate (yearOfEra d.year) d.month d.day

def dateText (d : Date) : Text := isoText d ++ eraMark d.year

example : String.ofList (dateText ⟨-43, 3, 15, by decide, by decide, by decide, by decide⟩)
    = "0044-03-15 BC" := by decide +kernel

theorem mem_isoDate {y m d : ℕ} {c : Char} (h : c ∈ isoDate y m d) :
    isDigitChar c = true ∨ c = '-' := by
  have hpadded : ∀ {w n : ℕ}, c ∈ padded w n → isDigitChar c = true := fun h =>
    List.all_eq_true.1 (padded_all _ _) c h
  simp only [isoDate, List.mem_append, List.mem_cons] at h
  obtain h | rfl | h | rfl | h := h
  · exact .inl (hpadded h)
  · exact .inr rfl
  · exact .inl (hpadded h)
  · exact .inr rfl
  · exact .inl (hpadded h)

theorem parseInt64_padded {w n : ℕ} (h : n < 2 ^ 63) :
    parseInt64 (padded w n) = some (.ofInt n) := by
  rw [parseInt64, parseInt_padded (by omega) (by omega)]
  rfl

/-- The fields of a date or time compare as the numbers that they are. -/
theorem field_le {a b : ℕ} (ha : a < 100) (hb : b < 100) :
    Int64.ofInt a ≤ .ofInt b ↔ a ≤ b := by
  rw [ofInt_le_ofInt (by omega) (by omega) (by omega) (by omega)]
  exact Int.ofNat_le

theorem civilParts_isoDate {y m d : ℕ} (hy : y < 2 ^ 63) (hm : 1 ≤ m) (hm' : m ≤ 12) (hd : 1 ≤ d)
    (hd' : d ≤ 31) :
    civilParts (isoDate y m d) = some (.ofInt y, .ofInt m, .ofInt d) := by
  have hdash : ∀ w n : ℕ, '-' ∉ padded w n := fun w n =>
    not_mem_of_digits (padded_all w n) rfl
  have hpieces : splitn '-' 3 (isoDate y m d) = [padded 4 y, padded 2 m, padded 2 d] := by
    rw [isoDate]
    simp only [splitn, splitOnce_append (hdash _ _)]
  have hlen : ∀ n < 100, textLen (padded 2 n) = 2 := by
    intro n hn
    rw [textLen_of_digits (padded_all _ _), length_padded (by omega) (by omega)]
  have hbounds : (1 : Int64) ≤ .ofInt m ∧ Int64.ofInt m ≤ 12 ∧ (1 : Int64) ≤ .ofInt d
      ∧ Int64.ofInt d ≤ 31 :=
    ⟨(field_le (a := 1) (by omega) (by omega)).2 hm,
      (field_le (b := 12) (by omega) (by omega)).2 hm',
      (field_le (a := 1) (by omega) (by omega)).2 hd,
      (field_le (b := 31) (by omega) (by omega)).2 hd'⟩
  rw [civilParts, hpieces]
  simp only [padded_all, parseInt64_padded hy, parseInt64_padded (show m < 2 ^ 63 by omega),
    parseInt64_padded (show d < 2 ^ 63 by omega), hlen m (by omega), hlen d (by omega)]
  rw [if_neg (by simp [padded_ne_nil]), if_neg (by simp), if_pos hbounds]

/-- A text that begins and ends with a digit, as all dates and times do before
their era. -/
def DigitEnds (t : Text) : Prop :=
  (∃ c s, t = c :: s ∧ isDigitChar c = true) ∧ ∃ s c, t = s ++ [c] ∧ isDigitChar c = true

theorem digitEnds_padded (w n : ℕ) : DigitEnds (padded w n) := by
  have hdigit := List.all_eq_true.1 (padded_all w n)
  obtain ⟨c, s, h⟩ := List.exists_cons_of_ne_nil (padded_ne_nil w n)
  refine ⟨⟨c, s, h, hdigit c (by simp [h])⟩, _, _,
    (List.dropLast_append_getLast (padded_ne_nil w n)).symm, ?_⟩
  exact hdigit _ (List.getLast_mem _)

theorem DigitEnds.append {a b : Text} (ha : DigitEnds a) (hb : DigitEnds b) (m : Text) :
    DigitEnds (a ++ (m ++ b)) := by
  obtain ⟨⟨c, s, rfl, hc⟩, -⟩ := ha
  obtain ⟨-, s', c', rfl, hc'⟩ := hb
  exact ⟨⟨c, s ++ (m ++ (s' ++ [c'])), rfl, hc⟩, c :: s ++ (m ++ s'), c', by simp, hc'⟩

theorem DigitEnds.trim {t : Text} (ht : DigitEnds t) : Lib.trim t = t := by
  obtain ⟨⟨c, s, hhead, hc⟩, s', c', hlast, hc'⟩ := ht
  refine trim_of_ends ?_ ?_
  · intro a ha
    obtain rfl : c = a := by simpa [hhead] using ha
    exact isWhitespace_of_isDigitChar hc
  · intro a ha
    obtain rfl : c' = a := by simpa [hlast] using ha
    exact isWhitespace_of_isDigitChar hc'

theorem digitEnds_isoText (d : Date) : DigitEnds (isoText d) := by
  have h := (digitEnds_padded 4 (yearOfEra d.year)).append (digitEnds_padded 2 d.day)
    ('-' :: (padded 2 d.month ++ ['-']))
  simpa [isoText, isoDate] using h

/-- Neither end of such a text is trimmed, and it is neither of the infinities. -/
theorem trimmed_eraMark {t : Text} (ht : DigitEnds t) (y : ℤ) (column expected : String) :
    trimmed (utf8 (String.ofList (t ++ eraMark y))) column expected = .ok (t ++ eraMark y)
      ∧ ¬(t ++ eraMark y = "infinity".toList ∨ t ++ eraMark y = "-infinity".toList) := by
  obtain ⟨⟨c, s, hhead, hc⟩, s', c', hlast, hc'⟩ := ht
  constructor
  · rw [trimmed, fromUtf8_utf8]
    simp only [String.toList_ofList]
    rw [trim_of_ends]
    · intro a ha
      obtain rfl : c = a := by simpa [hhead] using ha
      exact isWhitespace_of_isDigitChar hc
    · intro a ha
      unfold eraMark at ha
      split at ha
      · obtain rfl : c' = a := by simpa [hlast] using ha
        exact isWhitespace_of_isDigitChar hc'
      · obtain rfl : 'C' = a := by simpa using ha
        rfl
  · rw [hhead]
    rintro (h | h)
    · obtain rfl : c = 'i' := (List.cons.inj h).1
      cases hc
    · obtain rfl : c = '-' := (List.cons.inj h).1
      cases hc

/-- The era comes off again. -/
theorem splitEra_eraMark {t : Text} (ht : DigitEnds t) (y : ℤ) :
    splitEra (t ++ eraMark y) = (t, decide (y ≤ 0)) := by
  obtain ⟨-, s, c, rfl, hc⟩ := ht
  unfold eraMark
  split
  next hy =>
    have hsuffix : " BC".toList.isSuffixOf (s ++ [c] ++ []) = false := by
      rw [Bool.eq_false_iff, Ne, List.isSuffixOf_iff_suffix]
      rintro ⟨r, hr⟩
      have hlast : some 'C' = some c := by
        simpa using congrArg List.getLast? hr
      obtain rfl := Option.some.inj hlast
      cases hc
    rw [splitEra, hsuffix, List.append_nil, decide_eq_false (by omega)]
    rfl
  next hy =>
    have hsuffix : " BC".toList.isSuffixOf (s ++ [c] ++ " BC".toList) = true := by
      rw [List.isSuffixOf_iff_suffix]
      exact List.suffix_append _ _
    have htake : (s ++ [c] ++ " BC".toList).take ((s ++ [c] ++ " BC".toList).length - 3)
        = s ++ [c] := by
      rw [List.length_append]
      exact List.take_left
    rw [splitEra, hsuffix, if_pos rfl, htake, decide_eq_true (by omega), trimEnd,
      List.rdropWhile_concat_neg _ _ _ (by simp [isWhitespace_of_isDigitChar hc])]

theorem yearOfEra_pos (y : ℤ) : 1 ≤ yearOfEra y := by
  unfold yearOfEra
  split_ifs <;> omega

theorem year_ofInt (y : ℤ) :
    (if decide (y ≤ 0) = true then 1 - Int64.ofInt (yearOfEra y) else .ofInt (yearOfEra y))
      = .ofInt y := by
  unfold yearOfEra
  by_cases hy : 0 < y
  · rw [if_pos hy, if_neg (by simpa using hy), Int.toNat_of_nonneg hy.le]
  · have hone : (1 : Int64) = .ofInt 1 := rfl
    rw [if_neg hy, if_pos (by simpa using hy), Int.toNat_of_nonneg (by omega), hone,
      ← Int64.ofInt_sub]
    congr 1
    omega

/-- Dates as far from the epoch as day numbers of a few billion are of years
that 64 bits hold. -/
theorem year_bounds {d : Date} (hlo : -2 ^ 32 ≤ d.dayNumber) (hhi : d.dayNumber < 2 ^ 32) :
    -2 ^ 40 < d.year ∧ d.year < 2 ^ 40 := by
  have h := d.dayNumber_bounds
  unfold daysBeforeYear leapYearsBefore at h
  omega

theorem daysFromCivil_date {d : Date} (hlo : -2 ^ 32 ≤ d.dayNumber) (hhi : d.dayNumber < 2 ^ 32) :
    (daysFromCivil (.ofInt d.year) (.ofInt d.month) (.ofInt d.day)).toInt = d.dayNumber := by
  have hyear := year_bounds hlo hhi
  have hm := d.month_pos
  have hm' := d.month_le
  rw [daysFromCivil_ofInt (by omega) (by omega) (by omega) (by omega), civilDays_date,
    Int64.toInt_ofInt_of_le (by omega) (by omega)]

theorem civilParts_isoText {d : Date} (hlo : -2 ^ 32 ≤ d.dayNumber) (hhi : d.dayNumber < 2 ^ 32) :
    civilParts (isoText d)
      = some (.ofInt (yearOfEra d.year), .ofInt d.month, .ofInt d.day) := by
  have hyear := year_bounds hlo hhi
  have hday := d.day_le.trans (daysInMonth_le _ _)
  refine civilParts_isoDate ?_ d.month_pos d.month_le d.day_pos hday
  unfold yearOfEra
  split_ifs <;> omega

/-- A date whose day number fits 32 bits is read back. -/
theorem parseDate_dateText {d : Date} (hlo : -2 ^ 31 ≤ d.dayNumber) (hhi : d.dayNumber < 2 ^ 31)
    (column : String) :
    parseDate (utf8 (String.ofList (dateText d))) column = .ok (some d.dayNumber) := by
  have hends := digitEnds_isoText d
  obtain ⟨htrim, hfinite⟩ := trimmed_eraMark hends d.year column "date"
  have hdays := daysFromCivil_date (d := d) (by omega) (by omega)
  have hold : ¬(daysFromCivil (.ofInt d.year) (.ofInt d.month) (.ofInt d.day) < minSupportedDay
      ∧ decide (d.year ≤ 0) = false) := by
    rintro ⟨hold, hyear⟩
    have hpos : ¬d.year ≤ 0 := of_decide_eq_false hyear
    have hmono := daysBeforeYear_mono (show 1 ≤ d.year by omega)
    have hfirst : daysBeforeYear 1 = -719162 := by decide
    have hmin : minSupportedDay.toInt = -2440588 := by decide
    have hbounds := d.dayNumber_bounds
    rw [Int64.lt_iff_toInt_lt, hdays] at hold
    omega
  rw [parseDate, dateText, htrim]
  simp only [if_neg hfinite, splitEra_eraMark hends, civilParts_isoText (d := d) (by omega)
    (by omega),
    year_ofInt, hdays]
  rw [if_neg hold, if_pos (by omega)]

/-! ### Times of day -/

/-- A time of day with as many digits of its second as are written. -/
structure Clock where
  hour : ℕ
  minute : ℕ
  second : ℕ
  fraction : Text
  hour_lt : hour < 24
  minute_lt : minute < 60
  second_lt : second < 60
  fraction_digits : fraction.all isDigitChar
  fraction_length : fraction.length ≤ 6

def fractionText (fraction : Text) : Text := if fraction = [] then [] else '.' :: fraction

def Clock.text (c : Clock) : Text :=
  padded 2 c.hour ++ ':' :: (padded 2 c.minute ++ ':' :: (padded 2 c.second ++
    fractionText c.fraction))

/-- Microseconds since midnight. -/
def Clock.micros (c : Clock) : ℕ :=
  (c.hour * 3600 + c.minute * 60 + c.second) * 1000000
    + digitsValue c.fraction * 10 ^ (6 - c.fraction.length)

theorem fraction_lt {fraction : Text} (hdigits : fraction.all isDigitChar)
    (hlength : fraction.length ≤ 6) :
    digitsValue fraction * 10 ^ (6 - fraction.length) < 1000000 := by
  have hvalue := digitsValue_lt hdigits
  calc digitsValue fraction * 10 ^ (6 - fraction.length)
      < 10 ^ fraction.length * 10 ^ (6 - fraction.length) :=
        Nat.mul_lt_mul_of_pos_right hvalue (by positivity)
    _ = 1000000 := by
        rw [← pow_add, Nat.add_sub_cancel' hlength]
        rfl

theorem Clock.micros_lt (c : Clock) : c.micros < 86400000000 := by
  have hfraction := fraction_lt c.fraction_digits c.fraction_length
  have hhour := c.hour_lt
  have hminute := c.minute_lt
  have hsecond := c.second_lt
  unfold Clock.micros
  omega

theorem splitOnce_fractionText {hms : Text} (hpoint : '.' ∉ hms) (fraction : Text) :
    (splitOnce '.' (hms ++ fractionText fraction)).getD (hms ++ fractionText fraction, [])
      = (hms, fraction) := by
  unfold fractionText
  split_ifs with h
  · rw [List.append_nil, splitOnce_eq_none hpoint, h]
    rfl
  · rw [splitOnce_append hpoint]
    rfl

theorem fractionMicros_eq {fraction : Text} (hdigits : fraction.all isDigitChar)
    (hlength : fraction.length ≤ 6) :
    fractionMicros fraction
      = some (.ofNat (digitsValue fraction * 10 ^ (6 - fraction.length))) := by
  have hlen := textLen_of_digits hdigits
  unfold fractionMicros
  split_ifs with hempty hbad
  · rw [List.isEmpty_iff.1 hempty]
    rfl
  · rw [hlen, hdigits] at hbad
    simp at hbad
    omega
  · rfl

/-- The fields of a time are read as they are, those of the end of the day and
of a leap second among them. -/
theorem timeMicros_fields {h m s : ℕ} {fraction : Text} (hh : h ≤ 24) (hm : m < 60) (hs : s ≤ 60)
    (hdigits : fraction.all isDigitChar) (hlength : fraction.length ≤ 6) :
    timeMicros (padded 2 h ++ ':' :: (padded 2 m ++ ':' :: (padded 2 s ++ fractionText fraction)))
      = some (.ofInt ((h * 3600 + m * 60 + s) * 1000000
        + digitsValue fraction * 10 ^ (6 - fraction.length) : ℕ)) := by
  have hcolon : ∀ w n : ℕ, ':' ∉ padded w n := fun w n => not_mem_of_digits (padded_all w n) rfl
  have hpoint : '.' ∉ padded 2 h ++ ':' :: (padded 2 m ++ ':' :: padded 2 s) := by
    have : ∀ w n : ℕ, '.' ∉ padded w n := fun w n => not_mem_of_digits (padded_all w n) rfl
    simp [this]
  have hfraction := splitOnce_fractionText hpoint fraction
  have hpieces : splitn ':' 3 (padded 2 h ++ ':' :: (padded 2 m ++ ':' :: padded 2 s))
      = [padded 2 h, padded 2 m, padded 2 s] := by
    simp only [splitn, splitOnce_append (hcolon _ _)]
  have hbounds : (0 : Int64) ≤ .ofInt h ∧ Int64.ofInt h ≤ 24
      ∧ (0 : Int64) ≤ .ofInt m ∧ Int64.ofInt m < 60
      ∧ (0 : Int64) ≤ .ofInt s ∧ Int64.ofInt s ≤ 60 := by
    refine ⟨(field_le (a := 0) (by omega) (by omega)).2 (by omega),
      (field_le (b := 24) (by omega) (by omega)).2 hh,
      (field_le (a := 0) (by omega) (by omega)).2 (by omega), ?_,
      (field_le (a := 0) (by omega) (by omega)).2 (by omega),
      (field_le (b := 60) (by omega) (by omega)).2 hs⟩
    rw [← Int64.not_le]
    exact fun h => absurd ((field_le (a := 60) (by omega) (by omega)).1 h) (by omega)
  have htext : padded 2 h ++ ':' :: (padded 2 m ++ ':' :: (padded 2 s ++ fractionText fraction))
      = padded 2 h ++ ':' :: (padded 2 m ++ ':' :: padded 2 s) ++ fractionText fraction := by
    simp
  rw [timeMicros, htext, hfraction]
  simp only [hpieces, List.head?_cons, Option.getD_some,
    parseInt64_padded (show h < 2 ^ 63 by omega), parseInt64_padded (show m < 2 ^ 63 by omega),
    parseInt64_padded (show s < 2 ^ 63 by omega)]
  rw [if_pos hbounds, fractionMicros_eq hdigits hlength, Option.map_some]
  push_cast
  rw [Int64.ofInt_add, Int64.ofInt_mul, Int64.ofInt_add, Int64.ofInt_add, Int64.ofInt_mul,
    Int64.ofInt_mul]
  rfl

theorem timeMicros_text (c : Clock) : timeMicros c.text = some (.ofInt c.micros) :=
  timeMicros_fields c.hour_lt.le c.minute_lt c.second_lt.le c.fraction_digits c.fraction_length

/-! ### Timestamps -/

/-- A UTC offset, whose minutes and seconds need not be written. -/
structure Offset where
  negative : Bool
  hour : ℕ
  minutes : Option (ℕ × Option ℕ)
  hour_lt : hour < 16
  minutes_lt : ∀ m s, minutes = some (m, s) → m < 60 ∧ ∀ n, s = some n → n < 60

namespace Offset

def minute (o : Offset) : ℕ := (o.minutes.map Prod.fst).getD 0

def second (o : Offset) : ℕ := (o.minutes.bind Prod.snd).getD 0

/-- Seconds east of Greenwich. -/
def seconds (o : Offset) : ℤ :=
  (if o.negative then -1 else 1) * (o.hour * 3600 + o.minute * 60 + o.second)

def sign (o : Offset) : Char := if o.negative then '-' else '+'

/-- What follows the sign. -/
def digits (o : Offset) : Text :=
  padded 2 o.hour ++
    match o.minutes with
    | none => []
    | some (m, none) => ':' :: padded 2 m
    | some (m, some s) => ':' :: (padded 2 m ++ ':' :: padded 2 s)

def text (o : Offset) : Text := o.sign :: o.digits

theorem minute_lt (o : Offset) : o.minute < 60 := by
  unfold minute
  cases h : o.minutes with
  | none => decide
  | some p => exact (o.minutes_lt p.1 p.2 h).1

theorem second_lt (o : Offset) : o.second < 60 := by
  unfold second
  cases h : o.minutes with
  | none => decide
  | some p =>
    obtain ⟨m, s⟩ := p
    cases s with
    | none => simp
    | some n => exact (o.minutes_lt m (some n) h).2 n rfl

theorem seconds_bounds (o : Offset) : -57600 < o.seconds ∧ o.seconds < 57600 := by
  have hhour := o.hour_lt
  have hminute := o.minute_lt
  have hsecond := o.second_lt
  unfold seconds
  split_ifs <;> omega

theorem mem_digits {o : Offset} {c : Char} (h : c ∈ o.digits) :
    isDigitChar c = true ∨ c = ':' := by
  have hpadded : ∀ {w n : ℕ}, c ∈ padded w n → isDigitChar c = true := fun h =>
    List.all_eq_true.1 (padded_all _ _) c h
  rw [digits, List.mem_append] at h
  obtain h | h := h
  · exact .inl (hpadded h)
  · split at h
    · cases h
    · obtain rfl | h := List.mem_cons.1 h
      · exact .inr rfl
      · exact .inl (hpadded h)
    · simp only [List.mem_cons, List.mem_append] at h
      obtain rfl | h | rfl | h := h
      · exact .inr rfl
      · exact .inl (hpadded h)
      · exact .inr rfl
      · exact .inl (hpadded h)

theorem digitEnds_digits (o : Offset) : DigitEnds o.digits := by
  have hhour := digitEnds_padded 2 o.hour
  unfold digits
  split
  · simpa using hhour
  next m _ => exact hhour.append (digitEnds_padded 2 m) [':']
  next m s _ =>
    have h := hhour.append (digitEnds_padded 2 s) (':' :: (padded 2 m ++ [':']))
    simpa using h

theorem splitAll_digits (o : Offset) : ∃ rest, splitAll ':' o.digits = padded 2 o.hour :: rest
    ∧ (rest.head?.bind parseInt64).getD 0 = .ofInt o.minute
    ∧ (rest.tail.head?.bind parseInt64).getD 0 = .ofInt o.second := by
  have hcolon : ∀ n : ℕ, ':' ∉ padded 2 n := fun n => not_mem_of_digits (padded_all 2 n) rfl
  have hminutes := o.minutes_lt
  unfold digits minute second
  cases h : o.minutes with
  | none =>
    refine ⟨[], ?_, rfl, rfl⟩
    simp [splitAll_of_not_mem (hcolon _)]
  | some p =>
    obtain ⟨m, s⟩ := p
    obtain ⟨hm, hs⟩ := hminutes m s h
    cases s with
    | none =>
      refine ⟨[padded 2 m], ?_, ?_, rfl⟩
      · simp [splitAll_append (hcolon _), splitAll_of_not_mem (hcolon _)]
      · simp [parseInt64_padded (show m < 2 ^ 63 by omega)]
    | some n =>
      have hn := hs n rfl
      refine ⟨[padded 2 m, padded 2 n], ?_, ?_, ?_⟩
      · simp [splitAll_append (hcolon _), splitAll_of_not_mem (hcolon _)]
      · simp [parseInt64_padded (show m < 2 ^ 63 by omega)]
      · simp [parseInt64_padded (show n < 2 ^ 63 by omega)]

end Offset

theorem rsplitOnce_text (clock : Text) (o : Offset) :
    rsplitOnce (fun c => c == '+' || c == '-') (clock ++ o.text)
      = some (clock, o.sign, o.digits) := by
  have hsign : ((o.sign == '+') || (o.sign == '-')) = true := by
    unfold Offset.sign
    cases o.negative <;> rfl
  have hdigits : ∀ c ∈ o.digits, ((c == '+') || (c == '-')) = false := by
    intro c hc
    obtain hc | rfl := Offset.mem_digits hc
    · by_contra h
      rw [Bool.not_eq_false, Bool.or_eq_true, beq_iff_eq, beq_iff_eq] at h
      obtain rfl | rfl := h <;> cases hc
    · rfl
  exact rsplitOnce_append hsign hdigits clock

theorem Offset.micros_ofInt (o : Offset) :
    (if o.sign = '-' then (-1 : Int64) else 1) * (.ofInt o.hour * 3600 + .ofInt o.minute * 60
      + .ofInt o.second) * microsPerSec = .ofInt (o.seconds * 1000000) := by
  unfold Offset.seconds Offset.sign
  cases o.negative <;>
    · rw [Int64.ofInt_mul, Int64.ofInt_mul, Int64.ofInt_add, Int64.ofInt_add, Int64.ofInt_mul,
        Int64.ofInt_mul]
      rfl

/-- The hours, minutes and seconds that are read behind the last sign, with the
sign and what stands before it. -/
def offsetFields (s : Text) : Option (Text × Char × ℤ × ℤ × ℤ) :=
  let (before, tail) :=
    match splitOnce ' ' s with
    | some (a, b) => (a ++ [' '], b)
    | none => ([], s)
  match rsplitOnce (fun c => c == '+' || c == '-') tail with
  | none => none
  | some (body, sign, off) =>
    match splitAll ':' off with
    | [] => none
    | h :: rest =>
      (parseInt64 h).map fun h =>
        (before ++ body, sign, h.toInt, ((rest.head?.bind parseInt64).getD 0).toInt,
          ((rest.tail.head?.bind parseInt64).getD 0).toInt)

theorem splitOffset_eq (s : Text) :
    splitOffset s = ((offsetFields s).map fun (body, sign, h, m, sec) =>
      (body, some ((if sign = '-' then -1 else 1)
        * (.ofInt h * 3600 + .ofInt m * 60 + .ofInt sec) * microsPerSec))).getD (s, none) := by
  unfold splitOffset offsetFields
  dsimp only
  cases rsplitOnce (fun c => c == '+' || c == '-') (match splitOnce ' ' s with
    | some (a, b) => (a ++ [' '], b)
    | none => ([], s)).2 with
  | none => rfl
  | some r =>
    obtain ⟨body, sign, off⟩ := r
    dsimp only
    cases splitAll ':' off with
    | nil => rfl
    | cons h rest =>
      dsimp only
      cases parseInt64 h with
      | none => rfl
      | some h =>
        dsimp only [Option.map_some, Option.getD_some]
        rewrite [Int64.ofInt_toInt, Int64.ofInt_toInt, Int64.ofInt_toInt]
        exact rfl

/-- A timestamp is searched behind its first space, where its date is over. -/
theorem splitOffset_text {date clock : Text} (hdate : ' ' ∉ date) (o : Offset) :
    splitOffset (date ++ ' ' :: (clock ++ o.text))
      = (date ++ ' ' :: clock, some (.ofInt (o.seconds * 1000000))) := by
  obtain ⟨rest, hpieces, hminute, hsecond⟩ := o.splitAll_digits
  have hhour := o.hour_lt
  unfold splitOffset
  rw [splitOnce_append hdate]
  simp only [rsplitOnce_text, hpieces, parseInt64_padded (show o.hour < 2 ^ 63 by omega), hminute,
    hsecond]
  rw [o.micros_ofInt, List.append_assoc]
  rfl

theorem Offset.space_not_mem (o : Offset) : ' ' ∉ o.text := by
  rw [Offset.text, List.mem_cons, not_or]
  refine ⟨?_, fun h => ?_⟩
  · unfold Offset.sign
    cases o.negative <;> decide
  · obtain h | h := Offset.mem_digits h <;> cases h

/-- A time of day has no space and is searched from its start. -/
theorem splitOffset_time {clock : Text} (hclock : ' ' ∉ clock) (o : Offset) :
    splitOffset (clock ++ o.text) = (clock, some (.ofInt (o.seconds * 1000000))) := by
  obtain ⟨rest, hpieces, hminute, hsecond⟩ := o.splitAll_digits
  have hhour := o.hour_lt
  have hspace : ' ' ∉ clock ++ o.text := by simp [hclock, o.space_not_mem]
  unfold splitOffset
  rw [splitOnce_eq_none hspace]
  simp only [rsplitOnce_text, hpieces, parseInt64_padded (show o.hour < 2 ^ 63 by omega), hminute,
    hsecond]
  rw [o.micros_ofInt]
  rfl

/-- Without a sign there is no offset. -/
theorem splitOffset_of_unsigned {s : Text} (hspace : ' ' ∉ s)
    (h : ∀ c ∈ s, (c == '+' || c == '-') = false) : splitOffset s = (s, none) := by
  unfold splitOffset
  rw [splitOnce_eq_none hspace]
  simp only [rsplitOnce_eq_none h]

/-- A timestamp, whose offset is written when its type has a time zone. -/
structure Timestamp where
  date : Date
  clock : Clock
  offset : Option Offset

namespace Timestamp

/-- Seconds east of Greenwich of the date and time that are written. -/
def seconds (t : Timestamp) : ℤ := (t.offset.map Offset.seconds).getD 0

/-- The date and time that are written, as microseconds since the epoch. -/
def localMicros (t : Timestamp) : ℤ := t.date.dayNumber * 86400000000 + t.clock.micros

/-- The instant, as microseconds since the epoch in UTC. -/
def instant (t : Timestamp) : ℤ := t.localMicros - t.seconds * 1000000

theorem seconds_bounds (t : Timestamp) : -57600 < t.seconds ∧ t.seconds < 57600 := by
  unfold seconds
  cases t.offset with
  | none => decide
  | some o => exact o.seconds_bounds

def offsetText (t : Timestamp) : Text := (t.offset.map Offset.text).getD []

def text (t : Timestamp) : Text :=
  isoText t.date ++ ' ' :: (t.clock.text ++ t.offsetText) ++ eraMark t.date.year

end Timestamp

theorem digitEnds_clock (c : Clock) : DigitEnds c.text := by
  have hhour := digitEnds_padded 2 c.hour
  have hwhole := hhour.append (digitEnds_padded 2 c.second) (':' :: (padded 2 c.minute ++ [':']))
  unfold Clock.text fractionText
  split_ifs with h
  · simpa using hwhole
  · have hlast : DigitEnds c.fraction := by
      have hdigit := List.all_eq_true.1 c.fraction_digits
      obtain ⟨a, s, hs⟩ := List.exists_cons_of_ne_nil h
      exact ⟨⟨a, s, hs, hdigit a (by simp [hs])⟩, _, _, (List.dropLast_append_getLast h).symm,
        hdigit _ (List.getLast_mem _)⟩
    have hall := hwhole.append hlast ['.']
    simpa using hall

theorem space_not_mem_isoText (d : Date) : ' ' ∉ isoText d := by
  intro h
  obtain h | h := mem_isoDate h <;> cases h

theorem mem_fractionText {fraction : Text} (h : fraction.all isDigitChar) {c : Char}
    (hc : c ∈ fractionText fraction) : isDigitChar c = true ∨ c = '.' := by
  unfold fractionText at hc
  split at hc
  · cases hc
  · obtain rfl | hc := List.mem_cons.1 hc
    · exact .inr rfl
    · exact .inl (List.all_eq_true.1 h c hc)

/-- Times of day consist of digits, colons and a point. -/
theorem mem_time {h m s : ℕ} {fraction : Text} (hdigits : fraction.all isDigitChar) {c : Char}
    (hc : c ∈ padded 2 h ++ ':' :: (padded 2 m ++ ':' :: (padded 2 s ++ fractionText fraction))) :
    isDigitChar c = true ∨ c = ':' ∨ c = '.' := by
  have hpadded : ∀ {w n : ℕ}, c ∈ padded w n → isDigitChar c = true := fun h =>
    List.all_eq_true.1 (padded_all _ _) c h
  simp only [List.mem_append, List.mem_cons] at hc
  obtain hc | rfl | hc | rfl | hc | hc := hc
  · exact .inl (hpadded hc)
  · exact .inr (.inl rfl)
  · exact .inl (hpadded hc)
  · exact .inr (.inl rfl)
  · exact .inl (hpadded hc)
  · obtain hc | rfl := mem_fractionText hdigits hc
    · exact .inl hc
    · exact .inr (.inr rfl)

theorem space_not_mem_clock (c : Clock) : ' ' ∉ c.text := by
  intro h
  obtain h | h | h := mem_time c.fraction_digits h <;> cases h

/-- What `parse_timestamp` computes from the parts of a timestamp. -/
theorem parseTimestamp_parts {v : Bytes} {tz bc : Bool} {column : String}
    {s core body date time : Text} {offset : Option Int64} {y m d micros : Int64}
    (htrim : trimmed v column "timestamp" = .ok s)
    (hfinite : ¬(s = "infinity".toList ∨ s = "-infinity".toList))
    (hera : splitEra s = (core, bc))
    (hbody : (if tz = true then splitOffset core else (core, none)) = (body, offset))
    (hsplit : splitOnce ' ' body = some (date, time)) (hdate : civilParts date = some (y, m, d))
    (htime : timeMicros (trim time) = some micros) :
    parseTimestamp v tz column =
      match ((checkedI64 ((daysFromCivil (if bc then 1 - y else y) m d).toInt
          * microsPerDay.toInt)).bind fun n => checkedI64 (n + micros.toInt)).bind fun n =>
            checkedI64 (n - (offset.getD 0).toInt) with
      | some n => .ok (some n)
      | none => .error (bad column "timestamp") := by
  rw [parseTimestamp, htrim]
  -- Whatever these functions are, since evaluating them takes long.
  generalize checkedI64 = check, daysFromCivil = days, microsPerDay = day
  revert check days day
  refine id ?_
  intro check days day
  refine (if_neg hfinite).trans ?_
  rewrite [hera]
  dsimp only
  rewrite [hbody]
  dsimp only
  rewrite [hsplit]
  dsimp only [Option.getD_some]
  rewrite [hdate]
  dsimp only
  rewrite [htime]
  exact rfl

/-- A timestamp is read as its instant, as far as the steps of the arithmetic
fit 64 bits one after another. -/
theorem parseTimestamp_text {t : Timestamp} (hlo : -2 ^ 32 ≤ t.date.dayNumber)
    (hhi : t.date.dayNumber < 2 ^ 32) (column : String) :
    parseTimestamp (utf8 (String.ofList t.text)) t.offset.isSome column =
      match ((checkedI64 (t.date.dayNumber * 86400000000)).bind fun n =>
          checkedI64 (n + t.clock.micros)).bind fun n =>
            checkedI64 (n - t.seconds * 1000000) with
      | some n => .ok (some n)
      | none => .error (bad column "timestamp") := by
  have hclock := digitEnds_clock t.clock
  have hends : DigitEnds (isoText t.date ++ ' ' :: (t.clock.text ++ t.offsetText)) := by
    unfold Timestamp.offsetText
    cases h : t.offset with
    | none =>
      have h := (digitEnds_isoText t.date).append hclock [' ']
      simpa using h
    | some o =>
      have h := (digitEnds_isoText t.date).append o.digitEnds_digits
        (' ' :: (t.clock.text ++ [o.sign]))
      simpa [Offset.text] using h
  have hbody : (if t.offset.isSome = true then
        splitOffset (isoText t.date ++ ' ' :: (t.clock.text ++ t.offsetText))
      else (isoText t.date ++ ' ' :: (t.clock.text ++ t.offsetText), none))
      = (isoText t.date ++ ' ' :: t.clock.text,
        t.offset.map fun o => Int64.ofInt (o.seconds * 1000000)) := by
    unfold Timestamp.offsetText
    cases h : t.offset with
    | none => simp
    | some o => exact splitOffset_text (space_not_mem_isoText t.date) o
  have hoffset : ((t.offset.map fun o => Int64.ofInt (o.seconds * 1000000)).getD 0).toInt
      = t.seconds * 1000000 := by
    unfold Timestamp.seconds
    cases h : t.offset with
    | none => rfl
    | some o =>
      have := o.seconds_bounds
      exact Int64.toInt_ofInt_of_le (by omega) (by omega)
  have hmicros : (Int64.ofInt t.clock.micros).toInt = t.clock.micros := by
    have := t.clock.micros_lt
    exact Int64.toInt_ofInt_of_le (by omega) (by omega)
  obtain ⟨htrim, hfinite⟩ := trimmed_eraMark hends t.date.year column "timestamp"
  have hday : microsPerDay.toInt = 86400000000 := by decide +kernel
  rw [Timestamp.text, parseTimestamp_parts htrim hfinite (splitEra_eraMark hends _) hbody
    (splitOnce_append (space_not_mem_isoText t.date) _) (civilParts_isoText hlo hhi)
    (by rw [hclock.trim, timeMicros_text]), year_ofInt, daysFromCivil_date hlo hhi, hoffset,
    hmicros,
    hday]

theorem checkedI64_of_fits {n : ℤ} (h : -2 ^ 63 ≤ n) (h' : n < 2 ^ 63) :
    checkedI64 n = some n := if_pos ⟨h, h'⟩

theorem checkedI64_of_large {n : ℤ} (h : 2 ^ 63 ≤ n) : checkedI64 n = none :=
  if_neg fun h' => absurd h'.2 (not_lt.2 h)

/-- The instant is computed by way of the local time. For dates that are not
too old it is only their upper bound that the checks find. -/
theorem parseTimestamp_instant {t : Timestamp} (hold : -100000000 ≤ t.date.dayNumber)
    (hlate : t.date.dayNumber < 2 ^ 32) (column : String) :
    parseTimestamp (utf8 (String.ofList t.text)) t.offset.isSome column =
      if t.localMicros < 2 ^ 63 ∧ t.instant < 2 ^ 63 then .ok (some t.instant)
      else .error (bad column "timestamp") := by
  have hclock := t.clock.micros_lt
  have hzone := t.seconds_bounds
  have hparse := parseTimestamp_text (t := t) (by omega) hlate column
  rw [hparse]
  unfold Timestamp.instant Timestamp.localMicros
  generalize t.date.dayNumber = days at hold hlate ⊢
  generalize t.clock.micros = micros at hclock ⊢
  generalize t.seconds = seconds at hzone ⊢
  by_cases hday : days * 86400000000 < 2 ^ 63
  · rw [checkedI64_of_fits (by omega) hday, Option.bind_some]
    by_cases hlocal : days * 86400000000 + (micros : ℤ) < 2 ^ 63
    · rw [checkedI64_of_fits (by omega) hlocal, Option.bind_some]
      by_cases hinstant : days * 86400000000 + (micros : ℤ) - seconds * 1000000 < 2 ^ 63
      · rw [checkedI64_of_fits (by omega) hinstant, if_pos ⟨hlocal, hinstant⟩]
      · rw [checkedI64_of_large (by omega), if_neg fun h => hinstant h.2]
    · rw [checkedI64_of_large (by omega), if_neg fun h => hlocal h.1]
      rfl
  · rw [checkedI64_of_large (by omega), if_neg (by omega)]
    rfl

end PgDelta.Values
