import Mathlib.Data.Int.Order.Basic
import Mathlib.Tactic.IntervalCases

/-!
The proleptic Gregorian calendar, by its leap rule and the lengths of its
months. Years are counted through zero, so that the year before year 1 is
year 0.
-/

namespace PgDelta.Lib

def isLeapYear (y : ℤ) : Bool := y % 4 == 0 && (y % 100 != 0 || y % 400 == 0)

def daysInMonth (y : ℤ) (m : ℕ) : ℕ :=
  if m = 2 then if isLeapYear y then 29 else 28
  else if m = 4 ∨ m = 6 ∨ m = 9 ∨ m = 11 then 30
  else 31

/-- A day that exists. -/
structure Date where
  year : ℤ
  month : ℕ
  day : ℕ
  month_pos : 1 ≤ month
  month_le : month ≤ 12
  day_pos : 1 ≤ day
  day_le : day ≤ daysInMonth year month
  deriving DecidableEq, Repr

theorem isLeapYear_iff (y : ℤ) :
    isLeapYear y = true ↔ y % 4 = 0 ∧ (y % 100 ≠ 0 ∨ y % 400 = 0) := by
  simp [isLeapYear]

theorem daysInMonth_le (y : ℤ) (m : ℕ) : daysInMonth y m ≤ 31 := by
  unfold daysInMonth
  split_ifs <;> omega

theorem daysInMonth_pos (y : ℤ) (m : ℕ) : 1 ≤ daysInMonth y m := by
  unfold daysInMonth
  split_ifs <;> omega

/-! ### Counting days -/

/-- How many leap years lie between year 1 and the start of a year. -/
def leapYearsBefore (y : ℤ) : ℤ := (y - 1) / 4 - (y - 1) / 100 + (y - 1) / 400

def daysBeforeYear (y : ℤ) : ℤ :=
  365 * (y - 1970) + (leapYearsBefore y - leapYearsBefore 1970)

/-- Days from the first day of a year to the first day of a month of it. -/
def daysBeforeMonth (y : ℤ) : ℕ → ℕ
  | 0 => 0
  | 1 => 0
  | m + 2 => daysBeforeMonth y (m + 1) + daysInMonth y (m + 1)

/-- Days since 1970-01-01, negative before it. -/
def Date.dayNumber (d : Date) : ℤ :=
  daysBeforeYear d.year + daysBeforeMonth d.year d.month + (d.day - 1)

def daysInYear (y : ℤ) : ℕ := if isLeapYear y then 366 else 365

theorem daysBeforeYear_succ (y : ℤ) :
    daysBeforeYear (y + 1) = daysBeforeYear y + daysInYear y := by
  have hleap := isLeapYear_iff y
  unfold daysBeforeYear leapYearsBefore daysInYear
  split_ifs with h
  · rw [h] at hleap
    have := hleap.1 rfl
    omega
  · have : ¬(y % 4 = 0 ∧ (y % 100 ≠ 0 ∨ y % 400 = 0)) := fun hc => h (hleap.2 hc)
    omega

theorem daysBeforeMonth_last (y : ℤ) :
    daysBeforeMonth y 12 + daysInMonth y 12 = daysInYear y := by
  simp only [daysBeforeMonth, daysInMonth, daysInYear]
  cases isLeapYear y <;> rfl

theorem daysBeforeMonth_le (y : ℤ) {m : ℕ} (hm : m ≤ 12) :
    daysBeforeMonth y m + daysInMonth y m ≤ daysInYear y := by
  interval_cases m <;> simp only [daysBeforeMonth, daysInMonth, daysInYear] <;>
    cases isLeapYear y <;> decide

theorem Date.dayNumber_bounds (d : Date) :
    daysBeforeYear d.year ≤ d.dayNumber ∧ d.dayNumber < daysBeforeYear (d.year + 1) := by
  have hpos := d.day_pos
  have hle := d.day_le
  have hmonth := daysBeforeMonth_le d.year d.month_le
  rw [daysBeforeYear_succ, Date.dayNumber]
  omega

/-- The day after a day. -/
def Date.next (d : Date) : Date :=
  if h : d.day < daysInMonth d.year d.month then
    { d with day := d.day + 1, day_pos := by omega, day_le := h }
  else if h' : d.month < 12 then
    { year := d.year, month := d.month + 1, day := 1, month_pos := by omega, month_le := h'
      day_pos := Nat.le_refl 1, day_le := daysInMonth_pos _ _ }
  else
    { year := d.year + 1, month := 1, day := 1, month_pos := Nat.le_refl 1, month_le := by omega
      day_pos := Nat.le_refl 1, day_le := daysInMonth_pos _ _ }

/-- Day numbers count the days of the calendar one by one. -/
theorem Date.dayNumber_next (d : Date) : d.next.dayNumber = d.dayNumber + 1 := by
  have hmonth := d.month_pos
  have hday := d.day_le
  unfold Date.next
  split_ifs with h h'
  · simp only [Date.dayNumber]
    omega
  · obtain ⟨m, hm⟩ : ∃ m, d.month = m + 1 := ⟨d.month - 1, by omega⟩
    have hstep : daysBeforeMonth d.year (d.month + 1)
        = daysBeforeMonth d.year d.month + daysInMonth d.year d.month := by
      rw [hm]
      rfl
    simp only [Date.dayNumber, hstep]
    omega
  · have hle := d.month_le
    have hm : d.month = 12 := by omega
    have hyear := daysBeforeYear_succ d.year
    have hlast := daysBeforeMonth_last d.year
    have hfirst : daysBeforeMonth (d.year + 1) 1 = 0 := rfl
    rw [hm] at h hday
    simp only [Date.dayNumber, hm, hyear, hfirst]
    omega

/-! ### Days are counted apart -/

/-- Months follow each other. -/
theorem daysBeforeMonth_mono (y : ℤ) {m n : ℕ} (hm : 1 ≤ m) (h : m < n) :
    daysBeforeMonth y m + daysInMonth y m ≤ daysBeforeMonth y n := by
  induction n, h using Nat.le_induction with
  | base =>
    obtain ⟨k, rfl⟩ : ∃ k, m = k + 1 := ⟨m - 1, by omega⟩
    exact le_rfl
  | succ n hn ih =>
    obtain ⟨k, rfl⟩ : ∃ k, n = k + 1 := ⟨n - 1, by omega⟩
    exact ih.trans (Nat.le_add_right _ _)

theorem daysBeforeYear_mono {y z : ℤ} (h : y ≤ z) : daysBeforeYear y ≤ daysBeforeYear z := by
  unfold daysBeforeYear leapYearsBefore
  omega

theorem Date.ext_fields {d e : Date} (hyear : d.year = e.year) (hmonth : d.month = e.month)
    (hday : d.day = e.day) : d = e := by
  cases d
  cases e
  cases hyear
  cases hmonth
  cases hday
  rfl

/-- No two days have the same number. -/
theorem Date.dayNumber_injective {d e : Date} (h : d.dayNumber = e.dayNumber) : d = e := by
  have hd := d.dayNumber_bounds
  have he := e.dayNumber_bounds
  have hyear : d.year = e.year := by
    rcases lt_trichotomy d.year e.year with hlt | heq | hlt
    · have := daysBeforeYear_mono (show d.year + 1 ≤ e.year by omega)
      omega
    · exact heq
    · have := daysBeforeYear_mono (show e.year + 1 ≤ d.year by omega)
      omega
  have hmonth : d.month = e.month := by
    have hdday := d.day_le
    have heday := e.day_le
    have hdpos := d.day_pos
    have hepos := e.day_pos
    rw [Date.dayNumber, Date.dayNumber, hyear] at h
    rw [hyear] at hdday
    rcases lt_trichotomy d.month e.month with hlt | heq | hlt
    · have := daysBeforeMonth_mono e.year d.month_pos hlt
      omega
    · exact heq
    · have := daysBeforeMonth_mono e.year e.month_pos hlt
      omega
  refine Date.ext_fields hyear hmonth ?_
  rw [Date.dayNumber, Date.dayNumber, hyear, hmonth] at h
  omega

/-- 1970-01-01. -/
def epoch : Date :=
  ⟨1970, 1, 1, by decide, by decide, by decide, by decide⟩

theorem epoch_dayNumber : epoch.dayNumber = 0 := by decide

theorem Date.dayNumber_iterate (d : Date) (n : ℕ) :
    (Date.next^[n] d).dayNumber = d.dayNumber + n := by
  induction n with
  | zero => simp
  | succ n ih =>
    rw [Function.iterate_succ_apply', Date.dayNumber_next, ih]
    omega

theorem daysBeforeYear_le (n : ℤ) : daysBeforeYear (min n 0) ≤ n := by
  unfold daysBeforeYear leapYearsBefore
  omega

/-- Every number of days from the epoch is that of a date. -/
theorem Date.exists_dayNumber (n : ℤ) : ∃ d : Date, d.dayNumber = n := by
  let first : Date := ⟨min n 0, 1, 1, by decide, by decide, by decide, daysInMonth_pos _ _⟩
  have hfirst : first.dayNumber = daysBeforeYear (min n 0) := by
    simp [Date.dayNumber, first, daysBeforeMonth]
  have hle := daysBeforeYear_le n
  refine ⟨Date.next^[(n - first.dayNumber).toNat] first, ?_⟩
  rw [first.dayNumber_iterate, hfirst]
  omega

/-- The day `n` days after a day, or before it, found by counting. -/
def CountsDays (d : Date) (n : ℤ) (e : Date) : Prop :=
  (∃ k : ℕ, n = k ∧ Date.next^[k] d = e) ∨ ∃ k : ℕ, n = -k ∧ Date.next^[k] e = d

/-- The number of a day is its distance from the epoch, in either direction. -/
theorem Date.countsDays_dayNumber (d : Date) : CountsDays epoch d.dayNumber d := by
  have hepoch := epoch_dayNumber
  obtain h | h := le_total 0 d.dayNumber
  · refine .inl ⟨d.dayNumber.toNat, (Int.toNat_of_nonneg h).symm, ?_⟩
    refine Date.dayNumber_injective ?_
    rw [Date.dayNumber_iterate, hepoch]
    omega
  · refine .inr ⟨(-d.dayNumber).toNat, by omega, ?_⟩
    refine Date.dayNumber_injective ?_
    rw [Date.dayNumber_iterate, hepoch]
    omega

end PgDelta.Lib
