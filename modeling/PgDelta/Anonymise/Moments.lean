import PgDelta.Anonymise.Kinds

/-!
Dates and timestamps that are made up are read without fail.
-/

namespace PgDelta.Anonymise

open PgDelta.Lib PgDelta.Values

/-- The day that the noise picks. -/
def Noise.day (noise : Noise) : Date where
  year := (1970 + noise.pick 0 60 : ℕ)
  month := 1 + noise.pick 1 12
  day := 1 + noise.pick 2 28
  month_pos := by omega
  month_le := by
    have := noise.pick_lt 1 (show 0 < 12 by omega)
    omega
  day_pos := by omega
  day_le := by
    have hday := noise.pick_lt 2 (show 0 < 28 by omega)
    refine le_trans (show 1 + noise.pick 2 28 ≤ 28 by omega) ?_
    unfold daysInMonth
    split_ifs <;> omega

/-- The time of day that the noise picks. -/
def Noise.time (noise : Noise) : Clock where
  hour := noise.pick 6 24
  minute := noise.pick 7 60
  second := noise.pick 8 60
  fraction := []
  hour_lt := noise.pick_lt 6 (by omega)
  minute_lt := noise.pick_lt 7 (by omega)
  second_lt := noise.pick_lt 8 (by omega)
  fraction_digits := by simp
  fraction_length := by simp

theorem date_eq (noise : Noise) : date noise = isoText noise.day := by
  have hpos : (0 : ℤ) < (1970 + noise.pick 0 60 : ℕ) := by omega
  have hyear : yearOfEra noise.day.year = 1970 + noise.pick 0 60 := by
    rw [yearOfEra, Noise.day, if_pos hpos]
    rfl
  rw [isoText, hyear]
  rfl

theorem eraMark_day (noise : Noise) : eraMark noise.day.year = [] := by
  have hpos : (0 : ℤ) < (1970 + noise.pick 0 60 : ℕ) := by omega
  exact if_pos hpos

theorem clock_eq (noise : Noise) : clock noise = noise.time.text := by
  simp [clock, Clock.text, Noise.time, fractionText]

/-- The days that are picked are of sixty years. -/
theorem dayNumber_day (noise : Noise) :
    0 ≤ noise.day.dayNumber ∧ noise.day.dayNumber < 30000 := by
  obtain ⟨hlow, hhigh⟩ := noise.day.dayNumber_bounds
  have hpick := noise.pick_lt 0 (show 0 < 60 by omega)
  have hyear : noise.day.year = 1970 + (noise.pick 0 60 : ℤ) := by
    simp [Noise.day]
  rw [hyear] at hlow hhigh
  unfold daysBeforeYear leapYearsBefore at hlow hhigh
  omega

theorem civilParts_date (noise : Noise) :
    civilParts (date noise) = some (.ofInt (yearOfEra noise.day.year), .ofInt noise.day.month,
      .ofInt noise.day.day) := by
  obtain ⟨hlow, hhigh⟩ := dayNumber_day noise
  rw [date_eq]
  exact civilParts_isoText (by omega) (by omega)

theorem space_not_mem_date (noise : Noise) : ' ' ∉ date noise := by
  rw [date_eq]
  exact space_not_mem_isoText noise.day

theorem encoded_eq {s : Text} (h : ∀ c ∈ s, PlainChar c) : encoded s = utf8 (String.ofList s) := by
  rw [utf8, String.toList_ofList]
  induction s with
  | nil => rfl
  | cons c s ih =>
      have hc := (h c List.mem_cons_self).printable.1
      have hs := ih fun d hd => h d (List.mem_cons_of_mem _ hd)
      rw [List.flatMap_cons, utf8EncodeChar_of_lt hc, ← hs]
      rfl

theorem parseDate_made (noise : Noise) (column : String) :
    ∃ r, parseDate (encoded (date noise)) column = .ok r := by
  obtain ⟨hlow, hhigh⟩ := dayNumber_day noise
  have hread := @parseDate_dateText noise.day (by omega) (by omega) column
  rw [dateText, eraMark_day, List.append_nil, ← date_eq, ← encoded_eq (plain_date noise)] at hread
  exact ⟨_, hread⟩

theorem plain_moment (noise : Noise) : ∀ c ∈ date noise ++ ' ' :: clock noise, PlainChar c := by
  intro c hc
  rcases List.mem_append.1 hc with hc | hc
  · exact plain_date noise c hc
  · rcases List.mem_cons.1 hc with rfl | hc
    · exact .inr (.inr (.inr rfl))
    · exact plain_clock noise c hc

/-- Microseconds of such a day fit 64 bits. -/
theorem checked_day (noise : Noise) {micros : ℤ} (hlow : 0 ≤ micros)
    (hhigh : micros < 86400000000) : ∃ n,
    ((checkedI64 (noise.day.dayNumber * microsPerDay.toInt)).bind fun t =>
      checkedI64 (t + micros)).bind (fun t => checkedI64 (t - (0 : Int64).toInt)) = some n := by
  obtain ⟨hday, hday'⟩ := dayNumber_day noise
  have hunit : microsPerDay.toInt = 86400000000 := by decide +kernel
  have hzero : (0 : Int64).toInt = 0 := rfl
  rw [hunit, hzero]
  generalize noise.day.dayNumber = days at hday hday' ⊢
  rw [checkedI64_of_fits (by omega) (by omega), Option.bind_some,
    checkedI64_of_fits (by omega) (by omega), Option.bind_some,
    checkedI64_of_fits (by omega) (by omega)]
  exact ⟨_, rfl⟩

theorem splitOffset_clock (noise : Noise) (tz : Bool) :
    (if tz = true then splitOffset (date noise ++ ' ' :: clock noise)
      else (date noise ++ ' ' :: clock noise, none))
        = (date noise ++ ' ' :: clock noise, none) := by
  have hsign : ∀ c ∈ clock noise, (c == '+' || c == '-') = false := by
    intro c hc
    rw [clock_eq] at hc
    rcases mem_time noise.time.fraction_digits hc with hc | rfl | rfl
    · rw [Bool.or_eq_false_iff, beq_eq_false_iff_ne, beq_eq_false_iff_ne]
      constructor <;>
      · rintro rfl
        cases hc
    · decide
    · decide
  cases tz with
  | false => rfl
  | true =>
      rw [if_pos rfl]
      unfold splitOffset
      rw [splitOnce_append (space_not_mem_date noise)]
      simp only [rsplitOnce_eq_none hsign]

/-- Whether the column has a time zone or not, a timestamp that is made up has
none. -/
theorem parseTimestamp_made (noise : Noise) (tz : Bool) (column : String) :
    ∃ r, parseTimestamp (encoded (date noise ++ ' ' :: clock noise)) tz column = .ok r := by
  obtain ⟨hday, hday'⟩ := dayNumber_day noise
  have hclock := digitEnds_clock noise.time
  have hends : DigitEnds (date noise ++ ' ' :: clock noise) := by
    rw [date_eq, clock_eq]
    exact (digitEnds_isoText noise.day).append hclock [' ']
  obtain ⟨htrim, hfinite⟩ := trimmed_eraMark hends noise.day.year column "timestamp"
  have hera := splitEra_eraMark hends noise.day.year
  rw [eraMark_day, List.append_nil] at htrim hfinite hera
  rw [← encoded_eq (plain_moment noise)] at htrim
  have htime : timeMicros (trim (clock noise)) = some (.ofInt noise.time.micros) := by
    rw [clock_eq, hclock.trim, timeMicros_text]
  have hmicros := noise.time.micros_lt
  have hmicros' : (Int64.ofInt noise.time.micros).toInt = noise.time.micros :=
    Int64.toInt_ofInt_of_le (by omega) (by omega)
  rw [parseTimestamp_parts htrim hfinite hera (splitOffset_clock noise tz)
    (splitOnce_append (space_not_mem_date noise) _) (civilParts_date noise) htime, year_ofInt,
    daysFromCivil_date (by omega) (by omega),
    hmicros']
  obtain ⟨n, hn⟩ := @checked_day noise noise.time.micros (by omega) (by omega)
  exact ⟨some n, by rw [Option.getD_none, hn]⟩

theorem parseTimestamp_alone {v : Bytes} {bc : Bool} {column : String} {s core : Text}
    {y m d micros : Int64} (htrim : trimmed v column "timestamp" = .ok s)
    (hfinite : ¬(s = "infinity".toList ∨ s = "-infinity".toList))
    (hera : splitEra s = (core, bc)) (hspace : splitOnce ' ' core = none)
    (hdate : civilParts core = some (y, m, d))
    (htime : timeMicros (trim "00:00:00".toList) = some micros) :
    parseTimestamp v false column =
      match ((checkedI64 ((daysFromCivil (if bc then 1 - y else y) m d).toInt
          * microsPerDay.toInt)).bind fun n => checkedI64 (n + micros.toInt)).bind fun n =>
            checkedI64 (n - (0 : Int64).toInt) with
      | some n => .ok (some n)
      | none => .error (bad column "timestamp") := by
  rw [parseTimestamp, htrim]
  -- Whatever these functions are, since evaluating them takes long.
  generalize checkedI64 = check, daysFromCivil = days, microsPerDay = day
  revert check days day
  refine id ?_
  intro check days day
  dsimp only
  rw [if_neg hfinite, hera, if_neg Bool.false_ne_true]
  dsimp only
  rw [hspace, Option.getD_none]
  dsimp only
  rw [hdate]
  dsimp only
  rw [htime]
  rfl

/-- A date alone is the start of its day, where no time zone is looked for. -/
theorem parseTimestamp_date (noise : Noise) (column : String) :
    ∃ r, parseTimestamp (encoded (date noise)) false column = .ok r := by
  obtain ⟨hday, hday'⟩ := dayNumber_day noise
  have hends : DigitEnds (date noise) := by
    rw [date_eq]
    exact digitEnds_isoText noise.day
  obtain ⟨htrim, hfinite⟩ := trimmed_eraMark hends noise.day.year column "timestamp"
  have hera := splitEra_eraMark hends noise.day.year
  rw [eraMark_day, List.append_nil] at htrim hfinite hera
  rw [← encoded_eq (plain_date noise)] at htrim
  have htime : timeMicros (trim "00:00:00".toList) = some (.ofInt 0) := by decide +kernel
  have hzero : (Int64.ofInt 0).toInt = 0 := rfl
  rw [parseTimestamp_alone htrim hfinite hera (splitOnce_eq_none (space_not_mem_date noise))
    (civilParts_date noise) htime, year_ofInt, daysFromCivil_date (by omega) (by omega)]
  obtain ⟨n, hn⟩ := @checked_day noise (Int64.ofInt 0).toInt hzero.ge (by rw [hzero]; decide)
  exact ⟨some n, by rw [hn]⟩

end PgDelta.Anonymise
