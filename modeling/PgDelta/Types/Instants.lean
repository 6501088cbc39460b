import PgDelta.Types.Dates

/-!
Dates, timestamps and times of day are read exactly: a date as its distance
from the epoch in days, a timestamp as its instant, and a time of day as its
distance from midnight, the end of the day apart.
-/

namespace PgDelta.Values

open PgDelta.Lib

/-- From 4713 BC to 5874897 AD, a date is the number of days between it and the
epoch, counted along the calendar. -/
theorem parseDate_exact {d : Date} (hold : -4712 ≤ d.year) (hlate : d.year ≤ 5874897)
    (column : String) :
    ∃ n, parseDate (utf8 (String.ofList (dateText d))) column = .ok (some n)
      ∧ CountsDays epoch n d := by
  have hbounds := d.dayNumber_bounds
  have hyear := daysBeforeYear_mono hold
  have hyear' := daysBeforeYear_mono (show d.year + 1 ≤ 5874898 by omega)
  have hfirst : daysBeforeYear (-4712) = -2440550 := by decide
  have hlast : daysBeforeYear 5874898 = 2145042906 := by decide
  exact ⟨d.dayNumber, parseDate_dateText (by omega) (by omega) column, d.countsDays_dayNumber⟩

/-- The ides of March of 44 BC. -/
def ides : Date := ⟨-43, 3, 15, by decide, by decide, by decide, by decide⟩

theorem parseDate_exact_ides :
    ∃ n, parseDate (utf8 (String.ofList (dateText ides))) "day" = .ok (some n)
      ∧ CountsDays epoch n ides :=
  parseDate_exact (by decide) (by decide) "day"

/-! ### Timestamps -/

/-- What becomes of the text of a timestamp, in a column of its type. -/
def readTimestamp (t : Timestamp) (column : String) : Except Error (Option ℤ) :=
  parseTimestamp (utf8 (String.ofList t.text)) t.offset.isSome column

theorem readTimestamp_eq {t : Timestamp} (hold : -4712 ≤ t.date.year)
    (hlate : t.date.year ≤ 294246) (column : String) :
    readTimestamp t column = .ok (some t.instant) := by
  have hbounds := t.date.dayNumber_bounds
  have hyear := daysBeforeYear_mono hold
  have hyear' := daysBeforeYear_mono (show t.date.year + 1 ≤ 294247 by omega)
  have hfirst : daysBeforeYear (-4712) = -2440550 := by decide
  have hlast : daysBeforeYear 294247 = 106751982 := by decide
  have hclock := t.clock.micros_lt
  have hzone := t.seconds_bounds
  rw [readTimestamp, parseTimestamp_instant (by omega) (by omega), if_pos]
  unfold Timestamp.instant Timestamp.localMicros
  omega

/-- A timestamp is read as its instant, so that the texts of one instant are
read alike and a later instant is read as a greater number. -/
theorem parseTimestamp_exact {t u : Timestamp} (hold : -4712 ≤ t.date.year)
    (hlate : t.date.year ≤ 294246) (hold' : -4712 ≤ u.date.year) (hlate' : u.date.year ≤ 294246)
    (column : String) :
    readTimestamp t column =
        .ok (some (t.date.dayNumber * 86400000000 + t.clock.micros - t.seconds * 1000000))
      ∧ (t.instant = u.instant → readTimestamp t column = readTimestamp u column)
      ∧ (t.instant < u.instant → ∃ m n, readTimestamp t column = .ok (some m)
        ∧ readTimestamp u column = .ok (some n) ∧ m < n) := by
  have ht := readTimestamp_eq hold hlate column
  have hu := readTimestamp_eq hold' hlate' column
  refine ⟨ht, fun heq => ?_, fun hlt => ⟨_, _, ht, hu, hlt⟩⟩
  rw [ht, hu, heq]

/-- The ides of March at noon, with the offset of Kolkata and without one. -/
def noon (offset : Option Offset) : Timestamp where
  date := ides
  clock := ⟨12, 0, 0, [], by decide, by decide, by decide, rfl, by decide⟩
  offset := offset

def kolkata : Offset :=
  ⟨false, 5, some (30, none), by decide, by rintro m s ⟨⟩; exact ⟨by decide, fun n h => by cases h⟩⟩

theorem parseTimestamp_exact_noon :
    readTimestamp (noon (some kolkata)) "at" =
        .ok (some (ides.dayNumber * 86400000000 + (noon (some kolkata)).clock.micros
          - (noon (some kolkata)).seconds * 1000000))
      ∧ ((noon (some kolkata)).instant = (noon none).instant →
        readTimestamp (noon (some kolkata)) "at" = readTimestamp (noon none) "at")
      ∧ ((noon (some kolkata)).instant < (noon none).instant →
        ∃ m n, readTimestamp (noon (some kolkata)) "at" = .ok (some m)
          ∧ readTimestamp (noon none) "at" = .ok (some n) ∧ m < n) :=
  parseTimestamp_exact (t := noon (some kolkata)) (u := noon none) (by decide) (by decide)
    (by decide) (by decide) "at"

/-! ### Times of day -/

/-- A time of day, of which the end of the day is one. -/
inductive DayTime
  | clock (c : Clock)
  | endOfDay (zeros : Text) (zero : ∀ d ∈ zeros, d = '0') (length_le : zeros.length ≤ 6)

namespace DayTime

def text : DayTime → Text
  | .clock c => c.text
  | .endOfDay zeros _ _ =>
    padded 2 24 ++ ':' :: (padded 2 0 ++ ':' :: (padded 2 0 ++ fractionText zeros))

/-- Microseconds since midnight. -/
def micros : DayTime → ℕ
  | .clock c => c.micros
  | .endOfDay _ _ _ => 86400000000

def IsEndOfDay : DayTime → Prop
  | .clock _ => False
  | .endOfDay _ _ _ => True

end DayTime

theorem remEuclid_ofInt {n : ℤ} (hlo : -2 ^ 63 ≤ n) (hhi : n < 2 ^ 63) :
    (remEuclid (.ofInt n) microsPerDay).toInt = n % 86400000000 := by
  have hday : microsPerDay = .ofInt 86400000000 := by decide +kernel
  have hmod : Int64.ofInt n % microsPerDay = .ofInt (n.tmod 86400000000) := by
    rw [hday]
    exact ofInt_mod (by omega) (by omega) (by omega) (by omega)
  have hzero : (0 : Int64) = .ofInt 0 := rfl
  have hsign : ∀ {k : ℤ}, -2 ^ 62 ≤ k → k < 2 ^ 62 → (Int64.ofInt k < 0 ↔ k < 0) := by
    intro k hk hk'
    rw [← Int64.not_le, hzero, ofInt_le_ofInt (by omega) (by omega) (by omega) (by omega), not_le]
  rw [remEuclid, hmod]
  obtain hn | hn := le_or_gt 0 n
  · rw [Int.tmod_eq_emod_of_nonneg hn, if_neg (by rw [hsign] <;> omega),
      Int64.toInt_ofInt_of_le (by omega) (by omega)]
  · have hneg : n.tmod 86400000000 = -(-n % 86400000000) := by
      rw [← Int.tmod_eq_emod_of_nonneg (a := -n) (by omega), Int.neg_tmod, neg_neg]
    rw [hneg]
    by_cases hmultiple : -n % 86400000000 = 0
    · rw [hmultiple, neg_zero, if_neg (by decide), Int64.toInt_ofInt_of_le (by omega) (by omega)]
      omega
    · rw [if_pos (by rw [hsign] <;> omega), hday, ← Int64.ofInt_add,
        Int64.toInt_ofInt_of_le (by omega) (by omega)]
      omega

/-- A time is taken apart at its last sign, and its offset applied modulo a day. -/
theorem parseTime_parts {t body : Text} {offset : Option Int64} {micros o : ℤ}
    (htrim : trim t = t) (hoffset : splitOffset t = (body, offset))
    (hbody : timeMicros body = some (.ofInt micros)) (ho : offset.getD 0 = .ofInt o)
    (hlo : -2 ^ 63 ≤ micros - o) (hhi : micros - o < 2 ^ 63) (column : String) :
    parseTime (utf8 (String.ofList t)) column = .ok (some ((micros - o) % 86400000000)) := by
  rw [parseTime, trimmed, fromUtf8_utf8]
  simp only [String.toList_ofList, htrim, hoffset, hbody, ho]
  rw [← Int64.ofInt_sub, remEuclid_ofInt hlo hhi]

theorem trim_time {h m s : ℕ} {fraction : Text} (hdigits : fraction.all isDigitChar) :
    trim (padded 2 h ++ ':' :: (padded 2 m ++ ':' :: (padded 2 s ++ fractionText fraction)))
      = padded 2 h ++ ':' :: (padded 2 m ++ ':' :: (padded 2 s ++ fractionText fraction)) := by
  refine trim_of_forall fun c hc => ?_
  obtain hc | rfl | rfl := mem_time hdigits hc
  · exact isWhitespace_of_isDigitChar hc
  · rfl
  · rfl

/-- What becomes of the text of a time of day, in a column of its type. -/
def readTime (t : Text) (column : String) : Except Error (Option ℤ) :=
  parseTime (utf8 (String.ofList t)) column

theorem readTime_fields {h m s : ℕ} {fraction : Text} (hh : h ≤ 24) (hm : m < 60) (hs : s ≤ 60)
    (hdigits : fraction.all isDigitChar) (hlength : fraction.length ≤ 6) (column : String) :
    readTime (padded 2 h ++ ':' :: (padded 2 m ++ ':' :: (padded 2 s ++ fractionText fraction)))
        column
      = .ok (some (((h * 3600 + m * 60 + s) * 1000000
        + digitsValue fraction * 10 ^ (6 - fraction.length) : ℕ) % 86400000000)) := by
  have hsigns : ∀ c ∈ padded 2 h ++ ':' :: (padded 2 m ++ ':' :: (padded 2 s ++
      fractionText fraction)), (c == '+' || c == '-') = false := by
    intro c hc
    obtain hc | rfl | rfl := mem_time hdigits hc
    · by_contra hsign
      rw [Bool.not_eq_false, Bool.or_eq_true, beq_iff_eq, beq_iff_eq] at hsign
      obtain rfl | rfl := hsign <;> cases hc
    · rfl
    · rfl
  have hspace := fun hc => (mem_time (c := ' ') (h := h) (m := m) (s := s) hdigits hc)
  have hfraction := fraction_lt hdigits hlength
  have h := parseTime_parts (trim_time hdigits)
    (splitOffset_of_unsigned (fun hc => by obtain h | h | h := hspace hc <;> cases h) hsigns)
    (timeMicros_fields hh hm hs hdigits hlength) (o := 0) rfl (by omega) (by omega) column
  rw [sub_zero] at h
  exact h

theorem readTime_text (t : DayTime) (column : String) :
    readTime t.text column = .ok (some (t.micros % 86400000000)) := by
  cases t with
  | clock c =>
    exact readTime_fields c.hour_lt.le c.minute_lt c.second_lt.le c.fraction_digits
      c.fraction_length column
  | endOfDay zeros zero length_le =>
    have hdigits : zeros.all isDigitChar := List.all_eq_true.2 fun d hd => by rw [zero d hd]; rfl
    have h := readTime_fields (h := 24) (m := 0) (s := 0) (by omega) (by omega) (by omega) hdigits
      length_le column
    rw [(digitsValue_eq_zero hdigits).2 zero, Nat.zero_mul (10 ^ _)] at h
    exact h

theorem readTime_offset (c : Clock) (o : Offset) (column : String) :
    readTime (c.text ++ o.text) column
      = .ok (some ((c.micros - o.seconds * 1000000) % 86400000000)) := by
  have hclock := c.micros_lt
  have hzone := o.seconds_bounds
  refine parseTime_parts ?_ (splitOffset_time (space_not_mem_clock c) o) (timeMicros_text c) rfl
    (by omega) (by omega) column
  exact ((digitEnds_clock c).append o.digitEnds_digits [o.sign]).trim

theorem DayTime.micros_le (t : DayTime) : t.micros ≤ 86400000000 := by
  cases t with
  | clock c => exact c.micros_lt.le
  | endOfDay _ _ _ => exact le_rfl

theorem DayTime.isEndOfDay_iff (t : DayTime) : t.IsEndOfDay ↔ t.micros = 86400000000 := by
  cases t with
  | clock c => exact ⟨False.elim, fun h => absurd h c.micros_lt.ne⟩
  | endOfDay _ _ _ => exact ⟨fun _ => rfl, fun _ => trivial⟩

/-- Every time of day is read exactly but the end of the day, which becomes the
midnight the day began with. -/
theorem parseTime_exact_iff (column : String) :
    (∀ t : DayTime, readTime t.text column = .ok (some t.micros)
        ∨ readTime t.text column = .ok none ↔ ¬t.IsEndOfDay)
      ∧ (∀ t u : DayTime, t.micros < u.micros →
        ((∀ m n, readTime t.text column = .ok (some m) → readTime u.text column = .ok (some n) →
          m < n) ↔ ¬u.IsEndOfDay))
      ∧ ∀ (c : Clock) (o : Offset), readTime (c.text ++ o.text) column
        = .ok (some ((c.micros - o.seconds * 1000000) % 86400000000)) := by
  refine ⟨fun t => ?_, fun t u hlt => ?_, fun c o => readTime_offset c o column⟩
  · have hle := t.micros_le
    rw [readTime_text, t.isEndOfDay_iff]
    simp only [Except.ok.injEq, Option.some.injEq, reduceCtorEq, or_false]
    omega
  · have hle := u.micros_le
    rw [readTime_text, readTime_text, u.isEndOfDay_iff]
    simp only [Except.ok.injEq, Option.some.injEq]
    refine ⟨fun h => ?_, fun h m n hm hn => ?_⟩
    · have := h _ _ rfl rfl
      omega
    · omega

def midnight : Clock := ⟨0, 0, 0, [], by decide, by decide, by decide, rfl, by decide⟩

/-- The end of the day is neither read as its distance from midnight nor as a
value that has no representation. -/
theorem parseTime_exact_counterexample :
    (DayTime.endOfDay [] (by simp) (by simp)).text = "24:00:00".toList
      ∧ midnight.text = "00:00:00".toList
      ∧ readTime "24:00:00".toList "at" = .ok (some 0)
      ∧ readTime "00:00:00".toList "at" = .ok (some 0) := by
  have hlast : (DayTime.endOfDay [] (by simp) (by simp)).text = "24:00:00".toList := rfl
  have hfirst : (DayTime.clock midnight).text = "00:00:00".toList := rfl
  have hmicros : (DayTime.clock midnight).micros = 0 := rfl
  refine ⟨hlast, hfirst, ?_, ?_⟩
  · rw [← hlast, readTime_text]
    rfl
  · rw [← hfirst, readTime_text, hmicros]
    rfl

end PgDelta.Values
