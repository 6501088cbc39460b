import PgDelta.Types.Admission
import PgDelta.Types.Instants

/-!
The arithmetic of dates and times under overflow checks. Each function is
followed operation by operation, on exact integers, and stopped by the first
result that 64 bits do not hold. Where it is not stopped the arithmetic that
wraps gives the same results.
-/

namespace PgDelta.Values

open PgDelta.Lib

/-! ### Days -/

/-- An operation whose result fits goes on with it. -/
theorem checked_bind {α : Type} {n : ℤ} {f : ℤ → Option α} (hlo : -2 ^ 63 ≤ n) (hhi : n < 2 ^ 63) :
    (checkedI64 n).bind f = f n := by
  rw [checkedI64_of_fits hlo hhi]
  rfl

theorem checked_bind_none {α : Type} {n : ℤ} {f : ℤ → Option α} (h : ¬(-2 ^ 63 ≤ n ∧ n < 2 ^ 63)) :
    (checkedI64 n).bind f = none := by
  rw [checkedI64, if_neg h]
  rfl

def marchYearChecked (y m : ℤ) : Option ℤ := if m ≤ 2 then checkedI64 (y - 1) else some y

def eraChecked (y : ℤ) : Option ℤ :=
  (if 0 ≤ y then some y else checkedI64 (y - 399)).map fun y => y.tdiv 400

def yearOfEraChecked (y era : ℤ) : Option ℤ := do
  let start ← checkedI64 (era * 400)
  checkedI64 (y - start)

def dayOfYearChecked (m d : ℤ) : Option ℤ := do
  let month ← checkedI64 (m + 9)
  let doy ← checkedI64 (153 * month.tmod 12)
  let doy ← checkedI64 (doy + 2)
  let doy ← checkedI64 (doy.tdiv 5 + d)
  checkedI64 (doy - 1)

def dayOfEraChecked (yoe doy : ℤ) : Option ℤ := do
  let doe ← checkedI64 (yoe * 365)
  let doe ← checkedI64 (doe + yoe.tdiv 4)
  let doe ← checkedI64 (doe - yoe.tdiv 100)
  checkedI64 (doe + doy)

def daysFromCivilChecked (y m d : ℤ) : Option ℤ := do
  let y ← marchYearChecked y m
  let era ← eraChecked y
  let yoe ← yearOfEraChecked y era
  let doy ← dayOfYearChecked m d
  let doe ← dayOfEraChecked yoe doy
  let days ← checkedI64 (era * 146097)
  let days ← checkedI64 (days + doe)
  checkedI64 (days - 719468)

theorem dayOfYearChecked_eq {m d : ℤ} (hm : 1 ≤ m) (hm' : m ≤ 12) (hd : 1 ≤ d) (hd' : d ≤ 31) :
    ∃ doy, dayOfYearChecked m d = some doy
      ∧ doy = (153 * (m + 9).tmod 12 + 2).tdiv 5 + d - 1 ∧ 0 ≤ doy ∧ doy ≤ 367 := by
  have hmonth : (m + 9).tmod 12 = (m + 9) % 12 := Int.tmod_eq_emod_of_nonneg (by omega)
  have hfifth : (153 * (m + 9).tmod 12 + 2).tdiv 5 = (153 * ((m + 9) % 12) + 2) / 5 := by
    rw [hmonth]
    exact Int.tdiv_eq_ediv_of_nonneg (by omega)
  refine ⟨_, ?_, rfl, ?_⟩
  · rw [dayOfYearChecked, Option.bind_eq_bind, checked_bind (by omega) (by omega),
      checked_bind (by omega) (by omega),
      checked_bind (by omega) (by omega), checked_bind (by omega) (by omega),
      checkedI64_of_fits (by omega) (by omega)]
  · omega

theorem dayOfEraChecked_eq {yoe doy : ℤ} (hyoe : 0 ≤ yoe) (hyoe' : yoe ≤ 399) (hdoy : 0 ≤ doy)
    (hdoy' : doy ≤ 367) :
    ∃ doe, dayOfEraChecked yoe doy = some doe
      ∧ doe = yoe * 365 + yoe.tdiv 4 - yoe.tdiv 100 + doy ∧ 0 ≤ doe ∧ doe ≤ 146500 := by
  have hfourth : yoe.tdiv 4 = yoe / 4 := Int.tdiv_eq_ediv_of_nonneg hyoe
  have hcentury : yoe.tdiv 100 = yoe / 100 := Int.tdiv_eq_ediv_of_nonneg hyoe
  refine ⟨_, ?_, rfl, ?_⟩
  · rw [dayOfEraChecked, Option.bind_eq_bind, checked_bind (by omega) (by omega),
      checked_bind (by omega) (by omega),
      checked_bind (by omega) (by omega), checkedI64_of_fits (by omega) (by omega)]
  · omega

/-- The days are counted exactly unless the number of the day, or its distance
from the first of March of year 0, does not fit. -/
theorem daysFromCivilChecked_eq {y m d : ℤ} (hy : -2 ^ 63 + 1 < y) (hy' : y < 2 ^ 63) (hm : 1 ≤ m)
    (hm' : m ≤ 12) (hd : 1 ≤ d) (hd' : d ≤ 31) :
    daysFromCivilChecked y m d =
      if -2 ^ 63 ≤ civilDays y m d ∧ civilDays y m d < 2 ^ 63 - 719468 then some (civilDays y m d)
      else none := by
  obtain ⟨z, hz, hz1, hz2⟩ : ∃ z, (if m ≤ 2 then y - 1 else y) = z ∧ -2 ^ 63 < z ∧ z < 2 ^ 63 := by
    refine ⟨_, rfl, ?_, ?_⟩ <;> split_ifs <;> omega
  have hmarch : marchYearChecked y m = some z := by
    rw [← hz, marchYearChecked]
    split_ifs
    · exact checkedI64_of_fits (by omega) (by omega)
    · rfl
  obtain ⟨doy, hdoy, hdoy', hdoy0, hdoy1⟩ := dayOfYearChecked_eq hm hm' hd hd'
  obtain ⟨doe, hdoe, hdoe', hdoe0, hdoe1⟩ := dayOfEraChecked_eq
    (show 0 ≤ z - z / 400 * 400 by omega) (show z - z / 400 * 400 ≤ 399 by omega) hdoy0 hdoy1
  have hdays : civilDays y m d = z / 400 * 146097 + doe - 719468 := by
    simp only [civilDays, hz, era_eq, hdoe', hdoy']
  rw [hdays, daysFromCivilChecked, hmarch, Option.bind_eq_bind, Option.bind_some]
  by_cases hfirst : z < -2 ^ 63 + 399
  · have hera : eraChecked z = none := by
      rw [eraChecked, if_neg (by omega), checkedI64, if_neg (by omega)]
      rfl
    rw [hera, if_neg (by omega)]
    rfl
  · have hera : eraChecked z = some (z / 400) := by
      rw [← era_eq z, eraChecked]
      split_ifs
      · rfl
      · rw [checkedI64_of_fits (by omega) (by omega)]
        rfl
    have hyoe : yearOfEraChecked z (z / 400) = some (z - z / 400 * 400) := by
      rw [yearOfEraChecked, Option.bind_eq_bind, checked_bind (by omega) (by omega),
        checkedI64_of_fits (by omega) (by omega)]
    rw [hera, Option.bind_some, hyoe, Option.bind_some, hdoy, Option.bind_some, hdoe,
      Option.bind_some]
    by_cases hproduct : -2 ^ 63 ≤ z / 400 * 146097 ∧ z / 400 * 146097 < 2 ^ 63
    · rw [checked_bind hproduct.1 hproduct.2]
      by_cases hsum : z / 400 * 146097 + doe < 2 ^ 63
      · rw [checked_bind (by omega) hsum, checkedI64]
        congr 1
        rw [eq_iff_iff]
        omega
      · rw [checked_bind_none (by omega), if_neg (by omega)]
    · rw [checked_bind_none hproduct, if_neg (by omega)]

/-- Where no operation overflows, the wrapping arithmetic gives the same. -/
theorem daysFromCivil_of_checked {y m d n : ℤ} (hy : -2 ^ 63 + 1 < y) (hy' : y < 2 ^ 63)
    (hm : 1 ≤ m) (hm' : m ≤ 12) (hd : 1 ≤ d) (hd' : d ≤ 31)
    (h : daysFromCivilChecked y m d = some n) :
    (daysFromCivil (.ofInt y) (.ofInt m) (.ofInt d)).toInt = n := by
  rw [daysFromCivilChecked_eq hy hy' hm hm' hd hd'] at h
  split_ifs at h with hrange
  obtain rfl := Option.some.inj h
  have hyear : -2 ^ 62 ≤ y ∧ y ≤ 2 ^ 62 := by
    rw [civilDays_eq y hm] at hrange
    split_ifs at hrange <;> omega
  rw [daysFromCivil_ofInt hyear.1 hyear.2 hm hm']
  exact Int64.toInt_ofInt_of_le hrange.1 (by omega)

/-! ### Times -/

/-- The multiplications by ten of a fraction that is written with fewer digits. -/
def scaleChecked : ℕ → ℤ → Option ℤ
  | 0, n => some n
  | k + 1, n => (checkedI64 (n * 10)).bind (scaleChecked k)

/-- The fraction of a second. `some none` is a malformed fraction. -/
def fractionMicrosChecked (frac : Text) : Option (Option ℤ) :=
  if frac.isEmpty then some (some 0)
  else if 6 < textLen frac || !frac.all isDigitChar then some none
  else (scaleChecked (6 - frac.length) (digitsValue frac)).map some

def secondsChecked (h m sec : ℤ) : Option ℤ := do
  let hours ← checkedI64 (h * 3600)
  let minutes ← checkedI64 (m * 60)
  let seconds ← checkedI64 (hours + minutes)
  checkedI64 (seconds + sec)

/-- The hours, minutes and seconds of a time, with the digits of its fraction. -/
def clockPieces (s : Text) : Option (Int64 × Int64 × Int64 × Text) :=
  let (hms, frac) := (splitOnce '.' s).getD (s, [])
  match splitn ':' 3 hms with
  | h :: m :: rest =>
    match parseInt64 h, parseInt64 m, parseInt64 (rest.head?.getD ['0']) with
    | some h, some m, some sec =>
      if 0 ≤ h ∧ h ≤ 24 ∧ 0 ≤ m ∧ m < 60 ∧ 0 ≤ sec ∧ sec ≤ 60 then some (h, m, sec, frac)
      else none
    | _, _, _ => none
  | _ => none

/-- `time_micros` under overflow checks. `some none` is a malformed time. -/
def timeMicrosChecked (s : Text) : Option (Option ℤ) :=
  match clockPieces s with
  | none => some none
  | some (h, m, sec, frac) =>
    (fractionMicrosChecked frac).bind fun
      | none => some none
      | some micros =>
        (secondsChecked h.toInt m.toInt sec.toInt).bind fun seconds =>
          (checkedI64 (seconds * 1000000)).bind fun whole =>
            (checkedI64 (whole + micros)).map some

theorem timeMicros_eq (s : Text) :
    timeMicros s = (clockPieces s).bind fun (h, m, sec, frac) =>
      (fractionMicros frac).map fun micros =>
        (h * 3600 + m * 60 + sec) * microsPerSec + micros := by
  unfold timeMicros clockPieces
  obtain ⟨hms, frac⟩ := (splitOnce '.' s).getD (s, [])
  simp only
  rcases splitn ':' 3 hms with _ | ⟨h, _ | ⟨m, rest⟩⟩
  · rfl
  · rfl
  simp only
  cases parseInt64 h with
  | none => rfl
  | some h =>
    cases parseInt64 m with
    | none => rfl
    | some m =>
      cases parseInt64 (rest.head?.getD ['0']) with
      | none => rfl
      | some sec =>
        simp only
        split_ifs <;> rfl

theorem clockPieces_bounds {s frac : Text} {h m sec : Int64}
    (hpieces : clockPieces s = some (h, m, sec, frac)) :
    0 ≤ h.toInt ∧ h.toInt ≤ 24 ∧ 0 ≤ m.toInt ∧ m.toInt < 60 ∧ 0 ≤ sec.toInt ∧ sec.toInt ≤ 60 := by
  unfold clockPieces at hpieces
  simp only at hpieces
  split at hpieces
  · split at hpieces
    · split_ifs at hpieces with hrange
      cases hpieces
      simp only [Int64.le_iff_toInt_le, Int64.lt_iff_toInt_lt] at hrange
      exact hrange
    · cases hpieces
  · cases hpieces

theorem scaleChecked_eq {k : ℕ} {n : ℤ} (hn : 0 ≤ n) (h : n * 10 ^ k < 2 ^ 63) :
    scaleChecked k n = some (n * 10 ^ k) := by
  induction k generalizing n with
  | zero => simp [scaleChecked]
  | succ k ih =>
    have hstep : n * 10 * 10 ^ k = n * 10 ^ (k + 1) := by ring
    have hle : n * 10 ≤ n * 10 * 10 ^ k :=
      le_mul_of_one_le_right (by omega) (one_le_pow₀ (by omega))
    rw [scaleChecked, checked_bind (by omega) (by omega), ih (by omega) (by omega), hstep]

theorem fractionMicrosChecked_eq (frac : Text) :
    fractionMicrosChecked frac = some ((fractionMicros frac).map Int64.toInt)
      ∧ ∀ micros, fractionMicros frac = some micros →
        0 ≤ micros.toInt ∧ micros.toInt < 1000000 := by
  unfold fractionMicrosChecked fractionMicros
  split_ifs with hempty hbad
  · exact ⟨rfl, by rintro _ ⟨⟩; decide⟩
  · exact ⟨rfl, by rintro _ ⟨⟩⟩
  · obtain ⟨hlen, hdigits⟩ : textLen frac ≤ 6 ∧ frac.all isDigitChar = true := by
      simpa [not_or] using hbad
    rw [textLen_of_digits hdigits] at hlen
    have hlt := fraction_lt hdigits hlen
    have hcast : ((digitsValue frac : ℕ) : ℤ) * 10 ^ (6 - frac.length)
        = (digitsValue frac * 10 ^ (6 - frac.length) : ℕ) := by push_cast; rfl
    have hvalue : (Int64.ofNat (digitsValue frac * 10 ^ (6 - frac.length))).toInt
        = (digitsValue frac * 10 ^ (6 - frac.length) : ℕ) :=
      Int64.toInt_ofNat_of_lt (by omega)
    refine ⟨?_, ?_⟩
    · rw [scaleChecked_eq (by omega) (by omega), Option.map_some, Option.map_some, hvalue, hcast]
    · rintro _ ⟨⟩
      rw [hvalue]
      omega

theorem seconds_ofInt (h m s : ℤ) :
    Int64.ofInt h * 3600 + .ofInt m * 60 + .ofInt s = .ofInt (h * 3600 + m * 60 + s) := by
  rw [Int64.ofInt_add, Int64.ofInt_add, Int64.ofInt_mul, Int64.ofInt_mul]
  rfl

theorem micros_ofInt (h m s f : ℤ) :
    (Int64.ofInt h * 3600 + .ofInt m * 60 + .ofInt s) * microsPerSec + .ofInt f
      = .ofInt ((h * 3600 + m * 60 + s) * 1000000 + f) := by
  have hunit : microsPerSec = .ofInt 1000000 := rfl
  rw [seconds_ofInt, hunit, ← Int64.ofInt_mul, ← Int64.ofInt_add]

theorem secondsChecked_eq {h m s : ℤ} (hh : 0 ≤ h) (hm : 0 ≤ m) (hs : 0 ≤ s)
    (hsum : h * 3600 + m * 60 + s < 2 ^ 63) :
    secondsChecked h m s = some (h * 3600 + m * 60 + s) := by
  rw [secondsChecked, Option.bind_eq_bind, checked_bind (by omega) (by omega),
    checked_bind (by omega) (by omega), checked_bind (by omega) (by omega),
    checkedI64_of_fits (by omega) hsum]

theorem secondsChecked_eq_none {h m s : ℤ} (hh : 0 ≤ h) (hm : 0 ≤ m)
    (hsum : ¬h * 3600 + m * 60 + s < 2 ^ 63) : secondsChecked h m s = none := by
  rw [secondsChecked, Option.bind_eq_bind]
  by_cases hhours : h * 3600 < 2 ^ 63
  · rw [checked_bind (by omega) hhours]
    by_cases hminutes : m * 60 < 2 ^ 63
    · rw [checked_bind (by omega) hminutes]
      by_cases hboth : h * 3600 + m * 60 < 2 ^ 63
      · rw [checked_bind (by omega) hboth, checkedI64, if_neg (by omega)]
      · exact checked_bind_none (by omega)
    · exact checked_bind_none (by omega)
  · exact checked_bind_none (by omega)

/-- The arithmetic of a time is exact. -/
theorem clock_toInt {s frac : Text} {h m sec micros : Int64}
    (hpieces : clockPieces s = some (h, m, sec, frac)) (hfrac : fractionMicros frac = some micros) :
    ((h * 3600 + m * 60 + sec) * microsPerSec + micros).toInt
      = (h.toInt * 3600 + m.toInt * 60 + sec.toInt) * 1000000 + micros.toInt := by
  have hbounds := clockPieces_bounds hpieces
  have hmicros := (fractionMicrosChecked_eq frac).2 micros hfrac
  have hwrapped := micros_ofInt h.toInt m.toInt sec.toInt micros.toInt
  simp only [Int64.ofInt_toInt] at hwrapped
  rw [hwrapped, Int64.toInt_ofInt_of_le (by omega) (by omega)]

theorem timeMicrosChecked_eq (s : Text) :
    timeMicrosChecked s = some ((timeMicros s).map Int64.toInt) := by
  rw [timeMicrosChecked, timeMicros_eq]
  cases hpieces : clockPieces s with
  | none => rfl
  | some p =>
    obtain ⟨h, m, sec, frac⟩ := p
    have hbounds := clockPieces_bounds hpieces
    obtain ⟨hfraction, hlt⟩ := fractionMicrosChecked_eq frac
    simp only [Option.bind_some]
    rw [hfraction, Option.bind_some]
    cases hfrac : fractionMicros frac with
    | none => rfl
    | some micros =>
      have hmicros := hlt micros hfrac
      simp only [Option.map_some]
      rw [secondsChecked_eq (by omega) (by omega) (by omega) (by omega), Option.bind_some,
        checked_bind (by omega) (by omega), checkedI64_of_fits (by omega) (by omega),
        clock_toInt hpieces hfrac]
      rfl

/-! ### Offsets -/

def offsetMicrosChecked (sign : Char) (h m sec : ℤ) : Option ℤ :=
  (secondsChecked h m sec).bind fun seconds =>
    (checkedI64 ((if sign = '-' then -1 else 1) * seconds)).bind fun signed =>
      checkedI64 (signed * 1000000)

def splitOffsetChecked (s : Text) : Option (Text × Option ℤ) :=
  match offsetFields s with
  | none => some (s, none)
  | some (body, sign, h, m, sec) =>
    (offsetMicrosChecked sign h m sec).map fun micros => (body, some micros)

def OffsetFits (s : Text) : Prop :=
  ∀ body sign h m sec, offsetFields s = some (body, sign, h, m, sec) →
    (h * 3600 + m * 60 + sec) * 1000000 < 2 ^ 63

/-- Without a minus sign only numbers from zero on are read. -/
theorem parseInt64_nonneg {s : Text} (hsign : '-' ∉ s) {n : Int64} (h : parseInt64 s = some n) :
    0 ≤ n.toInt := by
  obtain ⟨k, hk, rfl⟩ := Option.map_eq_some_iff.1 h
  obtain ⟨hlo, hhi, t, -, -, ⟨rfl, -⟩ | ⟨-, rfl⟩⟩ := parseInt_cases hk
  · exact absurd List.mem_cons_self hsign
  · rw [Int64.toInt_ofInt_of_le (by omega) (by omega)]
    omega

theorem offsetFields_nonneg {s body : Text} {sign : Char} {h m sec : ℤ}
    (hfields : offsetFields s = some (body, sign, h, m, sec)) : 0 ≤ h ∧ 0 ≤ m ∧ 0 ≤ sec := by
  unfold offsetFields at hfields
  simp only at hfields
  split at hfields
  · cases hfields
  next body' sign' off hsplit =>
    have hoff : ∀ piece ∈ splitAll ':' off, '-' ∉ piece := fun piece hpiece hmem => by
      cases rsplitOnce_eq_some hsplit '-' (mem_of_mem_splitAll hpiece hmem)
    have hfield : ∀ piece : Option Text, (∀ t ∈ piece, t ∈ splitAll ':' off) →
        0 ≤ ((piece.bind parseInt64).getD 0).toInt := by
      intro piece hpiece
      cases hvalue : piece.bind parseInt64 with
      | none => exact le_rfl
      | some n =>
        obtain ⟨t, rfl, ht⟩ := Option.bind_eq_some_iff.1 hvalue
        exact parseInt64_nonneg (hoff t (hpiece t rfl)) ht
    split at hfields
    · cases hfields
    next first rest hpieces =>
      obtain ⟨n, hn, heq⟩ := Option.map_eq_some_iff.1 hfields
      cases heq
      rw [hpieces] at hoff hfield
      refine ⟨parseInt64_nonneg (hoff first List.mem_cons_self) hn, hfield _ ?_, hfield _ ?_⟩
      · exact fun t ht => List.mem_cons_of_mem _ (List.mem_of_mem_head? ht)
      · exact fun t ht => List.mem_cons_of_mem _ (List.mem_of_mem_tail (List.mem_of_mem_head? ht))

/-- The arithmetic of an offset overflows exactly when it does not fit. -/
theorem offsetMicrosChecked_eq {h m sec : ℤ} (hh : 0 ≤ h) (hm : 0 ≤ m) (hs : 0 ≤ sec)
    (sign : Char) :
    offsetMicrosChecked sign h m sec
      = if (h * 3600 + m * 60 + sec) * 1000000 < 2 ^ 63 then
          some ((if sign = '-' then -1 else 1) * (h * 3600 + m * 60 + sec) * 1000000)
        else none := by
  unfold offsetMicrosChecked
  by_cases hsum : h * 3600 + m * 60 + sec < 2 ^ 63
  · rw [secondsChecked_eq hh hm hs hsum, Option.bind_some]
    split_ifs with hsign hfits hfits
    · rw [checked_bind (by omega) (by omega), checkedI64_of_fits (by omega) (by omega)]
    · rw [checked_bind (by omega) (by omega), checkedI64, if_neg (by omega)]
    · rw [checked_bind (by omega) (by omega), checkedI64_of_fits (by omega) (by omega)]
    · rw [checked_bind (by omega) (by omega), checkedI64, if_neg (by omega)]
  · have hfits : ¬(h * 3600 + m * 60 + sec) * 1000000 < 2 ^ 63 := by omega
    rw [secondsChecked_eq_none hh hm hsum, if_neg hfits, Option.bind_none]

theorem signed_ofInt (sign : Char) (h m s : ℤ) :
    (if sign = '-' then -1 else 1) * (Int64.ofInt h * 3600 + .ofInt m * 60 + .ofInt s)
        * microsPerSec
      = .ofInt ((if sign = '-' then -1 else 1) * (h * 3600 + m * 60 + s) * 1000000) := by
  have hunit : microsPerSec = .ofInt 1000000 := rfl
  have hsign : (if sign = '-' then -1 else 1 : Int64) = .ofInt (if sign = '-' then -1 else 1) := by
    split_ifs <;> rfl
  rw [seconds_ofInt, hunit, hsign, ← Int64.ofInt_mul, ← Int64.ofInt_mul]

/-- An offset overflows exactly when it does not fit, and is the same otherwise. -/
theorem splitOffsetChecked_spec (s : Text) :
    (splitOffsetChecked s = none ↔ ¬OffsetFits s)
      ∧ ∀ body offset, splitOffsetChecked s = some (body, offset) →
        splitOffset s = (body, offset.map Int64.ofInt)
          ∧ ∀ o ∈ offset, -2 ^ 63 < o ∧ o < 2 ^ 63 := by
  rw [splitOffset_eq, splitOffsetChecked, OffsetFits]
  cases hfields : offsetFields s with
  | none =>
    refine ⟨by simp, ?_⟩
    rintro _ _ ⟨⟩
    exact ⟨rfl, by simp⟩
  | some r =>
    obtain ⟨body, sign, h, m, sec⟩ := r
    obtain ⟨hh, hm, hs⟩ := offsetFields_nonneg hfields
    simp only [offsetMicrosChecked_eq hh hm hs sign]
    constructor
    · simp only [Option.map_eq_none_iff, ite_eq_right_iff, reduceCtorEq, imp_false,
        Option.some.injEq, Prod.mk.injEq]
      constructor
      · exact fun hlarge hfits => hlarge (hfits _ _ _ _ _ ⟨rfl, rfl, rfl, rfl, rfl⟩)
      · rintro hlarge hfits
        refine hlarge ?_
        rintro _ _ _ _ _ ⟨rfl, rfl, rfl, rfl, rfl⟩
        exact hfits
    · intro body' offset hsplit
      by_cases hfits : (h * 3600 + m * 60 + sec) * 1000000 < 2 ^ 63
      · rw [if_pos hfits] at hsplit
        cases hsplit
        refine ⟨?_, ?_⟩
        · exact congrArg (fun micros => (body, some micros)) (signed_ofInt sign h m sec)
        · rintro _ ⟨⟩
          split_ifs <;> omega
      · rw [if_neg hfits] at hsplit
        cases hsplit

/-! ### Dates -/

/-- The number of the day fits, and so does its distance from the first of
March of year 0. -/
def DateFits (s : Text) (bc : Bool) : Prop :=
  ∀ t : CivilText, s = t.text →
    -2 ^ 63 ≤ (t.fields bc).dayCount ∧ (t.fields bc).dayCount < 2 ^ 63 - 719468

def calendarYearChecked (bc : Bool) (y : Int64) : Option ℤ :=
  if bc then checkedI64 (1 - y.toInt) else some y.toInt

theorem calendarYearChecked_text (t : CivilText) (bc : Bool) :
    calendarYearChecked bc (.ofInt (digitsValue t.year)) = some (t.fields bc).calendarYear := by
  have hlt := t.year_lt
  have hyear : (Int64.ofInt (digitsValue t.year)).toInt = digitsValue t.year :=
    Int64.toInt_ofInt_of_le (by omega) (by omega)
  rw [calendarYearChecked, hyear]
  cases bc with
  | false => rfl
  | true => exact checkedI64_of_fits (by omega) (by omega)

theorem toInt_field (f : Field) : (Int64.ofInt f.value).toInt = f.value := by
  have hlt := f.value_lt
  exact Int64.toInt_ofInt_of_le (by omega) (by omega)

theorem calendarYear_bounds (t : CivilText) (bc : Bool) :
    -2 ^ 63 + 1 < (t.fields bc).calendarYear ∧ (t.fields bc).calendarYear < 2 ^ 63 := by
  have hlt := t.year_lt
  simp only [CivilText.fields, CivilFields.calendarYear]
  split_ifs <;> omega

theorem dateFits_text (t : CivilText) (bc : Bool) :
    DateFits t.text bc ↔
      -2 ^ 63 ≤ (t.fields bc).dayCount ∧ (t.fields bc).dayCount < 2 ^ 63 - 719468 := by
  constructor
  · exact fun h => h t rfl
  · intro h u hu
    rw [← CivilText.ext_text hu]
    exact h

/-- The days of a date are counted exactly, or an operation overflows. -/
theorem daysFromCivilChecked_text (t : CivilText) (bc : Bool) :
    (DateFits t.text bc → daysFromCivilChecked (t.fields bc).calendarYear
        (Int64.ofInt t.month.value).toInt (Int64.ofInt t.day.value).toInt = some (t.dayRead bc))
      ∧ (¬DateFits t.text bc → daysFromCivilChecked (t.fields bc).calendarYear
        (Int64.ofInt t.month.value).toInt (Int64.ofInt t.day.value).toInt = none) := by
  have hm := t.month_pos
  have hm' := t.month_le
  have hd := t.day_pos
  have hd' := t.day_le
  obtain ⟨hlo, hhi⟩ := calendarYear_bounds t bc
  rw [dateFits_text, toInt_field, toInt_field]
  have hchecked := daysFromCivilChecked_eq (m := t.month.value) (d := t.day.value) hlo hhi
    (by omega) (by omega) (by omega) (by omega)
  have hcount : (t.fields bc).dayCount
      = civilDays (t.fields bc).calendarYear t.month.value t.day.value := rfl
  rw [hcount]
  refine ⟨fun h => ?_, fun h => ?_⟩
  · rw [if_pos h] at hchecked
    rw [hchecked, CivilText.dayRead, daysFromCivil_of_checked hlo hhi (by omega) (by omega)
      (by omega) (by omega) hchecked]
  · rw [hchecked, if_neg h]

/-- `parse_date` under overflow checks. -/
def parseDateChecked (v : Bytes) (column : String) : Option (Except Error (Option ℤ)) :=
  match trimmed v column "date" with
  | .error e => some (.error e)
  | .ok s =>
    if s = "infinity".toList ∨ s = "-infinity".toList then some (.ok none)
    else
      let (s, bc) := splitEra s
      match civilParts s with
      | none => some (.error (bad column "date"))
      | some (y, m, d) =>
        ((calendarYearChecked bc y).bind
          fun y => daysFromCivilChecked y m.toInt d.toInt).map fun days =>
          if days < minSupportedDay.toInt ∧ bc = false then .error (bad column "date")
          else if -2 ^ 31 ≤ days ∧ days < 2 ^ 31 then .ok (some days)
          else .error (bad column "date")

theorem dateFits_infinite {s : Text} (h : s = "infinity".toList ∨ s = "-infinity".toList)
    (bc : Bool) : DateFits (splitEra s).1 bc := by
  have hnone : civilParts (splitEra s).1 = none := by
    obtain rfl | rfl := h <;> decide +kernel
  intro t ht
  rw [ht, civilParts_text] at hnone
  cases hnone

/-- The date of a value fits. -/
def ValueDateFits (v : Bytes) : Prop :=
  ∀ s, fromUtf8 v = some s → DateFits (splitEra (trim s)).1 (splitEra (trim s)).2

theorem parseDateChecked_spec (v : Bytes) (column : String) :
    (ValueDateFits v → parseDateChecked v column = some (parseDate v column))
      ∧ (¬ValueDateFits v → parseDateChecked v column = none) := by
  cases hutf8 : fromUtf8 v with
  | none =>
    have hfits : ValueDateFits v := by
      intro s hs
      rw [hutf8] at hs
      cases hs
    refine ⟨fun _ => ?_, fun h => absurd hfits h⟩
    rw [parseDateChecked, parseDate, trimmed, hutf8]
  | some s =>
    have hvalue : ValueDateFits v ↔ DateFits (splitEra (trim s)).1 (splitEra (trim s)).2 := by
      rw [ValueDateFits, hutf8]
      exact ⟨fun h => h s rfl, by rintro h _ ⟨⟩; exact h⟩
    rw [hvalue]
    by_cases hfinite : trim s = "infinity".toList ∨ trim s = "-infinity".toList
    · refine ⟨fun _ => ?_, fun h => absurd (dateFits_infinite hfinite _) h⟩
      rw [parseDate_infinite hutf8 hfinite, parseDateChecked, trimmed, hutf8]
      exact if_pos hfinite
    · rw [parseDate_eq hutf8 hfinite, parseDateChecked, trimmed, hutf8]
      simp only [if_neg hfinite]
      cases hcivil : civilParts (splitEra (trim s)).1 with
      | none =>
        refine ⟨fun _ => rfl, fun h => absurd ?_ h⟩
        intro t ht
        rw [ht, civilParts_text] at hcivil
        cases hcivil
      | some p =>
        obtain ⟨y, m, d⟩ := p
        obtain ⟨t, htext, rfl, rfl, rfl⟩ := civilParts_eq_some hcivil
        obtain ⟨hfits, hoverflow⟩ := daysFromCivilChecked_text t (splitEra (trim s)).2
        simp only [calendarYearChecked_text, Option.bind_some, htext, year_of_era]
        refine ⟨fun h => ?_, fun h => ?_⟩
        · rw [hfits h, t.dayRead_eq, Option.map_some]
          generalize daysFromCivil _ _ _ = days
          simp only [Int64.lt_iff_toInt_lt]
        · rw [hoverflow h]
          rfl

/-! ### Times of day with an offset -/

/-- The hours, minutes and seconds of a time, with the microseconds of its
fraction. -/
def clockFields (s : Text) : Option (ℤ × ℤ × ℤ × ℤ) :=
  (clockPieces s).bind fun (h, m, sec, frac) =>
    (fractionMicros frac).map fun f => (h.toInt, m.toInt, sec.toInt, f.toInt)

theorem timeMicros_toInt (s : Text) :
    (timeMicros s).map Int64.toInt = (clockFields s).map fun (h, m, sec, f) =>
      (h * 3600 + m * 60 + sec) * 1000000 + f := by
  rw [timeMicros_eq, clockFields]
  cases hpieces : clockPieces s with
  | none => rfl
  | some p =>
    obtain ⟨h, m, sec, frac⟩ := p
    simp only [Option.bind_some]
    cases hfrac : fractionMicros frac with
    | none => rfl
    | some micros =>
      simp only [Option.map_some]
      rw [clock_toInt hpieces hfrac]

theorem clockFields_bounds {s : Text} {h m sec f : ℤ}
    (hfields : clockFields s = some (h, m, sec, f)) :
    0 ≤ (h * 3600 + m * 60 + sec) * 1000000 + f
      ∧ (h * 3600 + m * 60 + sec) * 1000000 + f < 2 ^ 62 := by
  obtain ⟨⟨h', m', sec', frac⟩, hpieces, hrest⟩ := Option.bind_eq_some_iff.1 hfields
  obtain ⟨micros, hfrac, heq⟩ := Option.map_eq_some_iff.1 hrest
  cases heq
  have hbounds := clockPieces_bounds hpieces
  have hmicros := (fractionMicrosChecked_eq frac).2 micros hfrac
  omega

/-- `parse_time` under overflow checks. -/
def parseTimeChecked (v : Bytes) (column : String) : Option (Except Error (Option ℤ)) :=
  match trimmed v column "time" with
  | .error e => some (.error e)
  | .ok s =>
    (splitOffsetChecked s).bind fun (body, offset) =>
      (timeMicrosChecked body).bind fun
        | none => some (.error (bad column "time"))
        | some micros =>
          (checkedI64 (micros - offset.getD 0)).map fun n => .ok (some (n % 86400000000))

/-- The offset of a time fits, and so does the time with an offset west of
Greenwich added to it. -/
def ValueTimeFits (v : Bytes) : Prop :=
  ∀ s, fromUtf8 v = some s → OffsetFits (trim s)
    ∧ ∀ body h m sec h' m' sec' f, offsetFields (trim s) = some (body, '-', h, m, sec) →
      clockFields body = some (h', m', sec', f) →
      ((h' + h) * 3600 + (m' + m) * 60 + (sec' + sec)) * 1000000 + f < 2 ^ 63

theorem remEuclid_sub (micros : Int64) {o : ℤ} (hlo : -2 ^ 63 ≤ micros.toInt - o)
    (hhi : micros.toInt - o < 2 ^ 63) :
    (remEuclid (micros - .ofInt o) microsPerDay).toInt = (micros.toInt - o) % 86400000000 := by
  rw [← remEuclid_ofInt hlo hhi, Int64.ofInt_sub, Int64.ofInt_toInt]

/-- A time without its offset is subtracted from exactly, or the difference
overflows. -/
theorem timeRest_spec {body : Text} {offset : Option ℤ} {P : Prop} (column : String)
    (h : ∀ micros, timeMicros body = some micros →
      (P ↔ -2 ^ 63 ≤ micros.toInt - offset.getD 0 ∧ micros.toInt - offset.getD 0 < 2 ^ 63))
    (hnone : timeMicros body = none → P) :
    (P → ((timeMicrosChecked body).bind fun
        | none => some (.error (bad column "time"))
        | some micros =>
          (checkedI64 (micros - offset.getD 0)).map fun n => .ok (some (n % 86400000000)))
        = some (match timeMicros body with
          | none => Except.error (bad column "time")
          | some micros =>
            .ok (some (remEuclid (micros - (offset.map Int64.ofInt).getD 0) microsPerDay).toInt)))
      ∧ (¬P → ((timeMicrosChecked body).bind fun
        | none => some (.error (bad column "time"))
        | some micros =>
          (checkedI64 (micros - offset.getD 0)).map fun n =>
            (.ok (some (n % 86400000000)) : Except Error (Option ℤ))) = none) := by
  rw [timeMicrosChecked_eq, Option.bind_some]
  cases hmicros : timeMicros body with
  | none => exact ⟨fun _ => rfl, fun hP => absurd (hnone hmicros) hP⟩
  | some micros =>
    have hoffset : (offset.map Int64.ofInt).getD 0 = .ofInt (offset.getD 0) := by
      cases offset <;> rfl
    rw [h micros hmicros]
    simp only [Option.map_some]
    refine ⟨fun hfits => ?_, fun hfits => ?_⟩
    · rw [checkedI64_of_fits hfits.1 hfits.2, hoffset, remEuclid_sub micros hfits.1 hfits.2]
      rfl
    · rw [checkedI64, if_neg hfits]
      rfl

theorem splitOffsetChecked_of_fields {s body : Text} {sign : Char} {h m sec : ℤ}
    (hfields : offsetFields s = some (body, sign, h, m, sec)) :
    splitOffsetChecked s
      = if (h * 3600 + m * 60 + sec) * 1000000 < 2 ^ 63 then
          some (body, some ((if sign = '-' then -1 else 1) * (h * 3600 + m * 60 + sec) * 1000000))
        else none := by
  obtain ⟨hh, hm, hs⟩ := offsetFields_nonneg hfields
  rw [splitOffsetChecked, hfields]
  simp only [offsetMicrosChecked_eq hh hm hs sign]
  by_cases hfits : (h * 3600 + m * 60 + sec) * 1000000 < 2 ^ 63
  · rw [if_pos hfits, if_pos hfits]
    rfl
  · rw [if_neg hfits, if_neg hfits]
    rfl

theorem timeMicros_eq_some {s : Text} {micros : Int64} (h : timeMicros s = some micros) :
    ∃ h m sec f, clockFields s = some (h, m, sec, f)
      ∧ micros.toInt = (h * 3600 + m * 60 + sec) * 1000000 + f
      ∧ 0 ≤ micros.toInt ∧ micros.toInt < 2 ^ 62 := by
  have hexact := timeMicros_toInt s
  rw [h, Option.map_some] at hexact
  obtain ⟨⟨h, m, sec, f⟩, hfields, hvalue⟩ := Option.map_eq_some_iff.1 hexact.symm
  have hbounds := clockFields_bounds hfields
  exact ⟨h, m, sec, f, hfields, hvalue.symm, by rw [← hvalue]; exact hbounds.1,
    by rw [← hvalue]; exact hbounds.2⟩

theorem clockFields_eq_some {s : Text} {h m sec f : ℤ}
    (hfields : clockFields s = some (h, m, sec, f)) :
    ∃ micros, timeMicros s = some micros ∧
      micros.toInt = (h * 3600 + m * 60 + sec) * 1000000 + f := by
  have hexact := timeMicros_toInt s
  rw [hfields, Option.map_some] at hexact
  obtain ⟨micros, hmicros, hvalue⟩ := Option.map_eq_some_iff.1 hexact
  exact ⟨micros, hmicros, hvalue⟩

/-- What is to fit behind an offset that does is the difference of the time and
the offset. -/
theorem valueTimeFits_iff {v : Bytes} {s body : Text} {offset : Option ℤ}
    (hutf8 : fromUtf8 v = some s) (hoffset : OffsetFits (trim s))
    (hsplit : splitOffsetChecked (trim s) = some (body, offset)) :
    ValueTimeFits v ↔ ∀ micros, timeMicros body = some micros →
      -2 ^ 63 ≤ micros.toInt - offset.getD 0 ∧ micros.toInt - offset.getD 0 < 2 ^ 63 := by
  have hvalue : ValueTimeFits v ↔ ∀ body h m sec h' m' sec' f,
      offsetFields (trim s) = some (body, '-', h, m, sec) →
        clockFields body = some (h', m', sec', f) →
          ((h' + h) * 3600 + (m' + m) * 60 + (sec' + sec)) * 1000000 + f < 2 ^ 63 := by
    rw [ValueTimeFits, hutf8]
    exact ⟨fun h => (h s rfl).2, by rintro h _ ⟨⟩; exact ⟨hoffset, h⟩⟩
  rw [hvalue]
  cases hfields : offsetFields (trim s) with
  | none =>
    rw [splitOffsetChecked, hfields] at hsplit
    cases hsplit
    refine ⟨fun _ micros hmicros => ?_, by rintro - _ _ _ _ _ _ _ _ ⟨⟩⟩
    obtain ⟨_, _, _, _, -, -, hlo, hhi⟩ := timeMicros_eq_some hmicros
    simp only [Option.getD_none]
    omega
  | some r =>
    obtain ⟨body', sign, h, m, sec⟩ := r
    obtain ⟨hh, hm, hs⟩ := offsetFields_nonneg hfields
    have hfits := hoffset _ _ _ _ _ hfields
    rw [splitOffsetChecked_of_fields hfields, if_pos hfits] at hsplit
    cases hsplit
    simp only [Option.getD_some]
    constructor
    · intro hlimit micros hmicros
      obtain ⟨h', m', sec', f, hclock, hexact, hlo, hhi⟩ := timeMicros_eq_some hmicros
      by_cases hsign : sign = '-'
      · have hlt := hlimit _ _ _ _ _ _ _ _ (by rw [hsign]) hclock
        rw [if_pos hsign]
        omega
      · rw [if_neg hsign]
        omega
    · rintro hlimit _ _ _ _ h' m' sec' f ⟨⟩ hclock
      obtain ⟨micros, hmicros, hexact⟩ := clockFields_eq_some hclock
      have hlt := hlimit micros hmicros
      rw [if_pos rfl] at hlt
      omega

theorem parseTimeChecked_spec (v : Bytes) (column : String) :
    (ValueTimeFits v → parseTimeChecked v column = some (parseTime v column))
      ∧ (¬ValueTimeFits v → parseTimeChecked v column = none) := by
  cases hutf8 : fromUtf8 v with
  | none =>
    have hfits : ValueTimeFits v := by
      intro s hs
      rw [hutf8] at hs
      cases hs
    refine ⟨fun _ => ?_, fun h => absurd hfits h⟩
    rw [parseTimeChecked, parseTime, trimmed, hutf8]
  | some s =>
    rw [parseTimeChecked, parseTime, trimmed, hutf8]
    simp only
    cases hsplit : splitOffsetChecked (trim s) with
    | none =>
      have hoffset := (splitOffsetChecked_spec (trim s)).1.1 hsplit
      exact ⟨fun h => absurd (h s hutf8).1 hoffset, fun _ => rfl⟩
    | some r =>
      obtain ⟨body, offset⟩ := r
      have hoffset : OffsetFits (trim s) := by
        by_contra h
        rw [(splitOffsetChecked_spec (trim s)).1.2 h] at hsplit
        cases hsplit
      rw [((splitOffsetChecked_spec (trim s)).2 body offset hsplit).1]
      have hvalue := valueTimeFits_iff hutf8 hoffset hsplit
      refine timeRest_spec column (fun micros hmicros => ?_) (fun hnone => ?_)
      · rw [hvalue]
        refine ⟨fun h => h micros hmicros, fun h n hn => ?_⟩
        obtain rfl := Option.some.inj (hmicros.symm.trans hn)
        exact h
      · rw [hvalue]
        intro n hn
        rw [hnone] at hn
        cases hn

/-! ### Timestamps -/

/-- The end of `parse_timestamp` under overflow checks. Its last three
operations are checked in the source. -/
def timestampRestChecked (bc : Bool) (offset : Option ℤ) (pieces : Text × Text) (column : String) :
    Option (Except Error (Option ℤ)) :=
  match civilParts pieces.1 with
  | none => some (.error (bad column "timestamp"))
  | some (y, m, d) =>
    (calendarYearChecked bc y).bind fun y =>
      (timeMicrosChecked (trim pieces.2)).bind fun
        | none => some (.error (bad column "timestamp"))
        | some micros =>
          (daysFromCivilChecked y m.toInt d.toInt).map fun days =>
            match ((checkedI64 (days * 86400000000)).bind fun t =>
                checkedI64 (t + micros)).bind fun t => checkedI64 (t - offset.getD 0) with
            | some t => .ok (some t)
            | none => .error (bad column "timestamp")

/-- `parse_timestamp` under overflow checks. -/
def parseTimestampChecked (v : Bytes) (tz : Bool) (column : String) :
    Option (Except Error (Option ℤ)) :=
  match trimmed v column "timestamp" with
  | .error e => some (.error e)
  | .ok s =>
    if s = "infinity".toList ∨ s = "-infinity".toList then some (.ok none)
    else
      let (s, bc) := splitEra s
      (if tz then splitOffsetChecked s else some (s, none)).bind fun (body, offset) =>
        timestampRestChecked bc offset
          ((splitOnce ' ' body).getD (body, "00:00:00".toList)) column

/-- The offset of a timestamp fits, if its type has one, and so does its date,
if its time is one. -/
def ValueTimestampFits (v : Bytes) (tz : Bool) : Prop :=
  ∀ s, fromUtf8 v = some s → (tz = true → OffsetFits (splitEra (trim s)).1)
    ∧ ((clockFields (trim (timestampPieces tz s).2)).isSome →
      DateFits (timestampPieces tz s).1 (splitEra (trim s)).2)

theorem timestampBodyChecked_spec (tz : Bool) (s : Text) :
    ((tz = true → OffsetFits (splitEra (trim s)).1) →
      ∃ offset, (if tz then splitOffsetChecked (splitEra (trim s)).1
          else some ((splitEra (trim s)).1, none)) = some ((timestampBody tz s).1, offset)
        ∧ (timestampBody tz s).2 = offset.map Int64.ofInt
        ∧ ∀ o ∈ offset, -2 ^ 63 < o ∧ o < 2 ^ 63)
    ∧ (¬(tz = true → OffsetFits (splitEra (trim s)).1) →
      (if tz then splitOffsetChecked (splitEra (trim s)).1
          else some ((splitEra (trim s)).1, none)) = none) := by
  obtain ⟨hnone, hsome⟩ := splitOffsetChecked_spec (splitEra (trim s)).1
  cases tz with
  | false => exact ⟨fun _ => ⟨none, rfl, rfl, by simp⟩, fun h => absurd (by simp) h⟩
  | true =>
    simp only [if_true, forall_const]
    refine ⟨fun h => ?_, hnone.2⟩
    cases hsplit : splitOffsetChecked (splitEra (trim s)).1 with
    | none => exact absurd h (hnone.1 hsplit)
    | some r =>
      obtain ⟨body, offset⟩ := r
      obtain ⟨heq, hbounds⟩ := hsome body offset hsplit
      refine ⟨offset, ?_, ?_, hbounds⟩
      · rw [timestampBody, if_pos rfl, heq]
      · rw [timestampBody, if_pos rfl, heq]

theorem valueTimestampFits_infinite {v : Bytes} {s : Text} (hutf8 : fromUtf8 v = some s)
    (h : trim s = "infinity".toList ∨ trim s = "-infinity".toList) (tz : Bool) :
    ValueTimestampFits v tz := by
  intro s' hs'
  obtain rfl := Option.some.inj (hutf8.symm.trans hs')
  refine ⟨fun _ => ?_, fun _ => ?_⟩
  · have hnone : offsetFields (splitEra (trim s)).1 = none := by
      obtain h | h := h <;>
        · rw [h]
          decide +kernel
    rintro _ _ _ _ _ hfields
    rw [hnone] at hfields
    cases hfields
  · have hnone : civilParts (timestampPieces tz s).1 = none := by
      unfold timestampPieces timestampBody
      obtain h | h := h <;>
        · rw [h]
          cases tz <;> decide +kernel
    intro t ht
    rw [ht, civilParts_text] at hnone
    cases hnone

/-- A timestamp without its offset is read as under overflow checks, unless it
has a time and its date overflows. -/
theorem timestampRestChecked_spec (bc : Bool) {offset : Option ℤ}
    (hbounds : ∀ o ∈ offset, -2 ^ 63 < o ∧ o < 2 ^ 63) (pieces : Text × Text) (column : String) :
    (((clockFields (trim pieces.2)).isSome → DateFits pieces.1 bc) →
      timestampRestChecked bc offset pieces column
        = some (timestampRest bc (offset.map Int64.ofInt) pieces column))
    ∧ (¬((clockFields (trim pieces.2)).isSome → DateFits pieces.1 bc) →
      timestampRestChecked bc offset pieces column = none) := by
  obtain ⟨date, time⟩ := pieces
  rw [timestampRestChecked, timestampRest]
  -- Whatever this function is, since evaluating it takes long.
  generalize checkedI64 = check
  revert check
  refine id ?_
  intro check
  simp only
  cases hcivil : civilParts date with
  | none =>
    refine ⟨fun _ => rfl, fun h => absurd (fun _ => ?_) h⟩
    intro t ht
    rw [ht, civilParts_text] at hcivil
    cases hcivil
  | some p =>
    obtain ⟨y, m, d⟩ := p
    obtain ⟨t, rfl, rfl, rfl, rfl⟩ := civilParts_eq_some hcivil
    obtain ⟨hfits, hoverflow⟩ := daysFromCivilChecked_text t bc
    have hmicros : microsPerDay.toInt = 86400000000 := by decide +kernel
    simp only [calendarYearChecked_text, Option.bind_some, timeMicrosChecked_eq, year_of_era,
      ← t.dayRead_eq, hmicros]
    cases htime : timeMicros (trim time) with
    | none =>
      refine ⟨fun _ => rfl, fun h => absurd (fun hclock => ?_) h⟩
      obtain ⟨⟨h', m', s', f⟩, hfields⟩ := Option.isSome_iff_exists.1 hclock
      obtain ⟨micros, hsome, -⟩ := clockFields_eq_some hfields
      rw [htime] at hsome
      cases hsome
    | some micros =>
      obtain ⟨_, _, _, _, hfields, -⟩ := timeMicros_eq_some htime
      have hclock : (clockFields (trim time)).isSome = true := by rw [hfields]; rfl
      have hoffset : ((offset.map Int64.ofInt).getD 0).toInt = offset.getD 0 := by
        cases offset with
        | none => rfl
        | some o =>
          have ho := hbounds o rfl
          exact Int64.toInt_ofInt_of_le (by omega) (by omega)
      simp only [hclock, forall_const, Option.map_some, hoffset]
      refine ⟨fun h => ?_, fun h => ?_⟩
      · rw [hfits h]
        rfl
      · rw [hoverflow h]
        rfl

theorem parseTimestampChecked_spec (v : Bytes) (tz : Bool) (column : String) :
    (ValueTimestampFits v tz →
        parseTimestampChecked v tz column = some (parseTimestamp v tz column))
      ∧ (¬ValueTimestampFits v tz → parseTimestampChecked v tz column = none) := by
  cases hutf8 : fromUtf8 v with
  | none =>
    have hfits : ValueTimestampFits v tz := by
      intro s hs
      rw [hutf8] at hs
      cases hs
    refine ⟨fun _ => ?_, fun h => absurd hfits h⟩
    rw [parseTimestampChecked, parseTimestamp, trimmed, hutf8]
  | some s =>
    by_cases hfinite : trim s = "infinity".toList ∨ trim s = "-infinity".toList
    · refine ⟨fun _ => ?_, fun h => absurd (valueTimestampFits_infinite hutf8 hfinite tz) h⟩
      rw [parseTimestamp_infinite hutf8 hfinite, parseTimestampChecked, trimmed, hutf8]
      exact if_pos hfinite
    · have hvalue : ValueTimestampFits v tz ↔ (tz = true → OffsetFits (splitEra (trim s)).1)
          ∧ ((clockFields (trim (timestampPieces tz s).2)).isSome →
            DateFits (timestampPieces tz s).1 (splitEra (trim s)).2) := by
        rw [ValueTimestampFits, hutf8]
        exact ⟨fun h => h s rfl, by rintro h _ ⟨⟩; exact h⟩
      rw [hvalue, parseTimestamp_eq hutf8 hfinite, parseTimestampChecked, trimmed, hutf8]
      simp only [if_neg hfinite]
      obtain ⟨hbody, hoverflow⟩ := timestampBodyChecked_spec tz s
      by_cases hoffset : tz = true → OffsetFits (splitEra (trim s)).1
      · obtain ⟨offset, hsplit, hread, hbounds⟩ := hbody hoffset
        have hpieces : (splitOnce ' ' (timestampBody tz s).1).getD
            ((timestampBody tz s).1, "00:00:00".toList) = timestampPieces tz s := rfl
        rw [hsplit, Option.bind_some, hread, hpieces]
        have hrest := timestampRestChecked_spec (splitEra (trim s)).2 hbounds (timestampPieces tz s)
          column
        exact ⟨fun h => hrest.1 h.2, fun h => hrest.2 fun h' => h ⟨hoffset, h'⟩⟩
      · rw [hoverflow hoffset]
        exact ⟨fun h => absurd h.1 hoffset, fun _ => rfl⟩

/-! ### Every value -/

theorem exists_iff_and_eq_of_spec {α : Type} {checked : Option α} {r : α} {fits : Prop}
    (h : fits → checked = some r) (h' : ¬fits → checked = none) :
    ((∃ a, checked = some a) ↔ fits) ∧ ∀ a, checked = some a → r = a := by
  by_cases hfits : fits
  · rw [h hfits]
    exact ⟨⟨fun _ => hfits, fun _ => ⟨r, rfl⟩⟩, fun a ha => Option.some.inj ha⟩
  · rw [h' hfits]
    refine ⟨⟨?_, fun hf => absurd hf hfits⟩, fun a ha => by cases ha⟩
    rintro ⟨a, ha⟩
    cases ha

/-- No operation on a value overflows exactly when its date, its offset and the
sum of its time and a western offset fit, and then the wrapping arithmetic
reads what exact arithmetic reads. -/
theorem temporal_exact_iff (v : Bytes) (tz : Bool) (column : String) :
    ((∃ r, parseDateChecked v column = some r) ↔ ValueDateFits v)
      ∧ ((∃ r, parseTimeChecked v column = some r) ↔ ValueTimeFits v)
      ∧ ((∃ r, parseTimestampChecked v tz column = some r) ↔ ValueTimestampFits v tz)
      ∧ (∀ r, parseDateChecked v column = some r → parseDate v column = r)
      ∧ (∀ r, parseTimeChecked v column = some r → parseTime v column = r)
      ∧ ∀ r, parseTimestampChecked v tz column = some r → parseTimestamp v tz column = r := by
  obtain ⟨hdate, hdate'⟩ := parseDateChecked_spec v column
  obtain ⟨htime, htime'⟩ := parseTimeChecked_spec v column
  obtain ⟨hstamp, hstamp'⟩ := parseTimestampChecked_spec v tz column
  obtain ⟨hdate, hdate''⟩ := exists_iff_and_eq_of_spec hdate hdate'
  obtain ⟨htime, htime''⟩ := exists_iff_and_eq_of_spec htime htime'
  obtain ⟨hstamp, hstamp''⟩ := exists_iff_and_eq_of_spec hstamp hstamp'
  exact ⟨hdate, htime, hstamp, hdate'', htime'', hstamp''⟩

/-- A year whose days overflow is read as a day of the year 2002, an offset
that overflows as one of an hour. -/
theorem temporal_exact_counterexample :
    parseDateChecked (ascii "50505469855535112-01-01") "on" = none
      ∧ parseDate (ascii "50505469855535112-01-01") "on" = .ok (some 12000)
      ∧ parseTimeChecked (ascii "00:00:00+9223372036854775807") "at" = none
      ∧ parseTime (ascii "00:00:00+9223372036854775807") "at" = .ok (some 3600000000) := by
  decide +kernel

end PgDelta.Values
