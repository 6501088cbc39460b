import PgDelta.Anonymise.Escapes

/-!
The fields of the kinds that have rules, and what becomes of them.

What is made of such a field is no longer than the field, is written in
printable characters of ASCII, and has neither a separator nor a backslash.
-/

namespace PgDelta.Anonymise

open PgDelta.Lib PgDelta.Values

/-! ### What the patterns match -/

theorem skipDigits_spec {n : ℕ} {s rest : Bytes} (h : skipDigits n s = some rest) :
    ∃ ds, s = ds ++ rest ∧ ds.length = n ∧ ∀ d ∈ ds, isAsciiDigit d = true := by
  induction n generalizing s with
  | zero =>
      obtain rfl := Option.some.inj h
      exact ⟨[], rfl, rfl, by simp⟩
  | succ n ih =>
      cases s with
      | nil => cases h
      | cons c s =>
          rw [skipDigits] at h
          split_ifs at h with hc
          obtain ⟨ds, rfl, hlen, hds⟩ := ih h
          exact ⟨c :: ds, rfl, by simp [hlen], by simpa using ⟨hc, hds⟩⟩

theorem skipOne_spec {p : UInt8 → Bool} {s rest : Bytes} (h : skipOne p s = some rest) :
    ∃ c, s = c :: rest ∧ p c = true := by
  cases s with
  | nil => cases h
  | cons c s =>
      rw [skipOne] at h
      split_ifs at h with hc
      obtain rfl := Option.some.inj h
      exact ⟨c, rfl, hc⟩

/-- A date is ten bytes, of which the first is a digit. -/
theorem skipDate_spec {s rest : Bytes} (h : skipDate s = some rest) :
    s.length = 10 + rest.length ∧ ∃ d t, s = d :: t ∧ isAsciiDigit d = true := by
  simp only [skipDate, Option.bind_eq_bind, Option.bind_eq_some_iff] at h
  obtain ⟨r₁, hyear, r₂, hdash, r₃, hmonth, r₄, hdash', hday⟩ := h
  obtain ⟨year, rfl, hylen, hy⟩ := skipDigits_spec hyear
  obtain ⟨c, rfl, -⟩ := skipOne_spec hdash
  obtain ⟨month, rfl, hmlen, -⟩ := skipDigits_spec hmonth
  obtain ⟨c', rfl, -⟩ := skipOne_spec hdash'
  obtain ⟨day, rfl, hdlen, -⟩ := skipDigits_spec hday
  cases year with
  | nil => simp at hylen
  | cons d year =>
      refine ⟨?_, d, _, rfl, hy d (by simp)⟩
      simp only [List.length_append, List.length_cons] at hylen ⊢
      omega

theorem looksLikeDate_spec {s : Bytes} (h : looksLikeDate s = true) :
    s.length = 10 ∧ ∃ d t, s = d :: t ∧ isAsciiDigit d = true := by
  obtain ⟨hlen, hd⟩ := skipDate_spec (by simpa [looksLikeDate] using h)
  exact ⟨by simpa using hlen, hd⟩

theorem looksLikeTimestamp_spec {s : Bytes} (h : looksLikeTimestamp s = true) :
    19 ≤ s.length ∧ ∃ d t, s = d :: t ∧ isAsciiDigit d = true := by
  rw [looksLikeTimestamp, Option.any_eq_true] at h
  obtain ⟨rest, h, -⟩ := h
  simp only [Option.bind_eq_some_iff] at h
  obtain ⟨r₁, ⟨r₂, hdate, hsep⟩, hclock⟩ := h
  obtain ⟨hlen, hd⟩ := skipDate_spec hdate
  refine ⟨?_, hd⟩
  obtain ⟨c, rfl, -⟩ := skipOne_spec hsep
  simp only [skipClock, Option.bind_eq_bind, Option.bind_eq_some_iff] at hclock
  obtain ⟨r₁, hhour, r₂, hcolon, r₃, hminute, r₄, hcolon', hsecond⟩ := hclock
  obtain ⟨hour, rfl, hhlen, -⟩ := skipDigits_spec hhour
  obtain ⟨c, rfl, -⟩ := skipOne_spec hcolon
  obtain ⟨minute, rfl, hmlen, -⟩ := skipDigits_spec hminute
  obtain ⟨c', rfl, -⟩ := skipOne_spec hcolon'
  obtain ⟨second, rfl, hslen, -⟩ := skipDigits_spec hsecond
  simp only [List.length_append, List.length_cons] at hlen
  omega

/-- The parts of a number. -/
structure NumberForm where
  sign : Bytes
  whole : Bytes
  frac : Bytes
  sign_eq : sign = [] ∨ sign = [43] ∨ sign = [45]
  whole_ne : whole ≠ []
  whole_digits : ∀ d ∈ whole, isAsciiDigit d = true
  frac_digits : ∀ d ∈ frac, isAsciiDigit d = true

namespace NumberForm

/-- The point and the digits behind it, where there are any. -/
def tail (x : NumberForm) : Bytes := if x.frac = [] then [] else 46 :: x.frac

def text (x : NumberForm) : Bytes := x.sign ++ (x.whole ++ x.tail)

end NumberForm

theorem takeWhile_digits (s : Bytes) : ∀ d ∈ s.takeWhile isAsciiDigit, isAsciiDigit d = true :=
  fun _ hd => List.mem_takeWhile_imp hd

theorem skipSign_spec (s : Bytes) :
    ∃ sign, s = sign ++ skipSign s ∧ (sign = [] ∨ sign = [43] ∨ sign = [45]) := by
  unfold skipSign
  cases hs : skipOne isSign s with
  | none => exact ⟨[], rfl, .inl rfl⟩
  | some rest =>
      obtain ⟨c, rfl, hc⟩ := skipOne_spec hs
      refine ⟨[c], rfl, .inr ?_⟩
      simpa [isSign] using hc

/-- Text that the fraction leaves nothing of. -/
theorem skipFraction_eq_nil {s : Bytes} (h : skipFraction s = []) :
    s = [] ∨ ∃ frac, frac ≠ [] ∧ s = 46 :: frac ∧ ∀ d ∈ frac, isAsciiDigit d = true := by
  unfold skipFraction at h
  cases hs : (skipOne (· == 46) s).bind (skipDigits 1) with
  | none =>
      rw [hs] at h
      exact .inl h
  | some rest =>
      simp only [hs] at h
      obtain ⟨t, hpoint, hdigit⟩ := Option.bind_eq_some_iff.1 hs
      obtain ⟨c, rfl, hc⟩ := skipOne_spec hpoint
      obtain ⟨ds, rfl, hlen, hds⟩ := skipDigits_spec hdigit
      obtain rfl : c = 46 := by simpa using hc
      refine .inr ⟨ds ++ rest, fun hnil => ?_, rfl, fun d hd => ?_⟩
      · rw [(List.append_eq_nil_iff.1 hnil).1] at hlen
        cases hlen
      · rcases List.mem_append.1 hd with hd | hd
        · exact hds d hd
        · have hall := List.dropWhile_eq_nil_iff.1 h
          exact hall d hd

theorem looksLikeNumber_spec {s : Bytes} (h : looksLikeNumber s = true) :
    ∃ x : NumberForm, s = x.text := by
  rw [looksLikeNumber, beq_iff_eq, Option.map_eq_some_iff] at h
  obtain ⟨rest, hdigit, hfraction⟩ := h
  obtain ⟨sign, hsign, hform⟩ := skipSign_spec s
  obtain ⟨ds, hskip, hlen, hds⟩ := skipDigits_spec hdigit
  have hne : ds ++ rest.takeWhile isAsciiDigit ≠ [] := fun hnil => by
    rw [(List.append_eq_nil_iff.1 hnil).1] at hlen
    cases hlen
  have hwhole : ∀ d ∈ ds ++ rest.takeWhile isAsciiDigit, isAsciiDigit d = true := fun d hd =>
    (List.mem_append.1 hd).elim (hds d) (takeWhile_digits rest d)
  have hsplit : s = sign ++ (ds ++ rest.takeWhile isAsciiDigit ++ rest.dropWhile isAsciiDigit) := by
    rw [List.append_assoc, List.takeWhile_append_dropWhile, ← hskip]
    exact hsign
  rcases skipFraction_eq_nil hfraction with hnil | ⟨frac, hfrac, hpoint, hdigits⟩
  · refine ⟨⟨sign, _, [], hform, hne, hwhole, by simp⟩, ?_⟩
    rw [hsplit, hnil]
    rfl
  · refine ⟨⟨sign, _, frac, hform, hne, hwhole, hdigits⟩, ?_⟩
    rw [hsplit, hpoint, NumberForm.text, NumberForm.tail, if_neg hfrac]

theorem isSign_digit {d : UInt8} (h : isAsciiDigit d = true) : isSign d = false := by
  have hbounds := isAsciiDigit_iff.1 h
  rw [Bool.eq_false_iff]
  intro hsign
  rcases (by simpa [isSign] using hsign : d = 43 ∨ d = 45) with rfl | rfl
  · exact absurd hbounds.1 (by decide)
  · exact absurd hbounds.1 (by decide)

theorem point_of_digit {d : UInt8} (h : isAsciiDigit d = true) : (d != 46) = true := by
  rw [bne_iff_ne]
  rintro rfl
  exact absurd h (by decide)

namespace NumberForm

theorem unsigned (x : NumberForm) : x.text.dropWhile isSign = x.whole ++ x.tail := by
  obtain ⟨d, whole, hwhole⟩ := List.exists_cons_of_ne_nil x.whole_ne
  have hd := isSign_digit (x.whole_digits d (by simp [hwhole]))
  have hrest : (x.whole ++ x.tail).dropWhile isSign = x.whole ++ x.tail := by
    rw [hwhole, List.cons_append, List.dropWhile_cons_of_neg (by simp [hd])]
  rcases x.sign_eq with h | h | h
  · rw [text, h, List.nil_append, hrest]
  · rw [text, h, List.singleton_append, List.dropWhile_cons_of_pos (by decide), hrest]
  · rw [text, h, List.singleton_append, List.dropWhile_cons_of_pos (by decide), hrest]

theorem wholeDigits_text (x : NumberForm) : wholeDigits x.text = x.whole := by
  have hall : ∀ d ∈ x.whole, (d != 46) = true := fun d hd => point_of_digit (x.whole_digits d hd)
  rw [wholeDigits, x.unsigned, List.takeWhile_append_of_pos hall, tail]
  split_ifs with h
  · simp
  · simp

theorem fracDigits_text (x : NumberForm) : fracDigits x.text = x.frac := by
  have hall : ∀ d ∈ x.whole, (d != 46) = true := fun d hd => point_of_digit (x.whole_digits d hd)
  rw [fracDigits, x.unsigned, List.dropWhile_append_of_pos hall, tail]
  split_ifs with h
  · simp [h]
  · simp

theorem head_text (x : NumberForm) : x.text.head? = some 45 ↔ x.sign = [45] := by
  obtain ⟨d, whole, hwhole⟩ := List.exists_cons_of_ne_nil x.whole_ne
  have hd := isSign_digit (x.whole_digits d (by simp [hwhole]))
  have hne : d ≠ 45 := by
    rintro rfl
    exact absurd hd (by decide)
  rcases x.sign_eq with h | h | h <;> simp [text, h, hwhole, hne]

end NumberForm

theorem synthWhole_spec (noise : Noise) (width : ℕ) :
    (synthWhole noise width).length = width
      ∧ ∀ d ∈ synthWhole noise width, isAsciiDigit d = true := by
  refine ⟨by simp [synthWhole], fun d hd => ?_⟩
  obtain ⟨i, -, rfl⟩ := List.mem_map.1 hd
  refine isAsciiDigit_digit ?_
  split_ifs
  · have := noise.pick_lt i (show 0 < 9 by omega)
    omega
  · exact noise.pick_lt i (by omega)

/-- A number becomes one with as many digits on both sides of its point. Of its
sign, a plus is left out. -/
theorem synthNumber_form (x : NumberForm) (noise : Noise) :
    ∃ y : NumberForm, synthNumber x.text noise = y.text
      ∧ y.sign = (if x.sign = [45] then [45] else [])
      ∧ y.whole.length = x.whole.length ∧ y.frac.length = x.frac.length := by
  obtain ⟨hlen, hdigits⟩ := synthWhole_spec noise x.whole.length
  have hfrac : ∀ d ∈ (List.range x.frac.length).map (fun i => digit (noise.pick (20 + i) 10)),
      isAsciiDigit d = true := by
    intro d hd
    obtain ⟨i, -, rfl⟩ := List.mem_map.1 hd
    exact isAsciiDigit_digit (noise.pick_lt _ (by omega))
  refine ⟨⟨if x.sign = [45] then [45] else [], synthWhole noise x.whole.length,
    (List.range x.frac.length).map fun i => digit (noise.pick (20 + i) 10), ?_, ?_, hdigits,
    hfrac⟩, ?_, rfl, hlen, by simp⟩
  · split_ifs
    · exact .inr (.inr rfl)
    · exact .inl rfl
  · refine List.ne_nil_of_length_pos ?_
    rw [hlen]
    exact List.length_pos_of_ne_nil x.whole_ne
  · unfold synthNumber
    simp only [x.wholeDigits_text, x.fracDigits_text, x.head_text]
    simp only [NumberForm.text, NumberForm.tail, synthFrac, List.append_assoc]
    by_cases h : x.frac = []
    · simp [h]
    · have hne : x.frac.length ≠ 0 := by simpa using h
      simp [hne]

/-! ### What is made of a field -/

/-- What a field of a kind with rules becomes. -/
inductive Made (noise : Noise) : FieldKind → Bytes → Bytes → Prop
  | boolean {a b : Bytes} : a = [116] ∨ a = [102] → b = [116] ∨ b = [102] →
      Made noise .boolean a b
  | date {a : Bytes} : looksLikeDate a = true → Made noise .date a (encoded (date noise))
  | timestamp {a : Bytes} : looksLikeTimestamp a = true →
      Made noise .timestamp a (encoded (Anonymise.date noise ++ ' ' :: clock noise))
  | number (x y : NumberForm) : y.sign = (if x.sign = [45] then [45] else []) →
      y.whole.length = x.whole.length → y.frac.length = x.frac.length →
      Made noise .number x.text y.text

theorem typed_made {noise : Noise} {a b : Bytes} (h : typed a noise = some b) :
    Made noise (kind a) a b := by
  unfold typed at h
  unfold kind
  split_ifs at h ⊢ with hboolean hpick hdate htimestamp hnumber
  · exact .boolean hboolean (.inl (Option.some.inj h).symm)
  · exact .boolean hboolean (.inr (Option.some.inj h).symm)
  · obtain rfl := Option.some.inj h
    exact .date hdate
  · obtain rfl := Option.some.inj h
    exact .timestamp htimestamp
  · obtain ⟨x, rfl⟩ := looksLikeNumber_spec hnumber
    obtain ⟨y, hy, hsign, hwhole, hfrac⟩ := synthNumber_form x noise
    obtain rfl := Option.some.inj h
    rw [hy]
    exact .number x y hsign hwhole hfrac

/-- A field is of a kind that has rules, or it is replaced byte by byte. -/
theorem Synth.field_cases (synth : Synth) (table : String) (column row : ℕ) (a : Bytes) :
    ∃ noise, Made noise (kind a) a (synth.field table column row a)
      ∨ (kind a = .other ∧ Replaced a (synth.field table column row a)) := by
  unfold Synth.field
  generalize synth.stream _ = noise
  refine ⟨noise, ?_⟩
  cases h : typed a noise with
  | some b => exact .inl (by simpa [h] using typed_made h)
  | none =>
      refine .inr ⟨?_, by simpa [h, byCharacterClass] using replaceFrom_replaced noise 0 a⟩
      rw [typed_eq] at h
      cases hkind : kind a with
      | other => rfl
      | _ => simp [hkind] at h

/-- A byte that may stand in what is made of a field. -/
def Printable (y : UInt8) : Prop := 32 ≤ y.toNat ∧ y.toNat < 127 ∧ y ≠ backslash

instance (y : UInt8) : Decidable (Printable y) := inferInstanceAs (Decidable (_ ∧ _ ∧ _))

theorem printable_of_digit {d : UInt8} (h : isAsciiDigit d = true) : Printable d := by
  have hbounds := isAsciiDigit_iff.1 h
  refine ⟨by omega, by omega, ?_⟩
  rintro rfl
  exact absurd h (by decide)

theorem NumberForm.printable (x : NumberForm) : ∀ y ∈ x.text, Printable y := by
  intro y hy
  rw [text, tail, List.mem_append, List.mem_append] at hy
  rcases hy with hy | hy | hy
  · rcases x.sign_eq with h | h | h
    · simp [h] at hy
    · obtain rfl : y = 43 := by simpa [h] using hy
      decide
    · obtain rfl : y = 45 := by simpa [h] using hy
      decide
  · exact printable_of_digit (x.whole_digits y hy)
  · split_ifs at hy
    · cases hy
    · rcases List.mem_cons.1 hy with rfl | hy
      · decide
      · exact printable_of_digit (x.frac_digits y hy)

/-- A character that is written as one printable byte. -/
def PlainChar (c : Char) : Prop := isDigitChar c = true ∨ c = '-' ∨ c = ':' ∨ c = ' '

theorem PlainChar.printable {c : Char} (h : PlainChar c) :
    c.toNat < 128 ∧ Printable c.toNat.toUInt8 := by
  rcases h with h | rfl | rfl | rfl
  · have hbounds := isDigitChar_iff.1 h
    have hbyte : (c.toNat.toUInt8).toNat = c.toNat := Nat.mod_eq_of_lt (by omega)
    refine ⟨by omega, printable_of_digit ?_⟩
    rw [isAsciiDigit_iff, hbyte]
    exact hbounds
  · exact ⟨by decide, by decide⟩
  · exact ⟨by decide, by decide⟩
  · exact ⟨by decide, by decide⟩

theorem plain_padded (width n : ℕ) : ∀ c ∈ padded width n, PlainChar c := fun c hc =>
  .inl (List.all_eq_true.1 (padded_all width n) c hc)

theorem plain_date (noise : Noise) : ∀ c ∈ date noise, PlainChar c := by
  intro c hc
  simp only [date, isoDate, List.mem_append, List.mem_cons] at hc
  rcases hc with hc | rfl | hc | rfl | hc
  · exact plain_padded _ _ c hc
  · exact .inr (.inl rfl)
  · exact plain_padded _ _ c hc
  · exact .inr (.inl rfl)
  · exact plain_padded _ _ c hc

theorem plain_clock (noise : Noise) : ∀ c ∈ clock noise, PlainChar c := by
  intro c hc
  simp only [clock, List.mem_append, List.mem_cons] at hc
  rcases hc with hc | rfl | hc | rfl | hc
  · exact plain_padded _ _ c hc
  · exact .inr (.inr (.inl rfl))
  · exact plain_padded _ _ c hc
  · exact .inr (.inr (.inl rfl))
  · exact plain_padded _ _ c hc

theorem length_date (noise : Noise) : (date noise).length = 10 := by
  have hyear := noise.pick_lt 0 (show 0 < 60 by omega)
  have hmonth := noise.pick_lt 1 (show 0 < 12 by omega)
  have hday := noise.pick_lt 2 (show 0 < 28 by omega)
  simp only [date, isoDate, List.length_append, List.length_cons]
  rw [length_padded (by omega) (by omega), length_padded (by omega) (by omega),
    length_padded (by omega) (by omega)]

theorem length_clock (noise : Noise) : (clock noise).length = 8 := by
  have hhour := noise.pick_lt 6 (show 0 < 24 by omega)
  have hminute := noise.pick_lt 7 (show 0 < 60 by omega)
  have hsecond := noise.pick_lt 8 (show 0 < 60 by omega)
  simp only [clock, List.length_append, List.length_cons]
  rw [length_padded (by omega) (by omega), length_padded (by omega) (by omega),
    length_padded (by omega) (by omega)]

theorem printable_encoded {s : Text} (h : ∀ c ∈ s, PlainChar c) : ∀ y ∈ encoded s, Printable y := by
  intro y hy
  obtain ⟨c, hc, rfl⟩ := List.mem_map.1 hy
  exact (h c hc).printable.2

/-- What is made of a field is printable and no longer than the field. -/
theorem Made.spec {noise : Noise} {kind : FieldKind} {a b : Bytes} (h : Made noise kind a b) :
    b.length ≤ a.length ∧ ∀ y ∈ b, Printable y := by
  cases h with
  | boolean ha hb =>
      refine ⟨by rcases ha with rfl | rfl <;> rcases hb with rfl | rfl <;> simp, ?_⟩
      rcases hb with rfl | rfl
      · rw [List.forall_mem_singleton]
        decide
      · rw [List.forall_mem_singleton]
        decide
  | date ha =>
      obtain ⟨hlen, -⟩ := looksLikeDate_spec ha
      refine ⟨?_, printable_encoded (plain_date noise)⟩
      rw [encoded, List.length_map, length_date, hlen]
  | timestamp ha =>
      obtain ⟨hlen, -⟩ := looksLikeTimestamp_spec ha
      refine ⟨?_, printable_encoded fun c hc => ?_⟩
      · rw [encoded, List.length_map, List.length_append, List.length_cons, length_date,
          length_clock]
        exact hlen
      · rcases List.mem_append.1 hc with hc | hc
        · exact plain_date noise c hc
        · rcases List.mem_cons.1 hc with rfl | hc
          · exact .inr (.inr (.inr rfl))
          · exact plain_clock noise c hc
  | number x y hsign hwhole hfrac =>
      refine ⟨?_, y.printable⟩
      have hsigns : y.sign.length ≤ x.sign.length := by
        rw [hsign]
        split_ifs with h
        · simp [h]
        · simp
      have htail : y.tail.length = x.tail.length := by
        unfold NumberForm.tail
        by_cases h : x.frac = []
        · have h' : y.frac = [] := List.eq_nil_of_length_eq_zero (by simp [hfrac, h])
          simp [h, h']
        · have h' : y.frac ≠ [] :=
            fun h' => h (List.eq_nil_of_length_eq_zero (by simp [← hfrac, h']))
          simp [h, h', hfrac]
      simp only [NumberForm.text, List.length_append]
      omega

end PgDelta.Anonymise
