import PgDelta.Anonymise.Columns
import PgDelta.Types.ArrayValues

/-!
Native arrays whose bytes are replaced one by one.

Braces, commas, quotes and white space are kept, so that a literal splits into
as many elements as before. An element is made of the bytes that stand for its
own, and the word for NULL may be lost or gained.
-/

namespace PgDelta.Anonymise

open PgDelta.Lib PgDelta.Copy PgDelta.Values PgDelta.Builders

/-! ### Splitting a literal -/

/-- A relation of bytes that keeps whatever bytes are kept when a field is
replaced. -/
def Keeps (R : UInt8 → UInt8 → Prop) : Prop :=
  ∀ x y c, R x y → carriedByte c = some c → (y = c ↔ x = c)

variable {R : UInt8 → UInt8 → Prop}

theorem Keeps.bool (hR : Keeps R) {p : UInt8 → Bool} (cs : Bytes)
    (hcs : cs.map carriedByte = cs.map some) (hp : ∀ x, p x = cs.contains x) {x y : UInt8}
    (h : R x y) : p x = p y := by
  rw [hp, hp, Bool.eq_iff_iff, List.contains_iff_mem, List.contains_iff_mem]
  constructor
  · intro hx
    have hy : y = x := (hR x y x h (List.map_inj_left.1 hcs x hx)).2 rfl
    rwa [hy]
  · intro hy
    have hx : x = y := (hR x y y h (List.map_inj_left.1 hcs y hy)).1 rfl
    rwa [hx]

theorem isAsciiWhitespace_keeps (hR : Keeps R) {x y : UInt8} (h : R x y) :
    isAsciiWhitespace x = isAsciiWhitespace y := by
  refine hR.bool [32, 9, 10, 12, 13] (by decide) (fun x => ?_) h
  rw [Bool.eq_iff_iff]
  simp [isAsciiWhitespace, or_assoc]

theorem stops_keeps (hR : Keeps R) {x y : UInt8} (h : R x y) : stops x = stops y := by
  refine hR.bool [44, 125, 32, 9, 10, 12, 13] (by decide) (fun x => ?_) h
  rw [Bool.eq_iff_iff]
  simp [stops, isAsciiWhitespace, or_assoc]

theorem forall₂_trimAsciiStart (hR : Keeps R) {s t : Bytes} (h : List.Forall₂ R s t) :
    List.Forall₂ R (trimAsciiStart s) (trimAsciiStart t) :=
  forall₂_dropWhile (R := R) (fun _ _ => isAsciiWhitespace_keeps hR) h

theorem takeQuotedElement_keeps (hR : Keeps R) {out out' s t element rest : Bytes}
    (hout : List.Forall₂ R out out') (h : List.Forall₂ R s t)
    (hs : takeQuotedElement out s = some (element, rest)) :
    ∃ element' rest', takeQuotedElement out' t = some (element', rest')
      ∧ List.Forall₂ R element element' ∧ List.Forall₂ R rest rest' := by
  have hquote : carriedByte elementQuote = some elementQuote := by decide
  have hslash : carriedByte backslash = some backslash := by decide
  induction out, s using takeQuotedElement.induct generalizing out' t with
  | case1 out => cases hs
  | case2 out s =>
      obtain ⟨y, t, hy, hst, rfl⟩ := List.forall₂_cons_left_iff.1 h
      obtain rfl : y = elementQuote := (hR _ _ _ hy hquote).2 rfl
      rw [show (34 : UInt8) = elementQuote from rfl, takeQuotedElement_close] at hs
      obtain ⟨rfl, rfl⟩ := Prod.mk.inj (Option.some.inj hs)
      exact ⟨out', t, takeQuotedElement_close out' t, hout, hst⟩
  | case3 out hne => cases hs
  | case4 out escaped s hne ih =>
      obtain ⟨y, t, hy, hrest, rfl⟩ := List.forall₂_cons_left_iff.1 h
      obtain ⟨e, t, he, hst, rfl⟩ := List.forall₂_cons_left_iff.1 hrest
      obtain rfl : y = backslash := (hR _ _ _ hy hslash).2 rfl
      rw [takeQuotedElement_escape] at hs ⊢
      exact ih (List.rel_append hout (.cons he .nil)) hst hs
  | case5 out c s hne hne' ih =>
      obtain ⟨y, t, hy, hst, rfl⟩ := List.forall₂_cons_left_iff.1 h
      rw [takeQuotedElement_literal hne hne'] at hs
      rw [takeQuotedElement_literal (fun hq => hne ((hR _ _ _ hy hquote).1 hq))
        fun hq => hne' ((hR _ _ _ hy hslash).1 hq)]
      exact ih (List.rel_append hout (.cons hy .nil)) hst hs

def word (raw : Bytes) : Option Bytes := if raw = ascii "NULL" then none else some raw

/-- An element, and what may come of it. -/
inductive ElementStands (R : UInt8 → UInt8 → Prop) : Option Bytes → Option Bytes → Prop
  | quoted {x y : Bytes} : List.Forall₂ R x y → ElementStands R (some x) (some y)
  | word {x y : Bytes} : List.Forall₂ R x y → ElementStands R (Anonymise.word x) (Anonymise.word y)

theorem takeElement_word {s : Bytes} (h : s.head? ≠ some elementQuote) :
    takeElement s = some (word (s.takeWhile fun c => !stops c), s.dropWhile fun c => !stops c) := by
  cases s with
  | nil => rfl
  | cons c s => exact takeElement_of_ne (by simpa using h) s

theorem takeElement_quoted (s : Bytes) :
    takeElement (elementQuote :: s) = (takeQuotedElement [] s).map fun a => (some a.1, a.2) := rfl

theorem takeElement_keeps (hR : Keeps R) {s t rest : Bytes} {element : Option Bytes}
    (h : List.Forall₂ R s t) (hs : takeElement s = some (element, rest)) :
    ∃ element' rest', takeElement t = some (element', rest')
      ∧ ElementStands R element element' ∧ List.Forall₂ R rest rest' := by
  have hquote : carriedByte elementQuote = some elementQuote := by decide
  by_cases hhead : s.head? = some elementQuote
  · obtain ⟨s, rfl⟩ := List.head?_eq_some_iff.1 hhead
    obtain ⟨y, t, hy, hst, rfl⟩ := List.forall₂_cons_left_iff.1 h
    obtain rfl : y = elementQuote := (hR _ _ _ hy hquote).2 rfl
    rw [takeElement_quoted] at hs
    obtain ⟨⟨e, r⟩, he, heq⟩ := Option.map_eq_some_iff.1 hs
    obtain ⟨rfl, rfl⟩ := Prod.mk.inj heq
    obtain ⟨e', r', he', hee, hrr⟩ := takeQuotedElement_keeps hR .nil hst he
    exact ⟨some e', r', by rw [takeElement_quoted, he']; rfl, .quoted hee, hrr⟩
  · have hhead' : t.head? ≠ some elementQuote := by
      cases h with
      | nil => simp
      | cons hxy h =>
          intro hq
          exact hhead (by simpa using (hR _ _ _ hxy hquote).1 (by simpa using hq))
    rw [takeElement_word hhead] at hs
    obtain ⟨rfl, rfl⟩ := Prod.mk.inj (Option.some.inj hs)
    have hstops : ∀ x y, R x y → (!stops x) = !stops y := fun x y hxy => by
      rw [stops_keeps hR hxy]
    exact ⟨_, _, takeElement_word hhead', .word (forall₂_takeWhile (R := R) hstops h),
      forall₂_dropWhile (R := R) hstops h⟩

theorem arrayElementsLoop_keeps (hR : Keeps R) {fuel : ℕ} {s t : Bytes}
    {done done' es : List (Option Bytes)} (hdone : List.Forall₂ (ElementStands R) done done')
    (h : List.Forall₂ R s t) (hs : arrayElementsLoop fuel s done = some es) :
    ∃ fs, arrayElementsLoop fuel t done' = some fs ∧ List.Forall₂ (ElementStands R) es fs := by
  have hcomma : carriedByte arrayComma = some arrayComma := by decide
  induction fuel generalizing s t done done' with
  | zero =>
      obtain rfl := Option.some.inj hs
      exact ⟨done', rfl, hdone⟩
  | succ fuel ih =>
      rw [arrayElementsLoop] at hs ⊢
      cases helement : takeElement (trimAsciiStart s) with
      | none => simp [helement] at hs
      | some a =>
          obtain ⟨element, rest⟩ := a
          obtain ⟨element', rest', helement', hee, hrest⟩ :=
            takeElement_keeps hR (forall₂_trimAsciiStart hR h) helement
          have hbehind := forall₂_trimAsciiStart hR hrest
          have hmore : List.Forall₂ (ElementStands R) (done ++ [element]) (done' ++ [element']) :=
            List.rel_append hdone (.cons hee .nil)
          simp only [helement] at hs
          simp only [helement']
          generalize trimAsciiStart rest = behind at hbehind hs
          generalize trimAsciiStart rest' = behind' at hbehind ⊢
          cases hbehind with
          | nil =>
              obtain rfl := Option.some.inj hs
              exact ⟨_, rfl, hmore⟩
          | @cons x y behind behind' hxy hbehind =>
              have heq := hR x y arrayComma hxy hcomma
              dsimp only at hs ⊢
              by_cases hx : x = arrayComma
              · rw [if_pos (show x = 44 from hx)] at hs
                rw [if_pos (show y = 44 from heq.2 hx)]
                exact ih hmore hbehind hs
              · rw [if_neg (show ¬x = 44 from hx)] at hs
                cases hs

theorem Keeps.head? (hR : Keeps R) {v w : Bytes} (h : List.Forall₂ R v w) {c : UInt8}
    (hc : carriedByte c = some c) : w.head? = some c ↔ v.head? = some c := by
  cases h with
  | nil => rfl
  | cons hxy h => simpa using hR _ _ _ hxy hc

theorem Keeps.getLast? (hR : Keeps R) {v w : Bytes} (h : List.Forall₂ R v w) {c : UInt8}
    (hc : carriedByte c = some c) : w.getLast? = some c ↔ v.getLast? = some c := by
  rw [← List.head?_reverse, ← List.head?_reverse]
  exact hR.head? (List.forall₂_reverse_iff.2 h) hc

/-- What is made of a literal splits where the literal does. -/
theorem parseArrayElements_keeps (hR : Keeps R) {v w : Bytes} (h : List.Forall₂ R v w)
    {column : String} {es : List (Option Bytes)} (hv : parseArrayElements v column = .ok es) :
    ∃ fs, parseArrayElements w column = .ok fs ∧ List.Forall₂ (ElementStands R) es fs := by
  have hopen := hR.head? h (c := 123) (by decide)
  have hclose := hR.getLast? h (c := 125) (by decide)
  have hlen := h.length_eq
  have hinner : List.Forall₂ R v.tail.dropLast w.tail.dropLast := by
    rw [List.dropLast_eq_take, List.dropLast_eq_take, ← List.drop_one, ← List.drop_one,
      List.length_drop, List.length_drop, hlen]
    exact List.forall₂_take _ (List.forall₂_drop _ h)
  have hinnerLen := hinner.length_eq
  unfold parseArrayElements at hv ⊢
  by_cases hshape : v.head? ≠ some 123 ∨ v.getLast? ≠ some 125 ∨ v.length < 2
  · rw [if_pos hshape] at hv
    cases hv
  have hshape' : ¬(w.head? ≠ some 123 ∨ w.getLast? ≠ some 125 ∨ w.length < 2) := by
    rwa [Ne, Ne, hopen, hclose, ← hlen]
  rw [if_neg hshape] at hv
  rw [if_neg hshape']
  dsimp only at hv ⊢
  generalize v.tail.dropLast = inner at hinner hinnerLen hv
  generalize w.tail.dropLast = inner' at hinner hinnerLen ⊢
  cases hinner with
  | nil =>
      obtain rfl := Except.ok.inj hv
      exact ⟨[], rfl, .nil⟩
  | @cons x y inner inner' hxy hinner =>
      simp only [List.isEmpty_cons, Bool.false_eq_true, if_false] at hv ⊢
      rw [← hinnerLen]
      cases hloop : arrayElementsLoop ((x :: inner).length + 1) (x :: inner) [] with
      | none =>
          rw [hloop] at hv
          cases hv
      | some es' =>
          rw [hloop] at hv
          obtain rfl := Except.ok.inj hv
          obtain ⟨fs, hfs, hstands⟩ := arrayElementsLoop_keeps hR .nil (.cons hxy hinner) hloop
          exact ⟨fs, by rw [hfs], hstands⟩

/-! ### Reading the elements -/

/-- An element is read as what is made of it: the bytes that stand for its own,
or for the word NULL. -/
theorem ElementStands.read {type : Kind} {column : String} {e f : Option Bytes}
    (h : ElementStands R e f)
    (hvalue : ∀ x y, List.Forall₂ R x y → e = some x → ∃ r, type.parse y column = .ok r)
    (hnull : ∀ y, List.Forall₂ R (ascii "NULL") y → y ≠ ascii "NULL" →
      ∃ r, type.parse y column = .ok r) :
    ∃ r, type.readElement f column = .ok r := by
  cases h with
  | quoted h => exact hvalue _ _ h rfl
  | @word x y h =>
      by_cases hy : y = ascii "NULL"
      · exact ⟨none, by rw [Anonymise.word, if_pos hy]; rfl⟩
      · rw [Anonymise.word, if_neg hy]
        by_cases hx : x = ascii "NULL"
        · rw [hx] at h
          exact hnull y h hy
        · exact hvalue x y h (by rw [Anonymise.word, if_neg hx])

theorem keeps_redigitByte : Keeps RedigitByte := by
  rintro x y c (rfl | ⟨hx, hy⟩) hc
  · rfl
  · have hnot : ∀ {z : UInt8}, isAsciiDigit z = true → z ≠ c := by
      rintro z hz rfl
      simp [carriedByte, isDigitByte_of_ascii hz] at hc
    exact iff_of_false (hnot hy) (hnot hx)

/-- Without letters, the word NULL stays. -/
theorem eq_null_of_redigit {y : Bytes} (h : List.Forall₂ RedigitByte (ascii "NULL") y) :
    y = ascii "NULL" := by
  have hfree : ∀ x ∈ ascii "NULL", isAsciiDigit x = false := by decide +kernel
  generalize ascii "NULL" = s at h hfree
  induction h with
  | nil => rfl
  | @cons x y s t hxy h ih =>
      rw [ih fun z hz => hfree z (List.mem_cons_of_mem _ hz)]
      rcases hxy with rfl | ⟨hx, -⟩
      · rfl
      · rw [hfree x List.mem_cons_self] at hx
        cases hx

/-! ### Columns of arrays -/

/-- The elements of a field that a native array reads whatever stands for the
bytes of the field. -/
def ElementsWithstand (type : Kind) (raw : Bytes) (es : List (Option Bytes)) : Prop :=
  match type with
  | .boolean => False
  | .date => False
  | .timestamp _ => False
  | .time => DigitsAlone raw ∧ ∀ x, some x ∈ es → Brief x
  | .binary => ∀ x, some x ∈ es → Doubled x
  | .utf8 => ∀ x ∈ loose raw, isSuperscript x = false
  | type => DigitsAlone raw ∧ ∀ x, some x ∈ es → Narrow type x

/-- What may come of the bytes of a value, where those with a property are
replaced. -/
def StandsWhere (P : UInt8 → Prop) (x y : UInt8) : Prop := x = y ∨ (Stands x y ∧ P x)

theorem keeps_standsWhere (P : UInt8 → Prop) : Keeps (StandsWhere P) := by
  rintro x y c (rfl | ⟨h, -⟩) hc
  · rfl
  · exact h.eq_iff hc

theorem asciiOnly_standsWhere : AsciiOnly (StandsWhere fun x => isSuperscript x = false) := by
  have hsmall : ∀ {z : UInt8}, z.toNat ≤ 122 → z < 128 := fun hz => by
    rw [UInt8.lt_iff_toNat_lt]
    exact lt_of_le_of_lt hz (by decide)
  rintro x y (rfl | ⟨⟨hdigit, hy⟩ | ⟨hlower, hy⟩ | ⟨hupper, hy⟩ | ⟨-, rfl⟩, hx⟩)
  · exact .inl rfl
  · have hascii : isAsciiDigit x = true := by simpa [isSuperscript, hdigit] using hx
    exact .inr ⟨lt_of_isAsciiDigit hascii, lt_of_isAsciiDigit hy⟩
  · have hbounds := isLowerByte_iff.1 hlower
    have hbounds' := isLowerByte_iff.1 hy
    exact .inr ⟨hsmall (by omega), hsmall (by omega)⟩
  · have hbounds := isUpperByte_iff.1 hupper
    have hbounds' := isUpperByte_iff.1 hy
    exact .inr ⟨hsmall (by omega), hsmall (by omega)⟩
  · exact .inl rfl

theorem parse_utf8_stands {x y : Bytes}
    (h : List.Forall₂ (StandsWhere fun x => isSuperscript x = false) x y) {column : String}
    (hx : ∃ r, Kind.utf8.parse x column = .ok r) : ∃ r, Kind.utf8.parse y column = .ok r := by
  obtain ⟨t, rfl⟩ := (parse_utf8_iff x column).1 hx
  obtain ⟨u, rfl, -⟩ := text_of_forall₂ asciiOnly_standsWhere h
  exact (parse_utf8_iff _ column).2 ⟨u, rfl⟩

theorem Doubled.of_stands {P : UInt8 → Prop} {x y : Bytes} (hx : Doubled x)
    (h : List.Forall₂ (StandsWhere P) x y) : Doubled y := by
  have hslash : carriedByte backslash = some backslash := by decide
  have hkeeps := keeps_standsWhere P
  induction hx generalizing y with
  | nil =>
      obtain rfl := List.forall₂_nil_left_iff.1 h
      exact .nil
  | pair hx ih =>
      obtain ⟨a, y, ha, hrest, rfl⟩ := List.forall₂_cons_left_iff.1 h
      obtain ⟨b, y, hb, hbehind, rfl⟩ := List.forall₂_cons_left_iff.1 hrest
      obtain rfl := (hkeeps _ _ _ ha hslash).2 rfl
      obtain rfl := (hkeeps _ _ _ hb hslash).2 rfl
      exact .pair (ih hbehind)
  | byte hc hx ih =>
      obtain ⟨a, y, ha, hbehind, rfl⟩ := List.forall₂_cons_left_iff.1 h
      exact .byte (fun heq => hc ((hkeeps _ _ _ ha hslash).1 heq)) (ih hbehind)

/-- The elements of a field are read again, each on its own. -/
theorem reads_of_stands {type : Kind} {column : String} {es fs : List (Option Bytes)}
    (h : List.Forall₂ (ElementStands R) es fs)
    (hread : ∀ e f, e ∈ es → ElementStands R e f → (∃ r, type.readElement e column = .ok r) →
      ∃ r, type.readElement f column = .ok r)
    (hes : ∃ items, Reads type column es items) : ∃ items, Reads type column fs items := by
  obtain ⟨items, hitems⟩ := hes
  induction h generalizing items with
  | nil => exact ⟨[], .nil⟩
  | @cons e f es fs hef h ih =>
      obtain ⟨item, items, hitem, hrest, rfl⟩ := List.forall₂_cons_left_iff.1 hitems
      obtain ⟨r, hr⟩ := hread e f List.mem_cons_self hef ⟨item, hitem⟩
      obtain ⟨more, hmore⟩ := ih (fun e f he => hread e f (List.mem_cons_of_mem _ he)) items hrest
      exact ⟨r :: more, .cons hr hmore⟩

/-- A value that splits is split again where its bytes keep what is kept, and
the elements are read where each of them is read again. -/
theorem reads_of_keeps (hR : Keeps R) {type : Kind} {v w : Bytes} {column : String}
    {es : List (Option Bytes)} (h : List.Forall₂ R v w) (hes : parseArrayElements v column = .ok es)
    (hvalue : ∀ x y, some x ∈ es → List.Forall₂ R x y → (∃ r, type.parse x column = .ok r) →
      ∃ r, type.parse y column = .ok r)
    (hnull : ∀ y, List.Forall₂ R (ascii "NULL") y → y ≠ ascii "NULL" →
      ∃ r, type.parse y column = .ok r)
    (hread : ∃ items, Reads type column es items) :
    ∃ fs, parseArrayElements w column = .ok fs ∧ fs.length = es.length
      ∧ ∃ items, Reads type column fs items := by
  obtain ⟨fs, hfs, hstands⟩ := parseArrayElements_keeps hR h hes
  refine ⟨fs, hfs, hstands.length_eq.symm, reads_of_stands hstands ?_ hread⟩
  intro e f he hef hparse
  refine hef.read (fun x y hxy hx => ?_) hnull
  subst hx
  exact hvalue x y he hxy hparse

/-- A native array reads what stands for its field. -/
theorem ElementsWithstand.reads {type : Kind} (hheld : Held type) {a b v : Bytes} {column : String}
    (h : Replaced a b) (hlit : Literal a) (hv : resolve a = .ok v) {es : List (Option Bytes)}
    (hes : parseArrayElements v column = .ok es) (ha : ElementsWithstand type a es)
    (hread : ∃ items, Reads type column es items) :
    ∃ w, resolve b = .ok w ∧ ∃ fs, parseArrayElements w column = .ok fs ∧ fs.length = es.length
      ∧ ∃ items, Reads type column fs items := by
  have hredigit : DigitsAlone a → (∀ x y, some x ∈ es → List.Forall₂ RedigitByte x y →
      (∃ r, type.parse x column = .ok r) → ∃ r, type.parse y column = .ok r) →
      ∃ w, resolve b = .ok w ∧ ∃ fs, parseArrayElements w column = .ok fs
        ∧ fs.length = es.length ∧ ∃ items, Reads type column fs items := by
    intro hdigits hvalue
    obtain ⟨w, hw, hvw⟩ := resolve_digitsAlone h hlit hdigits hv
    refine ⟨w, hw, reads_of_keeps keeps_redigitByte hvw hes hvalue (fun y hy hne => ?_) hread⟩
    exact absurd (eq_null_of_redigit hy) hne
  have hnumber : isNumber type = true → DigitsAlone a ∧ (∀ x, some x ∈ es → Narrow type x) →
      ∃ w, resolve b = .ok w ∧ ∃ fs, parseArrayElements w column = .ok fs
        ∧ fs.length = es.length ∧ ∃ items, Reads type column fs items := by
    rintro hnumber ⟨hdigits, hnarrow⟩
    refine hredigit hdigits fun x y hx hxy hparse => ?_
    exact parse_redigit hnumber hheld hxy (hnarrow x hx) hparse
  cases type with
  | boolean => exact ha.elim
  | date => exact ha.elim
  | timestamp tz => exact ha.elim
  | time =>
      obtain ⟨hdigits, hbrief⟩ := ha
      refine hredigit hdigits fun x y hx hxy hparse => ?_
      exact exists_map_ok.2 (parseTime_redigit hxy (hbrief x hx) (exists_map_ok.1 hparse))
  | binary =>
      obtain ⟨w, hw, hvw⟩ := resolve_replaced (P := fun _ => True) h hlit (fun _ _ => trivial) hv
      have hword : Doubled (ascii "NULL") := by
        have hfree : ∀ x ∈ ascii "NULL", x ≠ backslash := by decide +kernel
        have hdoubled := Doubled.nil.append hfree
        rwa [List.append_nil] at hdoubled
      refine ⟨w, hw, reads_of_keeps (keeps_standsWhere fun _ => True) hvw hes ?_ ?_ hread⟩
      · exact fun x y hx hxy _ => ((ha x hx).of_stands hxy).parse column
      · exact fun y hy _ => (hword.of_stands hy).parse column
  | utf8 =>
      obtain ⟨w, hw, hvw⟩ := resolve_replaced (P := fun x => isSuperscript x = false) h hlit ha hv
      have hword : ∃ r, Kind.utf8.parse (ascii "NULL") column = .ok r :=
        (parse_utf8_iff _ column).2 ⟨"NULL".toList, by decide +kernel⟩
      refine ⟨w, hw, reads_of_keeps (keeps_standsWhere _) hvw hes ?_ ?_ hread⟩
      · exact fun x y _ hxy hparse => parse_utf8_stands hxy hparse
      · exact fun y hy _ => parse_utf8_stands hy hword
  | int16 => exact hnumber rfl ha
  | int32 => exact hnumber rfl ha
  | int64 => exact hnumber rfl ha
  | float32 => exact hnumber rfl ha
  | float64 => exact hnumber rfl ha
  | decimal precision scale => exact hnumber rfl ha

/-! ### Columns -/

theorem read_scalar_iff (b : ScalarBuilder) (v : Bytes) (column : String) :
    (∃ r, (ColumnBuilder.scalar b).read (some v) column = .ok r)
      ↔ ∃ r, b.kind.parse v column = .ok r := by
  simp only [ColumnBuilder.read, ColumnBuilder.blank, ColumnBuilder.append, ScalarBuilder.append]
  cases b.kind.parse v column with
  | error e => simp
  | ok r => simp

theorem read_list_iff (element : ScalarBuilder) (offsets : List ℕ) (validity : List Bool)
    (v : Bytes) (column : String) :
    (∃ r, (ColumnBuilder.list element offsets validity).read (some v) column = .ok r)
      ↔ ∃ es, parseArrayElements v column = .ok es ∧ (∃ items, Reads element.kind column es items)
        ∧ es.length ≤ ColumnBuilder.maxOffset := by
  simp only [ColumnBuilder.read, ColumnBuilder.blank, ColumnBuilder.append]
  cases hes : parseArrayElements v column with
  | error e => simp
  | ok es =>
      have hempty : [0].getLast?.getD 0 + es.length = es.length := Nat.zero_add _
      simp only [hempty, or_self, Except.ok.injEq, exists_eq_left']
      cases hall : ScalarBuilder.appendAll column ⟨element.kind, []⟩ es false with
      | error e =>
          have hnot : ¬∃ items, Reads element.kind column es items := by
            rintro ⟨items, hitems⟩
            obtain ⟨s, hs⟩ := @ScalarBuilder.appendAll_of_reads column ⟨element.kind, []⟩ es items
              hitems false
            rw [hall] at hs
            cases hs
          simp [hnot]
      | ok r =>
          obtain ⟨b, s⟩ := r
          obtain ⟨items, hitems, -⟩ := ScalarBuilder.appendAll_reads hall
          have hsome : ∃ items, Reads element.kind column es items := ⟨items, hitems⟩
          by_cases hmax : ColumnBuilder.maxOffset < es.length
          · simp [hmax]
          · simp [hmax, hsome, not_lt.1 hmax]

def HeldColumn : ColumnBuilder → Prop
  | .scalar b => Held b.kind
  | .list element _ _ => Held element.kind

/-- A field of the value `v` that a column reads whatever it is replaced by. -/
def ColumnSurvives (c : ColumnBuilder) (column : String) (raw v : Bytes) : Prop :=
  match c with
  | .scalar b => Survives b.kind raw v
  | .list element _ _ => kind raw = .other ∧ (Untouched raw ∨ (Literal raw
      ∧ ∃ es, parseArrayElements v column = .ok es ∧ ElementsWithstand element.kind raw es))

theorem ColumnSurvives.read {c : ColumnBuilder} (hheld : HeldColumn c) {a v : Bytes}
    {column : String} (ha : ColumnSurvives c column a v) (hv : resolve a = .ok v)
    (hread : ∃ r, c.read (some v) column = .ok r) (synth : Synth) (table : String)
    (place row : ℕ) : ∃ w, resolve (synth.field table place row a) = .ok w
      ∧ ∃ r, c.read (some w) column = .ok r := by
  cases c with
  | scalar b =>
      obtain ⟨w, hw, hparse⟩ := Survives.parse hheld ha hv ((read_scalar_iff b v column).1 hread)
        synth table place row
      exact ⟨w, hw, (read_scalar_iff b w column).2 hparse⟩
  | list element offsets validity =>
      obtain ⟨hkind, ha⟩ := ha
      obtain ⟨noise, hmade | ⟨-, hreplaced⟩⟩ := synth.field_cases table place row a
      · rw [hkind] at hmade
        cases hmade
      · rcases ha with huntouched | ⟨hlit, es, hes, hwithstand⟩
        · rw [hreplaced.eq_of_untouched huntouched]
          exact ⟨v, hv, hread⟩
        · obtain ⟨es', hes', hitems, hlen⟩ :=
            (read_list_iff element offsets validity v column).1 hread
          rw [hes] at hes'
          obtain rfl := Except.ok.inj hes'
          obtain ⟨w, hw, fs, hfs, hsame, hmore⟩ :=
            hwithstand.reads hheld hreplaced hlit hv hes hitems
          exact ⟨w, hw, (read_list_iff element offsets validity w column).2
            ⟨fs, hfs, hmore, hsame.trans_le hlen⟩⟩

end PgDelta.Anonymise
