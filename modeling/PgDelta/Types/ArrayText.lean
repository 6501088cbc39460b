import PgDelta.Types.Values

/-!
One-dimensional array literals, as `array_out` writes them, are split into the
elements that they were written from.
-/

namespace PgDelta.Values

open PgDelta.Lib

/-! ### The writer -/

def elementQuote : UInt8 := 34

def arrayComma : UInt8 := 44

/-- Braces, the delimiter, a quote, a backslash and white space. -/
def quotedBytes : Bytes := [123, 125, 44, 34, 92, 32, 9, 10, 11, 12, 13]

/-- Whether an element is written in quotes. -/
def needsQuotes (e : Bytes) : Bool :=
  e.isEmpty || e.any (fun c => quotedBytes.contains c) || eqIgnoreAsciiCase e (ascii "NULL")

/-- A byte within quotes. -/
def quotedByte (c : UInt8) : Bytes :=
  if c = elementQuote ∨ c = backslash then [backslash, c] else [c]

def elementText : Option Bytes → Bytes
  | none => ascii "NULL"
  | some e =>
    if needsQuotes e then elementQuote :: (e.flatMap quotedByte ++ [elementQuote]) else e

def arrayText (es : List (Option Bytes)) : Bytes :=
  123 :: ([arrayComma].intercalate (es.map elementText) ++ [125])

/-! ### One element -/

/-- What stands behind an element: nothing, or the delimiter. -/
def EndsElement (rest : Bytes) : Prop := ∀ c ∈ rest.head?, c = arrayComma

theorem takeQuotedElement_close (out rest : Bytes) :
    takeQuotedElement out (elementQuote :: rest) = some (out, rest) := by
  rw [takeQuotedElement.eq_def]
  exact if_pos rfl

theorem takeQuotedElement_escape (c : UInt8) (out rest : Bytes) :
    takeQuotedElement out (backslash :: c :: rest) = takeQuotedElement (out ++ [c]) rest := by
  rw [takeQuotedElement.eq_def]
  exact if_neg (by decide)

theorem takeQuotedElement_literal {c : UInt8} (hquote : c ≠ elementQuote) (hslash : c ≠ backslash)
    (out rest : Bytes) :
    takeQuotedElement out (c :: rest) = takeQuotedElement (out ++ [c]) rest := by
  rw [takeQuotedElement.eq_def]
  exact (if_neg hquote).trans (if_neg hslash)

theorem takeQuotedElement_quoted (e out rest : Bytes) :
    takeQuotedElement out (e.flatMap quotedByte ++ elementQuote :: rest)
      = some (out ++ e, rest) := by
  induction e generalizing out with
  | nil => rw [List.flatMap_nil, List.nil_append, takeQuotedElement_close, List.append_nil]
  | cons c e ih =>
    rw [List.flatMap_cons, List.append_assoc]
    by_cases hc : c = elementQuote ∨ c = backslash
    · rw [quotedByte, if_pos hc, List.cons_append, List.cons_append, List.nil_append,
        takeQuotedElement_escape, ih]
      simp
    · rw [quotedByte, if_neg hc]
      rw [not_or] at hc
      rw [List.cons_append, List.nil_append, takeQuotedElement_literal hc.1 hc.2, ih]
      simp

theorem not_blank_of_unquoted {c : UInt8} (h : quotedBytes.contains c = false) :
    isAsciiWhitespace c = false := by
  unfold quotedBytes at h
  unfold isAsciiWhitespace
  simp at h ⊢
  tauto

theorem trimAsciiStart_cons {c : UInt8} (h : isAsciiWhitespace c = false) (s : Bytes) :
    trimAsciiStart (c :: s) = c :: s := by
  rw [trimAsciiStart, List.dropWhile_cons_of_neg (by simp [h])]

theorem EndsElement.trim {rest : Bytes} (h : EndsElement rest) : trimAsciiStart rest = rest := by
  cases rest with
  | nil => rfl
  | cons c rest =>
    have hc := h c rfl
    exact trimAsciiStart_cons (by rw [hc]; decide) rest

/-- Whether the scan of an element without quotes stops at a byte. -/
def stops (c : UInt8) : Bool := c == 44 || c == 125 || isAsciiWhitespace c

theorem takeElement_of_ne {c : UInt8} (hc : c ≠ elementQuote) (s : Bytes) :
    takeElement (c :: s) =
      some (if (c :: s).takeWhile (fun c => !stops c) = ascii "NULL" then none
          else some ((c :: s).takeWhile fun c => !stops c),
        (c :: s).dropWhile fun c => !stops c) := by
  unfold takeElement
  split
  next s' h => exact absurd (List.cons.inj h).1 hc
  next => rfl

theorem takeWhile_append_stop {p : UInt8 → Bool} {e rest : Bytes} (he : ∀ c ∈ e, p c = true)
    (hrest : ∀ c ∈ rest.head?, p c = false) :
    (e ++ rest).takeWhile p = e ∧ (e ++ rest).dropWhile p = rest := by
  induction e with
  | nil =>
    cases rest with
    | nil => exact ⟨rfl, rfl⟩
    | cons c rest =>
      have hc := hrest c rfl
      exact ⟨List.takeWhile_cons_of_neg (by simp [hc]), List.dropWhile_cons_of_neg (by simp [hc])⟩
  | cons c e ih =>
    have hc := he c List.mem_cons_self
    obtain ⟨htake, hdrop⟩ := ih fun d hd => he d (List.mem_cons_of_mem _ hd)
    rw [List.cons_append, List.takeWhile_cons_of_pos hc, List.dropWhile_cons_of_pos hc,
      htake, hdrop]
    exact ⟨rfl, rfl⟩

/-- The bytes of an element without quotes run up to what stands behind it. -/
theorem takeElement_unquoted {e rest : Bytes} (hne : e ≠ [])
    (he : ∀ c ∈ e, quotedBytes.contains c = false) (hrest : EndsElement rest) :
    takeElement (trimAsciiStart (e ++ rest))
      = some (if e = ascii "NULL" then none else some e, rest) := by
  have hgo : ∀ c ∈ e, (!stops c) = true := by
    intro c hc
    have hplain := he c hc
    have hblank := not_blank_of_unquoted hplain
    have hcomma : c ≠ 44 := by rintro rfl; exact absurd hplain (by decide)
    have hbrace : c ≠ 125 := by rintro rfl; exact absurd hplain (by decide)
    simp [stops, hblank, hcomma, hbrace]
  have hstop : ∀ c ∈ rest.head?, (!stops c) = false := by
    intro c hc
    rw [hrest c hc]
    decide
  obtain ⟨htake, hdrop⟩ := takeWhile_append_stop hgo hstop
  obtain ⟨c, s, rfl⟩ := List.exists_cons_of_ne_nil hne
  have hc := he c List.mem_cons_self
  have hblank := not_blank_of_unquoted hc
  have hquote : c ≠ elementQuote := by rintro rfl; exact absurd hc (by decide)
  rw [List.cons_append] at htake hdrop ⊢
  rw [trimAsciiStart_cons hblank, takeElement_of_ne hquote, htake, hdrop]

theorem takeElement_elementText (e : Option Bytes) {rest : Bytes} (hrest : EndsElement rest) :
    takeElement (trimAsciiStart (elementText e ++ rest)) = some (e, rest) := by
  cases e with
  | none => exact takeElement_unquoted (by decide) (by decide +kernel) hrest
  | some e =>
    by_cases hquoted : needsQuotes e = true
    · rw [elementText, if_pos hquoted, List.cons_append, List.append_assoc, List.cons_append,
        List.nil_append, trimAsciiStart_cons (by decide)]
      change (takeQuotedElement [] (e.flatMap quotedByte ++ elementQuote :: rest)).map _ = _
      rw [takeQuotedElement_quoted]
      rfl
    · rw [elementText, if_neg hquoted]
      obtain ⟨⟨hne, hplain⟩, hnull⟩ : (e ≠ [] ∧ ∀ c ∈ e, quotedBytes.contains c = false)
          ∧ eqIgnoreAsciiCase e (ascii "NULL") = false := by
        simpa [needsQuotes] using hquoted
      have hword : e ≠ ascii "NULL" := by
        rintro rfl
        exact absurd hnull (by decide)
      rw [takeElement_unquoted hne hplain hrest, if_neg hword]

/-! ### The whole literal -/

def elementsText (es : List (Option Bytes)) : Bytes := [arrayComma].intercalate (es.map elementText)

theorem elementsText_singleton (e : Option Bytes) : elementsText [e] = elementText e ++ [] := by
  simp [elementsText]

theorem elementsText_cons (e f : Option Bytes) (es : List (Option Bytes)) :
    elementsText (e :: f :: es) = elementText e ++ arrayComma :: elementsText (f :: es) := by
  simp [elementsText]

theorem elementText_ne_nil (e : Option Bytes) : elementText e ≠ [] := by
  cases e with
  | none => decide
  | some e =>
    by_cases hquoted : needsQuotes e = true
    · rw [elementText, if_pos hquoted]
      exact List.cons_ne_nil _ _
    · rw [elementText, if_neg hquoted]
      rintro rfl
      exact hquoted rfl

theorem length_le_elementsText (es : List (Option Bytes)) :
    es.length ≤ (elementsText es).length := by
  induction es with
  | nil => exact Nat.zero_le _
  | cons e es ih =>
    have hpos := List.length_pos_of_ne_nil (elementText_ne_nil e)
    cases es with
    | nil =>
      rw [elementsText_singleton, List.append_nil]
      exact hpos
    | cons f es =>
      rw [List.length_cons] at ih
      rw [elementsText_cons, List.length_append, List.length_cons, List.length_cons,
        List.length_cons]
      omega

/-- The loop takes one element after the other, up to the end of the text. -/
theorem arrayElementsLoop_elementsText (e : Option Bytes) (es : List (Option Bytes)) {fuel : ℕ}
    (hfuel : es.length < fuel) (done : List (Option Bytes)) :
    arrayElementsLoop fuel (elementsText (e :: es)) done = some (done ++ e :: es) := by
  induction es generalizing e fuel done with
  | nil =>
    obtain ⟨fuel, rfl⟩ : ∃ m, fuel = m + 1 := ⟨fuel - 1, by omega⟩
    have hend : EndsElement [] := by simp [EndsElement]
    simp only [elementsText_singleton, arrayElementsLoop, takeElement_elementText e hend, hend.trim]
  | cons f es ih =>
    rw [List.length_cons] at hfuel
    obtain ⟨fuel, rfl⟩ : ∃ m, fuel = m + 1 := ⟨fuel - 1, by omega⟩
    have hend : EndsElement (arrayComma :: elementsText (f :: es)) := by simp [EndsElement]
    simp only [elementsText_cons, arrayElementsLoop, takeElement_elementText e hend, hend.trim]
    rw [if_pos (show arrayComma = 44 from rfl), ih f (by omega)]
    simp

/-- What is written for a list of elements is split into exactly that list. -/
theorem parse_array_elements_array_text (es : List (Option Bytes)) (column : String) :
    parseArrayElements (arrayText es) column = .ok es := by
  have hinner : (arrayText es).tail.dropLast = elementsText es := by
    simp [arrayText, elementsText]
  have hform : ¬((arrayText es).head? ≠ some 123 ∨ (arrayText es).getLast? ≠ some 125
      ∨ (arrayText es).length < 2) := by
    have hlast : (arrayText es).getLast? = some 125 := by
      rw [arrayText, ← List.cons_append, List.getLast?_concat]
    rw [hlast]
    simp [arrayText]
  rw [parseArrayElements, if_neg hform]
  simp only [hinner]
  cases es with
  | nil => rfl
  | cons e es =>
    have hlen := length_le_elementsText (e :: es)
    rw [List.length_cons] at hlen
    have hne : (elementsText (e :: es)).isEmpty = false := by
      rw [List.isEmpty_eq_false_iff]
      intro hnil
      rw [hnil, List.length_nil] at hlen
      omega
    have hloop := arrayElementsLoop_elementsText e es
      (show es.length < (elementsText (e :: es)).length + 1 by omega) []
    simp only [hne, Bool.false_eq_true, if_false, hloop, List.nil_append]

end PgDelta.Values
