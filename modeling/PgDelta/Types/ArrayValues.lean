import PgDelta.Types.ArrayText
import PgDelta.Types.Nulls

/-!
The arrays that a server holds, against the lists that are made of them.

Whether a column becomes a column of lists is decided from its declaration. A
value of it need not be what the declaration says: its lower bound may be
another one than 1, and it may have more dimensions than declared; and the
delimiter belongs to the element type. `array_out` shows all of this, and the
splitting of a literal knows one dimension from 1 with commas only.
-/

namespace PgDelta.Builders

open PgDelta.Lib PgDelta.Types PgDelta.Values

/-! ### What a server writes -/

structure Dimension where
  lower : ℤ
  length : ℕ
  length_pos : 0 < length

/-- A value of an array type: its dimensions from the outermost, and the texts
of its elements in their order. An array without elements has no dimension. -/
structure ArrayValue where
  dimensions : List Dimension
  elements : List (Option Bytes)
  count : elements.length =
    if dimensions = [] then 0 else (dimensions.map Dimension.length).prod

def semicolon : UInt8 := 59

/-- The delimiter of the arrays of a declared type: a semicolon for `box`. -/
def delimiterOf (sqlType : String) : UInt8 :=
  if normalise (splitParams (stripArraySuffix (trim sqlType.toList)).1).1 = "box" then semicolon
  else arrayComma

/-- The digits of a coordinate, its sign, point and exponent, and the letters
of `NaN` and `Infinity`. -/
def coordinateBytes : Bytes := ascii "0123456789+-.eNaInfity"

/-- What `box_out` writes: two corners. -/
def IsBoxText (e : Bytes) : Prop :=
  ∃ a b c d : Bytes, (∀ x ∈ a ++ b ++ (c ++ d), x ∈ coordinateBytes) ∧
    e = 40 :: (a ++ 44 :: (b ++ 41 :: 44 :: 40 :: (c ++ 44 :: (d ++ [41]))))

def needsQuotesBy (delimiter : UInt8) (e : Bytes) : Bool :=
  e.isEmpty || e.any (fun c => quotedBytes.contains c && c != arrayComma || c == delimiter)
    || eqIgnoreAsciiCase e (ascii "NULL")

def elementTextBy (delimiter : UInt8) : Option Bytes → Bytes
  | none => ascii "NULL"
  | some e =>
    if needsQuotesBy delimiter e then elementQuote :: (e.flatMap quotedByte ++ [elementQuote])
    else e

def bracesText (delimiter : UInt8) : List ℕ → List (Option Bytes) → Bytes
  | [], es => elementTextBy delimiter (es.head?.getD none)
  | n :: lengths, es =>
    123 :: ([delimiter].intercalate ((List.range n).map fun i =>
      bracesText delimiter lengths ((es.drop (i * lengths.prod)).take lengths.prod)) ++ [125])

def boundsText (dimensions : List Dimension) : Bytes :=
  dimensions.flatMap (fun d => ascii "[" ++ ascii (toString d.lower) ++ ascii ":" ++
    ascii (toString (d.lower + (d.length : ℤ) - 1)) ++ ascii "]") ++ ascii "="

/-- What `array_out` writes. -/
def ArrayValue.text (x : ArrayValue) (delimiter : UInt8) : Bytes :=
  if x.dimensions = [] then ascii "{}"
  else
    (if ∀ d ∈ x.dimensions, d.lower = 1 then [] else boundsText x.dimensions) ++
      bracesText delimiter (x.dimensions.map Dimension.length) x.elements

/-! ### The literals that are refused -/

theorem parseArrayElements_of_head {v : Bytes} (h : v.head? ≠ some 123) (column : String) :
    parseArrayElements v column = .error (bad column "array") := if_pos (Or.inl h)

theorem takeQuotedElement_split {out s element rest : Bytes}
    (h : takeQuotedElement out s = some (element, rest)) :
    ∃ before, s = before ++ elementQuote :: rest := by
  induction out, s using takeQuotedElement.induct with
  | case1 out => cases h
  | case2 out s =>
      have hclose := takeQuotedElement_close out s
      rw [show (34 : UInt8) = elementQuote from rfl, hclose] at h
      obtain ⟨-, rfl⟩ := Prod.mk.inj (Option.some.inj h)
      exact ⟨[], rfl⟩
  | case3 out hquote => cases h
  | case4 out escaped s hquote ih =>
      rw [takeQuotedElement_escape] at h
      obtain ⟨before, rfl⟩ := ih h
      exact ⟨backslash :: escaped :: before, rfl⟩
  | case5 out c s hquote hslash ih =>
      rw [takeQuotedElement_literal hquote hslash] at h
      obtain ⟨before, rfl⟩ := ih h
      exact ⟨c :: before, rfl⟩

theorem getLast?_of_suffix {s t : Bytes} (h : t <:+ s) (hne : t ≠ []) :
    t.getLast? = s.getLast? := by
  obtain ⟨p, rfl⟩ := h
  rw [List.getLast?_append_of_ne_nil _ hne]

theorem dropWhile_ne_nil {p : UInt8 → Bool} {s : Bytes} {c : UInt8} (hlast : s.getLast? = some c)
    (hc : p c = false) : s.dropWhile p ≠ [] := by
  intro hnil
  have hall := List.dropWhile_eq_nil_iff.mp hnil c (List.mem_of_getLast? hlast)
  rw [hc] at hall
  cases hall

/-- What is left behind an element of a text that ends with a brace ends with
that brace. -/
theorem takeElement_last {s rest : Bytes} {element : Option Bytes} (hlast : s.getLast? = some 125)
    (h : takeElement s = some (element, rest)) :
    rest.getLast? = some 125 ∧ rest.length ≤ s.length := by
  unfold takeElement at h
  split at h
  · next s' =>
      obtain ⟨⟨e, r⟩, hquoted, heq⟩ := Option.map_eq_some_iff.mp h
      obtain ⟨-, rfl⟩ := Prod.mk.inj heq
      obtain ⟨before, rfl⟩ := takeQuotedElement_split hquoted
      have hne : r ≠ [] := by
        rintro rfl
        rw [← List.cons_append, List.getLast?_concat] at hlast
        exact absurd hlast (by decide)
      have hsuffix : r <:+ 34 :: (before ++ elementQuote :: r) :=
        ⟨34 :: before ++ [elementQuote], by simp⟩
      exact ⟨(getLast?_of_suffix hsuffix hne).trans hlast, hsuffix.length_le⟩
  · obtain ⟨-, rfl⟩ := Prod.mk.inj (Option.some.inj h)
    have hsuffix := List.dropWhile_suffix (l := s)
      (fun c => !(c == 44 || c == 125 || isAsciiWhitespace c))
    exact ⟨(getLast?_of_suffix hsuffix (dropWhile_ne_nil hlast rfl)).trans hlast,
      hsuffix.length_le⟩

theorem trimAsciiStart_last {s : Bytes} (hlast : s.getLast? = some 125) :
    (trimAsciiStart s).getLast? = some 125 ∧ (trimAsciiStart s).length ≤ s.length := by
  have hsuffix : trimAsciiStart s <:+ s := List.dropWhile_suffix _
  exact ⟨(getLast?_of_suffix hsuffix (dropWhile_ne_nil hlast rfl)).trans hlast,
    hsuffix.length_le⟩

/-- The loop does not come to the end of a text that ends with a brace. -/
theorem arrayElementsLoop_last {fuel : ℕ} {s : Bytes} (hlast : s.getLast? = some 125)
    (hfuel : s.length < fuel) (done : List (Option Bytes)) :
    arrayElementsLoop fuel s done = none := by
  induction fuel generalizing s done with
  | zero => omega
  | succ fuel ih =>
      rw [arrayElementsLoop]
      obtain ⟨htrim, htrimLen⟩ := trimAsciiStart_last hlast
      cases helement : takeElement (trimAsciiStart s) with
      | none => rfl
      | some r =>
          obtain ⟨element, rest⟩ := r
          obtain ⟨hrest, hrestLen⟩ := takeElement_last htrim helement
          obtain ⟨hbehind, hbehindLen⟩ := trimAsciiStart_last hrest
          cases hcons : trimAsciiStart rest with
          | nil =>
              rw [hcons] at hbehind
              cases hbehind
          | cons c behind =>
              simp only [hcons]
              rw [hcons] at hbehind hbehindLen
              split_ifs with hcomma
              · subst hcomma
                cases behind with
                | nil => exact absurd hbehind (by decide)
                | cons d behind =>
                    rw [List.getLast?_cons_cons] at hbehind
                    apply ih hbehind
                    simp only [List.length_cons] at hbehindLen ⊢
                    omega
              · rfl

/-- A brace in front of the closing one is no end of an element. -/
theorem parseArrayElements_of_nested {inner : Bytes} (h : inner.getLast? = some 125)
    (column : String) :
    parseArrayElements (123 :: (inner ++ [125])) column = .error (bad column "array") := by
  have hinner : (123 :: (inner ++ [125])).tail.dropLast = inner := by simp
  have hne : inner.isEmpty = false := by
    cases inner with
    | nil => cases h
    | cons c inner => rfl
  unfold parseArrayElements
  split_ifs
  · rfl
  · simp only [hinner, hne, arrayElementsLoop_last h (Nat.lt_succ_self _)]
    rfl

/-! ### The shapes of a literal -/

theorem intercalate_last {delimiter : UInt8} {xs : List Bytes} {y : Bytes} {c : UInt8}
    (hy : y.getLast? = some c) : ([delimiter].intercalate (xs ++ [y])).getLast? = some c := by
  have hne : y ≠ [] := by
    rintro rfl
    cases hy
  induction xs with
  | nil => simpa using hy
  | cons x xs ih =>
      have hrest : [delimiter].intercalate (xs ++ [y]) ≠ [] := by
        intro hnil
        rw [hnil] at ih
        cases ih
      rw [List.cons_append, List.intercalate_cons_of_ne_nil (by simp),
        List.getLast?_append_of_ne_nil _ hrest]
      exact ih

theorem bracesText_last (delimiter : UInt8) (n : ℕ) (lengths : List ℕ) (es : List (Option Bytes)) :
    (bracesText delimiter (n :: lengths) es).getLast? = some 125 := by
  rw [bracesText, ← List.cons_append, List.getLast?_concat]

/-- More than one dimension is refused, whatever the elements are. -/
theorem parseArrayElements_nested {delimiter : UInt8} {n : ℕ} (hn : 0 < n) (m : ℕ)
    (lengths : List ℕ) (es : List (Option Bytes)) (column : String) :
    parseArrayElements (bracesText delimiter (n :: m :: lengths) es) column
      = .error (bad column "array") := by
  obtain ⟨k, rfl⟩ := Nat.exists_eq_succ_of_ne_zero hn.ne'
  rw [bracesText]
  apply parseArrayElements_of_nested
  rw [List.range_succ, List.map_append, List.map_singleton]
  exact intercalate_last (bracesText_last _ _ _ _)

theorem parseArrayElements_bounds {dimensions : List Dimension} (hne : dimensions ≠ [])
    (braces : Bytes) (column : String) :
    parseArrayElements (boundsText dimensions ++ braces) column
      = .error (bad column "array") := by
  apply parseArrayElements_of_head
  obtain ⟨d, rest, rfl⟩ := List.exists_cons_of_ne_nil hne
  have hhead : (boundsText (d :: rest) ++ braces).head? = some 91 := by
    simp [boundsText, ascii]
  rw [hhead]
  decide

theorem range_map_single (es : List (Option Bytes)) (f : Option Bytes → Bytes) :
    ((List.range es.length).map fun i => f (((es.drop i).take 1).head?.getD none)) = es.map f := by
  apply List.ext_getElem
  · simp
  · intro i hi hi'
    have hlt : i < es.length := by simpa using hi
    have hhead : ((es.drop i).take 1).head? = some es[i] := by
      rw [List.drop_eq_getElem_cons hlt]
      rfl
    rw [List.getElem_map, List.getElem_map, List.getElem_range, hhead, Option.getD_some]

theorem bracesText_single (delimiter : UInt8) (es : List (Option Bytes)) :
    bracesText delimiter [es.length] es
      = 123 :: ([delimiter].intercalate (es.map (elementTextBy delimiter)) ++ [125]) := by
  rw [bracesText, ← range_map_single es]
  simp [bracesText]

theorem needsQuotesBy_comma (e : Bytes) : needsQuotesBy arrayComma e = needsQuotes e := by
  have hbyte : ∀ c : UInt8, (quotedBytes.contains c && c != arrayComma || c == arrayComma)
      = quotedBytes.contains c := by
    intro c
    by_cases hc : c = arrayComma
    · subst hc
      decide
    · have hne : (c == arrayComma) = false := beq_eq_false_iff_ne.mpr hc
      rw [bne, hne, Bool.not_false, Bool.and_true, Bool.or_false]
  simp only [needsQuotesBy, needsQuotes, hbyte]

theorem bracesText_comma (es : List (Option Bytes)) :
    bracesText arrayComma [es.length] es = arrayText es := by
  have htext : elementTextBy arrayComma = elementText := by
    funext e
    cases e with
    | none => rfl
    | some e => rw [elementTextBy, elementText, needsQuotesBy_comma]
  rw [bracesText_single, htext]
  rfl

/-! ### A literal with semicolons -/

/-- The bytes of a box: it is written without quotes, and it has a comma. -/
theorem IsBoxText.bytes {e : Bytes} (h : IsBoxText e) :
    e.head? = some 40 ∧ arrayComma ∈ e ∧
      ∀ x ∈ e, x ∈ coordinateBytes ∨ x = 40 ∨ x = 41 ∨ x = arrayComma := by
  obtain ⟨a, b, c, d, hcoordinates, rfl⟩ := h
  refine ⟨rfl, by simp [arrayComma], ?_⟩
  intro x hx
  have hmem := hcoordinates x
  simp only [List.mem_cons, List.mem_append, List.not_mem_nil, or_false] at hx hmem
  simp only [arrayComma]
  tauto

theorem unquoted_of_coordinate {x : UInt8} (h : x ∈ coordinateBytes) :
    quotedBytes.contains x = false ∧ x ≠ semicolon := by
  revert x
  decide +kernel

theorem IsBoxText.elementTextBy_eq {e : Bytes} (h : IsBoxText e) :
    elementTextBy semicolon (some e) = e := by
  obtain ⟨hhead, hcomma, hbytes⟩ := h.bytes
  have hplain : ∀ x ∈ e,
      (quotedBytes.contains x && x != arrayComma || x == semicolon) = false := by
    intro x hx
    obtain hx | rfl | rfl | rfl := hbytes x hx
    · obtain ⟨hunquoted, hne⟩ := unquoted_of_coordinate hx
      rw [hunquoted, Bool.false_and, Bool.false_or, beq_eq_false_iff_ne]
      exact hne
    · decide
    · decide
    · decide
  have hneeds : needsQuotesBy semicolon e = false := by
    obtain ⟨x, s, rfl⟩ := List.exists_cons_of_ne_nil (List.ne_nil_of_mem hcomma)
    obtain rfl := Option.some.inj hhead
    have hany : (40 :: s : Bytes).any
        (fun x => quotedBytes.contains x && x != arrayComma || x == semicolon) = false :=
      List.any_eq_false.mpr fun x hx => by rw [hplain x hx]; decide
    rw [needsQuotesBy, hany]
    simp [eqIgnoreAsciiCase, ascii, toAsciiLowercase]
  rw [elementTextBy, hneeds, if_neg Bool.false_ne_true]

theorem mem_intercalate {d c : UInt8} {xs : List Bytes} (h : c ∈ [d].intercalate xs) :
    c = d ∨ ∃ x ∈ xs, c ∈ x := by
  induction xs with
  | nil => cases h
  | cons x xs ih =>
      by_cases hxs : xs = []
      · subst hxs
        rw [List.intercalate_singleton] at h
        exact .inr ⟨x, List.mem_singleton_self x, h⟩
      · rw [List.intercalate_cons_of_ne_nil hxs, List.mem_append, List.mem_append,
          List.mem_singleton] at h
        obtain (h | rfl) | h := h
        · exact .inr ⟨x, List.mem_cons_self, h⟩
        · exact .inl rfl
        · obtain rfl | ⟨y, hy, hc⟩ := ih h
          · exact .inl rfl
          · exact .inr ⟨y, List.mem_cons_of_mem _ hy, hc⟩

theorem takeElement_piece {s rest : Bytes} {element : Option Bytes} (hquote : elementQuote ∉ s)
    (h : takeElement s = some (element, rest)) :
    (∀ e, element = some e → arrayComma ∉ e) ∧ rest <:+ s := by
  unfold takeElement at h
  split at h
  · next s' => exact absurd List.mem_cons_self hquote
  · obtain ⟨helement, rfl⟩ := Prod.mk.inj (Option.some.inj h)
    refine ⟨?_, List.dropWhile_suffix _⟩
    rintro e rfl hcomma
    split_ifs at helement
    obtain rfl := Option.some.inj helement
    exact absurd (List.mem_takeWhile_imp hcomma) (by decide)

/-- A text without quotes is cut at its commas, and only there. -/
theorem arrayElementsLoop_pieces {fuel : ℕ} {s : Bytes} {done es : List (Option Bytes)}
    (hquote : elementQuote ∉ s) (h : arrayElementsLoop fuel s done = some es) :
    ∃ pieces, es = done ++ pieces ∧ (∀ e, some e ∈ pieces → arrayComma ∉ e) ∧
      pieces.length ≤ s.count arrayComma + 1 := by
  induction fuel generalizing s done with
  | zero =>
      obtain rfl := Option.some.inj h
      exact ⟨[], by simp, by simp, by simp⟩
  | succ fuel ih =>
      rw [arrayElementsLoop] at h
      have htrim : trimAsciiStart s <:+ s := List.dropWhile_suffix _
      cases helement : takeElement (trimAsciiStart s) with
      | none => simp [helement] at h
      | some r =>
          obtain ⟨element, rest⟩ := r
          obtain ⟨hcomma, hrest⟩ :=
            takeElement_piece (fun hmem => hquote (htrim.mem hmem)) helement
          have hbehind : trimAsciiStart rest <:+ s :=
            (List.dropWhile_suffix _).trans (hrest.trans htrim)
          have hpiece : ∀ e, some e ∈ [element] → arrayComma ∉ e := by
            intro e he
            exact hcomma e (List.mem_singleton.mp he).symm
          simp only [helement] at h
          cases hcons : trimAsciiStart rest with
          | nil =>
              simp only [hcons] at h
              obtain rfl := Option.some.inj h
              exact ⟨[element], rfl, hpiece, by simp⟩
          | cons c behind =>
              simp only [hcons] at h
              rw [hcons] at hbehind
              split_ifs at h with hc
              subst hc
              have hquote' : elementQuote ∉ behind := fun hmem =>
                hquote (hbehind.mem (List.mem_cons_of_mem _ hmem))
              obtain ⟨pieces, rfl, hpieces, hlen⟩ := ih hquote' h
              refine ⟨element :: pieces, by simp, ?_, ?_⟩
              · intro e he
                obtain rfl | he := List.mem_cons.mp he
                · exact hcomma e rfl
                · exact hpieces e he
              · have hcount : (44 :: behind).count arrayComma ≤ s.count arrayComma :=
                  hbehind.sublist.count_le _
                rw [show (44 : UInt8) = arrayComma from rfl, List.count_cons_self] at hcount
                rw [List.length_cons]
                omega

theorem parseArrayElements_pieces {v : Bytes} {column : String} {es : List (Option Bytes)}
    (hquote : elementQuote ∉ v) (h : parseArrayElements v column = .ok es) :
    (∀ e, some e ∈ es → arrayComma ∉ e) ∧ es.length ≤ v.count arrayComma + 1 := by
  have hsub : v.tail.dropLast.Sublist v := (List.dropLast_sublist _).trans (List.tail_sublist _)
  unfold parseArrayElements at h
  split_ifs at h
  simp only at h
  split_ifs at h
  · obtain rfl := Except.ok.inj h
    exact ⟨by simp, by simp⟩
  · cases hloop : arrayElementsLoop (v.tail.dropLast.length + 1) v.tail.dropLast [] with
    | none =>
        rw [hloop] at h
        cases h
    | some pieces =>
        rw [hloop] at h
        obtain rfl := Except.ok.inj h
        obtain ⟨pieces', rfl, hpieces, hlen⟩ :=
          arrayElementsLoop_pieces (fun hmem => hquote (hsub.mem hmem)) hloop
        exact ⟨hpieces, hlen.trans (Nat.add_le_add_right (hsub.count_le _) 1)⟩

/-- Boxes are cut apart within, and nulls are not cut apart at all. -/
theorem parseArrayElements_semicolons {es : List (Option Bytes)}
    (hbox : ∀ e, some e ∈ es → IsBoxText e) {column : String}
    (h : parseArrayElements (bracesText semicolon [es.length] es) column = .ok es) :
    es = [] ∨ es = [none] := by
  rw [bracesText_single] at h
  have hbytes : ∀ c ∈ (123 :: ([semicolon].intercalate (es.map (elementTextBy semicolon)) ++ [125])
      : Bytes), (∃ e, some e ∈ es ∧ c ∈ e) ∨ c ≠ elementQuote ∧ c ≠ arrayComma := by
    intro c hc
    rw [List.mem_cons, List.mem_append, List.mem_singleton] at hc
    obtain rfl | hc | rfl := hc
    · exact .inr (by decide)
    · obtain rfl | ⟨x, hx, hc⟩ := mem_intercalate hc
      · exact .inr (by decide)
      · obtain ⟨e, he, rfl⟩ := List.mem_map.mp hx
        cases e with
        | none =>
            have hword : ∀ c ∈ ascii "NULL", c ≠ elementQuote ∧ c ≠ arrayComma := by
              decide +kernel
            exact .inr (hword c hc)
        | some e =>
            rw [(hbox e he).elementTextBy_eq] at hc
            exact .inl ⟨e, he, hc⟩
    · exact .inr (by decide)
  obtain ⟨hpieces, hlen⟩ := parseArrayElements_pieces (by
    intro hmem
    obtain ⟨e, he, hc⟩ | hc := hbytes _ hmem
    · obtain hc | hc | hc | hc := (hbox e he).bytes.2.2 _ hc
      · exact absurd (unquoted_of_coordinate hc).1 (by decide)
      · exact absurd hc (by decide)
      · exact absurd hc (by decide)
      · exact absurd hc (by decide)
    · exact hc.1 rfl) h
  -- A box has a comma and no piece has one, so that all elements are nulls.
  have hnull : ∀ e ∈ es, e = none := by
    intro e he
    cases e with
    | none => rfl
    | some e => exact absurd (hbox e he).bytes.2.1 (hpieces e he)
  rw [List.count_eq_zero_of_not_mem (by
    intro hmem
    obtain ⟨e, he, -⟩ | hc := hbytes _ hmem
    · cases hnull _ he
    · exact hc.2 rfl)] at hlen
  cases es with
  | nil => exact .inl rfl
  | cons e rest =>
      have hrest : rest = [] := by
        apply List.eq_nil_of_length_eq_zero
        rw [List.length_cons] at hlen
        omega
      rw [hrest, hnull e List.mem_cons_self]
      exact .inr rfl

/-! ### Appending a list -/

def Kind.readElement (kind : Kind) (e : Option Bytes) (column : String) :
    Except Error (Option Value) :=
  match e with
  | none => .ok none
  | some v => kind.parse v column

/-- The elements of an array are read one by one. -/
def Reads (kind : Kind) (column : String) : List (Option Bytes) → List (Option Value) → Prop :=
  List.Forall₂ fun e p => kind.readElement e column = .ok p

theorem ScalarBuilder.append_reads {b b' : ScalarBuilder} {e : Option Bytes} {column : String}
    {s : Bool} (h : b.append e column = .ok (b', s)) :
    ∃ p, b.kind.readElement e column = .ok p ∧ b' = { b with values := b.values ++ [p] } := by
  cases e with
  | none =>
      obtain ⟨rfl, -⟩ := Prod.mk.inj (Except.ok.inj h)
      exact ⟨none, rfl, rfl⟩
  | some v =>
      rw [append] at h
      cases hp : b.kind.parse v column with
      | error e => simp [hp] at h
      | ok parsed =>
          simp only [hp] at h
          obtain ⟨rfl, -⟩ := Prod.mk.inj (Except.ok.inj h)
          exact ⟨parsed, hp, rfl⟩

theorem ScalarBuilder.append_of_read {b : ScalarBuilder} {e : Option Bytes} {column : String}
    {p : Option Value} (h : b.kind.readElement e column = .ok p) :
    ∃ s, b.append e column = .ok ({ b with values := b.values ++ [p] }, s) := by
  cases e with
  | none =>
      obtain rfl := Except.ok.inj h
      exact ⟨false, rfl⟩
  | some v =>
      have hparse : b.kind.parse v column = .ok p := h
      exact ⟨_, by rw [append, hparse]⟩

theorem ScalarBuilder.appendAll_reads {column : String} {b b' : ScalarBuilder}
    {es : List (Option Bytes)} {s s' : Bool} (h : b.appendAll column es s = .ok (b', s')) :
    ∃ added, Reads b.kind column es added ∧ b' = { b with values := b.values ++ added } := by
  induction es generalizing b s with
  | nil =>
      obtain ⟨rfl, -⟩ := Prod.mk.inj (Except.ok.inj h)
      exact ⟨[], .nil, by simp⟩
  | cons e es ih =>
      rw [appendAll] at h
      cases ha : b.append e column with
      | error e => simp [ha] at h
      | ok r =>
          obtain ⟨b₁, s₁⟩ := r
          simp only [ha] at h
          obtain ⟨p, hp, rfl⟩ := append_reads ha
          obtain ⟨added, hadded, rfl⟩ := ih h
          exact ⟨p :: added, .cons hp hadded, by simp⟩

theorem ScalarBuilder.appendAll_of_reads {column : String} {b : ScalarBuilder}
    {es : List (Option Bytes)} {added : List (Option Value)} (h : Reads b.kind column es added)
    (s : Bool) :
    ∃ s', b.appendAll column es s = .ok ({ b with values := b.values ++ added }, s') := by
  induction es generalizing b added s with
  | nil =>
      obtain rfl := List.forall₂_nil_left_iff.mp h
      exact ⟨s, by simp [appendAll]⟩
  | cons e es ih =>
      obtain ⟨p, added, hp, hadded, rfl⟩ := List.forall₂_cons_left_iff.mp h
      obtain ⟨s₁, happend⟩ := append_of_read hp
      obtain ⟨s', hrest⟩ := @ih { b with values := b.values ++ [p] } added hadded (s || s₁)
      exact ⟨s', by rw [appendAll, happend]; simpa using hrest⟩

namespace ColumnBuilder

/-- The elements that a column of lists holds. -/
def held : ColumnBuilder → ℕ
  | .scalar _ => 0
  | .list element _ _ => element.values.length

/-- A field is appended as the list of some values. -/
def AppendsList (c : ColumnBuilder) (v : Bytes) (column : String) (items : List (Option Value)) :
    Prop :=
  ∃ c' s, c.append (some v) column = .ok (c', s) ∧ c'.cells = c.cells ++ [.list items]

theorem length_eq_of_reads {kind : Kind} {column : String} {es : List (Option Bytes)}
    {items : List (Option Value)} (h : Reads kind column es items) : es.length = items.length :=
  List.Forall₂.length_eq h

/-- A column of lists takes a field that splits into elements of its type, as
long as the offsets suffice. -/
theorem appendsList_iff {element : ScalarBuilder} {offsets : List ℕ} {validity : List Bool}
    (hagrees : (list element offsets validity).Agrees) (v : Bytes) (column : String)
    (items : List (Option Value)) :
    (list element offsets validity).AppendsList v column items ↔
      ∃ es, parseArrayElements v column = .ok es ∧ Reads element.kind column es items ∧
        element.values.length + es.length ≤ maxOffset := by
  obtain ⟨hlen, hlast, hle⟩ := hagrees
  have hcells : ∀ added : List (Option Value),
      listCells (element.values ++ added)
          (offsets ++ [element.values.length + added.length]) (validity ++ [true])
        = listCells element.values offsets validity ++ [.list added] := by
    intro added
    rw [listCells_snoc _ _ _ _ _ _ hlen hlast, listCells_append_items _ _ _ _ hle,
      slice_append_right]
    rfl
  constructor
  · rintro ⟨c', s, happend, hnew⟩
    rw [append, hlast] at happend
    cases hp : parseArrayElements v column with
    | error e => simp [hp] at happend
    | ok es =>
        simp only [hp] at happend
        cases ha : element.appendAll column es false with
        | error e => simp [ha] at happend
        | ok r =>
            obtain ⟨element', s'⟩ := r
            simp only [ha] at happend
            split_ifs at happend with hmax
            obtain ⟨rfl, -⟩ := Prod.mk.inj (Except.ok.inj happend)
            obtain ⟨added, hadded, rfl⟩ := ScalarBuilder.appendAll_reads ha
            simp only [cells, length_eq_of_reads hadded, hcells] at hnew
            obtain rfl : added = items := by simpa using hnew
            exact ⟨es, rfl, hadded, by omega⟩
  · rintro ⟨es, hp, hread, hmax⟩
    obtain ⟨s, ha⟩ := ScalarBuilder.appendAll_of_reads hread false
    have hroom : ¬(maxOffset < es.length ∨ maxOffset < element.values.length + es.length) := by
      omega
    refine ⟨.list { element with values := element.values ++ items }
      (offsets ++ [element.values.length + es.length]) (validity ++ [true]), s, ?_, ?_⟩
    · rw [append, hlast]
      simp only [hp, ha, if_neg hroom]
    · simp only [cells, length_eq_of_reads hread, hcells]

/-- The builders of a column that appending and finishing lead to. -/
inductive Used (rt : ResolvedType) (wide native : Bool) : ColumnBuilder → Prop
  | made : Used rt wide native (new rt wide native)
  | appended {c c' : ColumnBuilder} {value : Option Bytes} {column : String} {s : Bool}
      (hused : Used rt wide native c) (happend : c.append value column = .ok (c', s)) :
      Used rt wide native c'
  | finished {c c' : ColumnBuilder} {array : ArrayRef} (hused : Used rt wide native c)
      (hfinish : c.finish = .ok (array, c')) : Used rt wide native c'

/-- Whatever was appended before, a builder stays that of its column. -/
theorem Used.agrees {rt : ResolvedType} {wide native : Bool} {c : ColumnBuilder}
    (h : Used rt wide native c) : c.Agrees ∧ c.blank = new rt wide native := by
  induction h with
  | made =>
      have hblank := new_blank rt wide native
      exact ⟨hblank ▸ agrees_blank _, hblank⟩
  | appended hused happend ih =>
      obtain ⟨hagrees, hblank⟩ := ih
      obtain ⟨-, -, -, hsame, hagrees'⟩ := append_spec hagrees happend
      exact ⟨hagrees', hsame.trans hblank⟩
  | finished hused hfinish ih =>
      obtain ⟨hagrees, hblank⟩ := ih
      obtain ⟨array, hdone, -, -⟩ := finish_spec hagrees
      rw [hdone] at hfinish
      obtain ⟨-, rfl⟩ := Prod.mk.inj (Except.ok.inj hfinish)
      exact ⟨agrees_blank _, (blank_blank _).trans hblank⟩

theorem Used.list {rt : ResolvedType} {wide native : Bool} {c : ColumnBuilder} {item : DataType}
    (h : Used rt wide native c) (hlist : arrowType rt wide native = .list item) :
    ∃ element offsets validity, c = list element offsets validity ∧
      element.kind = scalarKind (asElement rt) wide := by
  obtain ⟨-, hblank⟩ := h.agrees
  have hnew := new_dataType rt wide native
  rw [hlist] at hnew
  unfold new at hblank hnew
  split_ifs at hblank hnew with harray hnative
  · cases c with
    | scalar b => cases hblank
    | list element offsets validity =>
        obtain ⟨helement, -, -⟩ := ColumnBuilder.list.inj hblank
        exact ⟨element, offsets, validity, rfl, congrArg ScalarBuilder.kind helement⟩
  · cases hnew
  · simp only [dataType] at hnew
    cases hkind : scalarKind rt wide with
    | _ => rw [hkind] at hnew; cases hnew

end ColumnBuilder

/-! ### The values that a column of lists can show -/

/-- A value as it is declared: one dimension from 1, with elements between
commas. -/
structure ArrayValue.Plain (x : ArrayValue) (delimiter : UInt8) : Prop where
  dimension : x.dimensions.length ≤ 1
  bounds : ∀ d ∈ x.dimensions, d.lower = 1
  delimiter : delimiter = arrayComma ∨ x.elements = [] ∨ x.elements = [none]

theorem delimiterOf_cases (sqlType : String) :
    delimiterOf sqlType = arrayComma ∨
      delimiterOf sqlType = semicolon ∧ (resolve sqlType).pg = .text := by
  unfold delimiterOf
  split_ifs with hname
  · refine .inr ⟨rfl, ?_⟩
    simp only [resolve, hname]
    simp [pgType]
  · exact .inl rfl

theorem fromUtf8_eq_some {v : Bytes} {s : Text} (h : fromUtf8 v = some s) :
    v = utf8 (String.ofList s) := by
  unfold fromUtf8 at h
  split_ifs at h with hv
  rw [← Option.some.inj h, String.ofList_toList, hv]

/-- Texts of one reading are the same bytes. -/
theorem readElement_utf8_inj (column : String) :
    Relator.LeftUnique fun e p => Kind.utf8.readElement e column = .ok p := by
  have htext : ∀ {v : Bytes} {p : Option Value}, Kind.utf8.parse v column = .ok p →
      ∃ s, p = some (.text s) ∧ v = utf8 (String.ofList s) := by
    intro v p h
    unfold Kind.parse at h
    cases hs : fromUtf8 v with
    | none => simp [hs] at h
    | some s =>
        simp only [hs] at h
        exact ⟨s, (Except.ok.inj h).symm, fromUtf8_eq_some hs⟩
  intro e e' p h h'
  cases e with
  | none =>
      obtain rfl := Except.ok.inj h
      cases e' with
      | none => rfl
      | some v' =>
          obtain ⟨s, hs, -⟩ := htext h'
          cases hs
  | some v =>
      obtain ⟨s, rfl, rfl⟩ := htext h
      cases e' with
      | none => cases h'
      | some v' =>
          obtain ⟨s', hs, rfl⟩ := htext h'
          obtain rfl := Value.text.inj (Option.some.inj hs)
          rfl

namespace ArrayValue

theorem length_elements {x : ArrayValue} {d : Dimension} (h : x.dimensions = [d]) :
    x.elements.length = d.length := by
  have hcount := x.count
  rw [h, if_neg (List.cons_ne_nil d [])] at hcount
  simpa using hcount

theorem elements_eq_nil {x : ArrayValue} (h : x.dimensions = []) : x.elements = [] := by
  have hcount := x.count
  rw [if_pos h] at hcount
  exact List.eq_nil_of_length_eq_zero hcount

theorem text_single {x : ArrayValue} {d : Dimension} (h : x.dimensions = [d]) (hd : d.lower = 1)
    (delimiter : UInt8) :
    x.text delimiter = bracesText delimiter [x.elements.length] x.elements := by
  rw [text, h, if_neg (List.cons_ne_nil d []), if_pos (by simpa using hd), length_elements h]
  rfl

/-- A literal that splits at all shows one dimension from 1, or none. -/
theorem shape_of_parse {x : ArrayValue} {delimiter : UInt8} {column : String}
    {es : List (Option Bytes)} (h : parseArrayElements (x.text delimiter) column = .ok es) :
    x.dimensions = [] ∨ ∃ d, x.dimensions = [d] ∧ d.lower = 1 := by
  by_cases hnil : x.dimensions = []
  · exact .inl hnil
  · rw [text, if_neg hnil] at h
    by_cases hbounds : ∀ d ∈ x.dimensions, d.lower = 1
    · rw [if_pos hbounds, List.nil_append] at h
      cases hdims : x.dimensions with
      | nil => exact absurd hdims hnil
      | cons d rest =>
          cases rest with
          | nil => exact .inr ⟨d, rfl, hbounds d (by rw [hdims]; exact List.mem_cons_self)⟩
          | cons d' rest =>
              rw [hdims, List.map_cons, List.map_cons, parseArrayElements_nested d.length_pos] at h
              cases h
    · rw [if_neg hbounds, parseArrayElements_bounds hnil] at h
      cases h

/-- The splitting finds the elements of the plain values, and of no others. -/
theorem parse_text_iff {x : ArrayValue} {delimiter : UInt8}
    (hdelimiter : delimiter = arrayComma ∨
      delimiter = semicolon ∧ ∀ e, some e ∈ x.elements → IsBoxText e) (column : String) :
    parseArrayElements (x.text delimiter) column = .ok x.elements ↔ x.Plain delimiter := by
  constructor
  · intro h
    obtain hnil | ⟨d, hd, hlower⟩ := shape_of_parse h
    · exact ⟨by simp [hnil], by simp [hnil], .inr (.inl (elements_eq_nil hnil))⟩
    · refine ⟨by simp [hd], by simpa [hd] using hlower, ?_⟩
      obtain hcomma | ⟨rfl, hbox⟩ := hdelimiter
      · exact .inl hcomma
      · rw [text_single hd hlower] at h
        exact .inr (parseArrayElements_semicolons hbox h)
  · intro hplain
    cases hdims : x.dimensions with
    | nil =>
        rw [text, if_pos hdims, elements_eq_nil hdims]
        rfl
    | cons d rest =>
        have hrest : rest = [] := by
          have hone := hplain.dimension
          rw [hdims, List.length_cons] at hone
          exact List.eq_nil_of_length_eq_zero (by omega)
        subst hrest
        rw [text_single hdims (hplain.bounds d (by rw [hdims]; exact List.mem_cons_self))]
        obtain rfl | hnone | hnone := hplain.delimiter
        · rw [bracesText_comma, parse_array_elements_array_text]
        · have hlen := length_elements hdims
          rw [hnone] at hlen
          exact absurd hlen d.length_pos.ne
        · rw [hnone, bracesText_single]
          rfl

end ArrayValue

/-- The nulls of a list are the nulls of the value. -/
def NullsKept : List (Option Bytes) → List (Option Value) → Prop :=
  List.Forall₂ fun e p => p = none ↔ e = none

theorem nullsKept_iff {kind : Kind} {column : String} {es : List (Option Bytes)}
    {items : List (Option Value)} (h : Reads kind column es items) :
    NullsKept es items ↔ ∀ e, some e ∈ es → kind.degrades e = false := by
  induction h with
  | nil => simp [NullsKept]
  | @cons e p es items hp _ ih =>
      have hhead : (p = none ↔ e = none) ↔ ∀ v, e = some v → kind.degrades v = false := by
        cases e with
        | none =>
            obtain rfl := Except.ok.inj hp
            simp
        | some v =>
            have hnone := Kind.parse_isNone hp
            cases p with
            | none => simpa using hnone.symm
            | some w => simpa using hnone.symm
      rw [NullsKept, List.forall₂_cons, hhead]
      constructor
      · rintro ⟨hfirst, hrest⟩ v hv
        obtain rfl | hv := List.mem_cons.mp hv
        · exact hfirst v rfl
        · exact ih.mp hrest v hv
      · intro hall
        refine ⟨?_, ih.mpr fun v hv => hall v (List.mem_cons_of_mem _ hv)⟩
        rintro v rfl
        exact hall v List.mem_cons_self

theorem elements_of_reads {sqlType column : String} {wide : Bool} {x : ArrayValue}
    {es : List (Option Bytes)} {items : List (Option Value)}
    (hparse : parseArrayElements (x.text (delimiterOf sqlType)) column = .ok es)
    (hes : Reads (scalarKind (asElement (resolve sqlType)) wide) column es items)
    (hread : Reads (scalarKind (asElement (resolve sqlType)) wide) column x.elements items) :
    es = x.elements := by
  obtain hcomma | ⟨-, hpg⟩ := delimiterOf_cases sqlType
  · rw [hcomma] at hparse
    have hplain : x.Plain arrayComma := by
      obtain hnil | ⟨d, hd, hlower⟩ := x.shape_of_parse hparse
      · exact ⟨by simp [hnil], by simp [hnil], .inl rfl⟩
      · exact ⟨by simp [hd], by simpa [hd] using hlower, .inl rfl⟩
    rw [(ArrayValue.parse_text_iff (.inl rfl) column).mpr hplain] at hparse
    exact (Except.ok.inj hparse).symm
  · have hkind : scalarKind (asElement (resolve sqlType)) wide = .utf8 := by
      simp [scalarKind, asElement, hpg]
    rw [hkind] at hes hread
    exact (readElement_utf8_inj column).forall₂ hes hread

/-- A column of lists takes the values that are as declared, with elements that
have an encoding, up to the last offset. -/
theorem native_array_append_iff {sqlType column : String} {wide : Bool} {item : DataType}
    {c : ColumnBuilder} {x : ArrayValue} {items : List (Option Value)}
    (hlist : arrowType (resolve sqlType) wide true = .list item)
    (hused : ColumnBuilder.Used (resolve sqlType) wide true c)
    (hbox : delimiterOf sqlType = semicolon → ∀ e, some e ∈ x.elements → IsBoxText e)
    (hread : Reads (scalarKind (asElement (resolve sqlType)) wide) column x.elements items) :
    c.AppendsList (x.text (delimiterOf sqlType)) column items ∧ NullsKept x.elements items ↔
      x.Plain (delimiterOf sqlType) ∧
        (∀ e, some e ∈ x.elements →
          (scalarKind (asElement (resolve sqlType)) wide).degrades e = false) ∧
        c.held + x.elements.length ≤ ColumnBuilder.maxOffset := by
  obtain ⟨element, offsets, validity, rfl, hkind⟩ := hused.list hlist
  have hdelimiter : delimiterOf sqlType = arrayComma ∨
      delimiterOf sqlType = semicolon ∧ ∀ e, some e ∈ x.elements → IsBoxText e := by
    obtain hcomma | ⟨hsemicolon, -⟩ := delimiterOf_cases sqlType
    · exact .inl hcomma
    · exact .inr ⟨hsemicolon, hbox hsemicolon⟩
  have hsplit := ArrayValue.parse_text_iff hdelimiter column
  rw [ColumnBuilder.appendsList_iff hused.agrees.1, nullsKept_iff hread, hkind]
  constructor
  · rintro ⟨⟨es, hparse, hes, hmax⟩, hheld⟩
    obtain rfl := elements_of_reads hparse hes hread
    exact ⟨hsplit.mp hparse, hheld, hmax⟩
  · rintro ⟨hplain, hheld, hmax⟩
    exact ⟨⟨x.elements, hsplit.mpr hplain, hread, hmax⟩, hheld⟩

def pair : ArrayValue where
  dimensions := [⟨1, 2, by decide⟩]
  elements := [some (ascii "1"), none]
  count := by simp

theorem native_array_append_pair :
    (ColumnBuilder.new (resolve "integer[]") false true).AppendsList
        (pair.text (delimiterOf "integer[]")) "n" [some (.int 1), none]
      ∧ NullsKept pair.elements [some (.int 1), none] := by
  have hdelimiter : delimiterOf "integer[]" = arrayComma := by decide +kernel
  have hlist : arrowType (resolve "integer[]") false true = .list .int32 := by decide +kernel
  have hkind : scalarKind (asElement (resolve "integer[]")) false = .int32 := by decide +kernel
  have hread : Reads (scalarKind (asElement (resolve "integer[]")) false) "n" pair.elements
      [some (.int 1), none] := by
    rw [hkind]
    exact .cons (by decide +kernel) (.cons rfl .nil)
  have hcomma : delimiterOf "integer[]" ≠ semicolon := by
    rw [hdelimiter]
    decide
  apply (native_array_append_iff hlist .made (fun h => absurd h hcomma) hread).mpr
  refine ⟨⟨by decide, by decide, .inl hdelimiter⟩, ?_, by decide +kernel⟩
  intro e _
  rw [hkind]
  exact degrades_of_unheld_nil rfl e

/-- One dimension, from 2. -/
def shifted : ArrayValue where
  dimensions := [⟨2, 2, by decide⟩]
  elements := [some (ascii "1"), some (ascii "2")]
  count := by simp

/-- Two dimensions in a column that declares one. -/
def square : ArrayValue where
  dimensions := [⟨1, 2, by decide⟩, ⟨1, 1, by decide⟩]
  elements := [some (ascii "1"), some (ascii "2")]
  count := by simp

def unitBox : ArrayValue where
  dimensions := [⟨1, 1, by decide⟩]
  elements := [some (ascii "(1,1),(0,0)")]
  count := by simp

theorem native_array_append_counterexample :
    shifted.text (delimiterOf "integer[]") = ascii "[2:3]={1,2}"
      ∧ (ColumnBuilder.new (resolve "integer[]") false true).append
          (some (shifted.text (delimiterOf "integer[]"))) "n" = .error (bad "n" "array")
      ∧ square.text (delimiterOf "integer[]") = ascii "{{1},{2}}"
      ∧ (ColumnBuilder.new (resolve "integer[]") false true).append
          (some (square.text (delimiterOf "integer[]"))) "n" = .error (bad "n" "array")
      ∧ arrowType (resolve "box[]") false true = .list .utf8
      ∧ unitBox.text (delimiterOf "box[]") = ascii "{(1,1),(0,0)}"
      ∧ ((ColumnBuilder.new (resolve "box[]") false true).append
          (some (unitBox.text (delimiterOf "box[]"))) "n").map (fun r => r.1.cells)
        = .ok [.list [some (.text "(1".toList), some (.text "1)".toList),
            some (.text "(0".toList), some (.text "0)".toList)]] := by
  decide +kernel

end PgDelta.Builders
