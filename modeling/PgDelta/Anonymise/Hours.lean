import PgDelta.Anonymise.Numbers
import PgDelta.Types.Dates

/-!
Times of day with other digits in the place of theirs.

Hours, minutes and seconds of two digits leave their bounds in other digits.
Where each of them is written with a single one, any digits make a time.
-/

namespace PgDelta.Anonymise

open PgDelta.Lib PgDelta.Values PgDelta.Builders

/-! ### The pieces of redigited texts -/

namespace Redigited

variable {s u : Text}

theorem splitOnce {sep : Char} (hsep : isDigitChar sep = false) (h : Redigited s u) :
    Option.Rel (fun a b => Redigited a.1 b.1 ∧ Redigited a.2 b.2) (Lib.splitOnce sep s)
      (Lib.splitOnce sep u) := by
  induction h with
  | nil => exact .none
  | @cons c d s u hcd h ih =>
      have heq := hcd.eq_iff hsep
      by_cases hc : c = sep
      · rw [Lib.splitOnce, if_pos hc, Lib.splitOnce, if_pos (heq.1 hc)]
        exact .some ⟨.nil, h⟩
      · rw [Lib.splitOnce, if_neg hc, Lib.splitOnce, if_neg fun hd => hc (heq.2 hd)]
        generalize Lib.splitOnce sep s = a at ih
        generalize Lib.splitOnce sep u = b at ih
        cases ih with
        | none => exact .none
        | some hab => exact .some ⟨.cons hcd hab.1, hab.2⟩

theorem rsplitOnce {p : Char → Bool} (hp : ∀ c, p c = true → isDigitChar c = false)
    (h : Redigited s u) :
    Option.Rel (fun a b => Redigited a.1 b.1 ∧ a.2.1 = b.2.1 ∧ Redigited a.2.2 b.2.2)
      (Lib.rsplitOnce p s) (Lib.rsplitOnce p u) := by
  induction h with
  | nil => exact .none
  | @cons c d s u hcd h ih =>
      rw [Lib.rsplitOnce, Lib.rsplitOnce]
      generalize Lib.rsplitOnce p s = a at ih
      generalize Lib.rsplitOnce p u = b at ih
      cases ih with
      | some hab => exact .some ⟨.cons hcd hab.1, hab.2⟩
      | none =>
          by_cases hc : p c = true
          · obtain rfl := hcd.eq_of_not_digit (hp c hc)
            simp only [hc, if_true]
            exact .some ⟨.nil, rfl, h⟩
          · have hd : ¬p d = true := fun hd => by
              obtain rfl := (hcd.eq_iff (hp d hd)).2 rfl
              exact hc hd
            simp only [if_neg hc, if_neg hd]
            exact .none

theorem splitAll {sep : Char} (hsep : isDigitChar sep = false) (h : Redigited s u) :
    List.Forall₂ Redigited (Lib.splitAll sep s) (Lib.splitAll sep u) := by
  induction h with
  | nil => exact .cons .nil .nil
  | @cons c d s u hcd h ih =>
      have heq := hcd.eq_iff hsep
      by_cases hc : c = sep
      · rw [Lib.splitAll, if_pos hc, Lib.splitAll, if_pos (heq.1 hc)]
        exact .cons .nil ih
      · rw [Lib.splitAll, if_neg hc, Lib.splitAll, if_neg fun hd => hc (heq.2 hd)]
        generalize Lib.splitAll sep s = as at ih
        generalize Lib.splitAll sep u = bs at ih
        cases ih with
        | nil => exact .cons (.cons hcd .nil) .nil
        | cons hab hrest => exact .cons (.cons hcd hab) hrest

theorem splitn {sep : Char} (hsep : isDigitChar sep = false) (n : ℕ) (h : Redigited s u) :
    List.Forall₂ Redigited (Lib.splitn sep n s) (Lib.splitn sep n u) := by
  induction n using Nat.strong_induction_on generalizing s u with
  | h n ih =>
      obtain _ | _ | n := n
      · exact .nil
      · exact .cons h .nil
      · have hsplit := h.splitOnce hsep
        rw [Lib.splitn, Lib.splitn]
        generalize Lib.splitOnce sep s = a at hsplit
        generalize Lib.splitOnce sep u = b at hsplit
        cases hsplit with
        | none => exact .cons h .nil
        | some hab => exact .cons hab.1 (ih (n + 1) (by omega) hab.2)

theorem symm (h : Redigited s u) : Redigited u s :=
  List.Forall₂.flip (h.imp fun _ _ hcd => hcd.imp Eq.symm And.symm)

theorem countP_eq (h : Redigited s u) : u.countP isDigitChar = s.countP isDigitChar := by
  induction h with
  | nil => rfl
  | cons hcd h ih => rw [List.countP_cons, List.countP_cons, ih, hcd.isDigit]

/-- A number of few digits is read, or it is not, whatever they are. -/
theorem parseInt64 (h : Redigited s u) (hcount : s.countP isDigitChar ≤ 18) :
    (Values.parseInt64 s).isSome = (Values.parseInt64 u).isSome := by
  have hread : ∀ {a b : Text}, Redigited a b → a.countP isDigitChar ≤ 18 →
      (Values.parseInt64 a).isSome = true → (Values.parseInt64 b).isSome = true := by
    intro a b hab hle ha
    obtain ⟨n, hn⟩ := Option.isSome_iff_exists.1 ha
    obtain ⟨k, hk, -⟩ := Option.map_eq_some_iff.1 hn
    obtain ⟨m, hm⟩ := hab.parseInt (w := 18) (by norm_num) (by norm_num) hle hk
    rw [Values.parseInt64, hm]
    rfl
  rw [Bool.eq_iff_iff]
  exact ⟨hread h hcount, hread h.symm (h.countP_eq.trans_le hcount)⟩

end Redigited

/-! ### The parts of a time -/

def isSignChar (c : Char) : Bool := c == '+' || c == '-'

/-- The text that is searched for an offset. -/
def clockTail (s : Text) : Text := ((splitOnce ' ' s).map Prod.snd).getD s

def offsetHours (s : Text) : Text :=
  match rsplitOnce isSignChar (clockTail s) with
  | none => []
  | some (_, _, off) => (splitAll ':' off).headD []

/-- Hours, minutes and seconds. -/
def clockPieces (s : Text) : List Text :=
  splitn ':' 3 ((splitOnce '.' (splitOffset s).1).getD ((splitOffset s).1, [])).1

/-- A time whose digits may be any others. -/
def Brief (v : Bytes) : Prop :=
  ∃ s, TrimsTo v s ∧ (∀ piece ∈ clockPieces s, piece.length ≤ 1)
    ∧ (offsetHours s).countP isDigitChar ≤ 18

theorem isSignChar_not_digit (c : Char) (h : isSignChar c = true) : isDigitChar c = false := by
  simp only [isSignChar, Bool.or_eq_true, beq_iff_eq] at h
  rcases h with rfl | rfl
  · rfl
  · rfl

def clockBefore (s : Text) : Text := ((splitOnce ' ' s).map fun a => a.1 ++ [' ']).getD []

/-- What stands in front of an offset that is read. -/
theorem offsetFields_body (s : Text) :
    (offsetFields s).map Prod.fst = (rsplitOnce isSignChar (clockTail s)).bind fun r =>
      (parseInt64 ((splitAll ':' r.2.2).headD [])).map fun _ => clockBefore s ++ r.1 := by
  have hsign : (fun c => c == '+' || c == '-') = isSignChar := rfl
  unfold offsetFields clockTail clockBefore
  rw [hsign]
  cases splitOnce ' ' s with
  | none =>
      dsimp only [Option.map_none, Option.getD_none]
      cases rsplitOnce isSignChar s with
      | none => rfl
      | some r =>
          dsimp only [Option.bind_some]
          cases splitAll ':' r.2.2 with
          | nil => rfl
          | cons h rest => exact Option.map_map ..
  | some a =>
      dsimp only [Option.map_some, Option.getD_some]
      cases rsplitOnce isSignChar a.2 with
      | none => rfl
      | some r =>
          dsimp only [Option.bind_some]
          cases splitAll ':' r.2.2 with
          | nil => rfl
          | cons h rest => exact Option.map_map ..

theorem splitOffset_body (s : Text) :
    (splitOffset s).1 = ((offsetFields s).map Prod.fst).getD s := by
  rw [splitOffset_eq]
  cases offsetFields s with
  | none => rfl
  | some r => rfl

theorem Redigited.splitOffset {s u : Text} (h : Redigited s u)
    (hcount : (offsetHours s).countP isDigitChar ≤ 18) :
    Redigited (Values.splitOffset s).1 (Values.splitOffset u).1 := by
  have hspace : isDigitChar ' ' = false := rfl
  have hsplit := h.splitOnce hspace
  have htail : Redigited (clockTail s) (clockTail u) := by
    unfold clockTail
    generalize Lib.splitOnce ' ' s = a at hsplit
    generalize Lib.splitOnce ' ' u = b at hsplit
    cases hsplit with
    | none => exact h
    | some hab => exact hab.2
  have hbefore : Redigited (clockBefore s) (clockBefore u) := by
    unfold clockBefore
    generalize Lib.splitOnce ' ' s = a at hsplit
    generalize Lib.splitOnce ' ' u = b at hsplit
    cases hsplit with
    | none => exact .nil
    | some hab => exact List.rel_append hab.1 (.cons (.inl rfl) .nil)
  have hsign := htail.rsplitOnce isSignChar_not_digit
  rw [splitOffset_body, splitOffset_body, offsetFields_body, offsetFields_body]
  unfold offsetHours at hcount
  generalize Lib.rsplitOnce isSignChar (clockTail s) = a at hsign hcount
  generalize Lib.rsplitOnce isSignChar (clockTail u) = b at hsign
  cases hsign with
  | none => exact h
  | @some a b hab =>
      obtain ⟨body, sign, off⟩ := a
      obtain ⟨body', sign', off'⟩ := b
      obtain ⟨hbody, -, hoff⟩ := hab
      have hhours : Redigited ((Lib.splitAll ':' off).headD [])
        ((Lib.splitAll ':' off').headD []) := by
        have hpieces := Redigited.splitAll (show isDigitChar ':' = false from rfl) hoff
        generalize Lib.splitAll ':' off = as at hpieces
        generalize Lib.splitAll ':' off' = bs at hpieces
        cases hpieces with
        | nil => exact .nil
        | cons hab hrest => exact hab
      have hread := hhours.parseInt64 hcount
      simp only [Option.bind_some]
      cases hleft : Values.parseInt64 ((Lib.splitAll ':' off).headD []) with
      | none =>
          rw [hleft] at hread
          have hnone : Values.parseInt64 ((Lib.splitAll ':' off').headD []) = none :=
            Option.not_isSome_iff_eq_none.mp (by rw [← hread]; simp)
          rw [hnone]
          exact h
      | some n =>
          rw [hleft] at hread
          obtain ⟨m, hm⟩ := Option.isSome_iff_exists.mp hread.symm
          rw [hm]
          exact List.rel_append hbefore hbody

/-! ### Times that are read -/

/-- A single digit is a field of every time. -/
def IsSingle (n : Int64) : Prop := ∃ k : ℕ, k ≤ 9 ∧ n = .ofInt k

theorem single_of_piece {piece piece' : Text} (hlen : piece.length ≤ 1)
    (h : Redigited piece piece') {n : Int64} (hn : parseInt64 piece = some n) :
    ∃ m, parseInt64 piece' = some m ∧ IsSingle m := by
  obtain ⟨k, hk, -⟩ := Option.map_eq_some_iff.1 hn
  obtain ⟨-, -, t, hne, hall, hform⟩ := parseInt_cases hk
  have hpos := List.length_pos_of_ne_nil hne
  have hpiece : piece = t := by
    rcases hform with ⟨rfl, -⟩ | ⟨rfl | rfl, -⟩
    · rw [List.length_cons] at hlen
      omega
    · rw [List.length_cons] at hlen
      omega
    · rfl
  subst hpiece
  have hall' := h.all_digits hall
  have hlt := digitsValue_lt hall'
  rw [← h.length_eq, show piece.length = 1 by omega] at hlt
  refine ⟨.ofInt (digitsValue piece'), ?_, digitsValue piece', by omega, rfl⟩
  rw [parseInt64, parseInt_of_digits (h.ne_nil hne) hall' (by omega) (by omega)]
  rfl

theorem single_bounds {n : Int64} (h : IsSingle n) : 0 ≤ n ∧ n ≤ 24 ∧ n < 60 ∧ n ≤ 60 := by
  obtain ⟨k, hk, rfl⟩ := h
  have hle : ∀ b : ℕ, 10 ≤ b → b < 100 → Int64.ofInt k ≤ .ofInt b := fun b hb hb' =>
    (field_le (by omega) hb').2 (by omega)
  refine ⟨(field_le (a := 0) (by omega) (by omega)).2 (by omega), hle 24 (by omega) (by omega), ?_,
    hle 60 (by omega) (by omega)⟩
  rw [← Int64.not_le]
  exact fun h => absurd ((field_le (a := 60) (by omega) (by omega)).1 h) (by omega)

theorem fractionMicros_redigit {s u : Text} (h : Redigited s u)
    (hs : (fractionMicros s).isSome = true) : (fractionMicros u).isSome = true := by
  cases h with
  | nil => exact hs
  | @cons c d s u hcd h =>
      have hsu : Redigited (c :: s) (d :: u) := .cons hcd h
      unfold fractionMicros at hs ⊢
      simp only [List.isEmpty_cons, Bool.false_eq_true, if_false] at hs ⊢
      split_ifs at hs with hbad
      · cases hs
      rw [Bool.or_eq_true, not_or, Bool.not_eq_true', Bool.not_eq_false] at hbad
      obtain ⟨hlen, hall⟩ := hbad
      have hall' := hsu.all_digits hall
      have hlen' : textLen (d :: u) = textLen (c :: s) := by
        rw [textLen_of_digits hall', textLen_of_digits hall, hsu.length_eq]
      rw [hlen', hall', Bool.not_true, Bool.or_false, if_neg (by simpa using hlen)]
      rfl

/-- Hours, minutes and seconds of one digit each may be any others. -/
theorem timeMicros_redigit {s u : Text} (h : Redigited s u)
    (hbrief : ∀ piece ∈ splitn ':' 3 ((splitOnce '.' s).getD (s, [])).1, piece.length ≤ 1)
    (hs : (timeMicros s).isSome = true) : (timeMicros u).isSome = true := by
  obtain ⟨hhms, hfrac⟩ : Redigited ((splitOnce '.' s).getD (s, [])).1
    ((splitOnce '.' u).getD (u, [])).1
      ∧ Redigited ((splitOnce '.' s).getD (s, [])).2 ((splitOnce '.' u).getD (u, [])).2 := by
    have hsplit := Redigited.splitOnce (show isDigitChar '.' = false from rfl) h
    generalize splitOnce '.' s = a at hsplit
    generalize splitOnce '.' u = b at hsplit
    cases hsplit with
    | none => exact ⟨h, .nil⟩
    | some hab => exact hab
  unfold timeMicros at hs ⊢
  generalize (splitOnce '.' s).getD (s, []) = a at hbrief hhms hfrac hs
  generalize (splitOnce '.' u).getD (u, []) = b at hhms hfrac ⊢
  obtain ⟨hms, frac⟩ := a
  obtain ⟨hms', frac'⟩ := b
  have hpieces := Redigited.splitn (show isDigitChar ':' = false from rfl) 3 hhms
  dsimp only at hbrief hhms hfrac hpieces hs ⊢
  generalize splitn ':' 3 hms = pieces at hbrief hpieces hs
  generalize splitn ':' 3 hms' = pieces' at hpieces ⊢
  obtain _ | ⟨hh, hrest⟩ := hpieces
  · exact hs
  obtain _ | ⟨hm, hrest⟩ := hrest
  · exact hs
  next h h' m m' rest rest' =>
    have hsec : Redigited (rest.head?.getD ['0']) (rest'.head?.getD ['0'])
        ∧ (rest.head?.getD ['0']).length ≤ 1 := by
      cases hrest with
      | nil => exact ⟨.cons (.inl rfl) .nil, le_rfl⟩
      | cons hab hmore => exact ⟨hab, hbrief _ (by simp)⟩
    cases hhour : parseInt64 h with
    | none => simp [hhour] at hs
    | some n =>
        cases hminute : parseInt64 m with
        | none => simp [hhour, hminute] at hs
        | some n' =>
            cases hsecond : parseInt64 (rest.head?.getD ['0']) with
            | none => simp [hhour, hminute, hsecond] at hs
            | some n'' =>
                obtain ⟨k, hk, hk'⟩ := single_of_piece (hbrief h (by simp)) hh hhour
                obtain ⟨l, hl, hl'⟩ := single_of_piece (hbrief m (by simp)) hm hminute
                obtain ⟨o, ho, ho'⟩ := single_of_piece hsec.2 hsec.1 hsecond
                obtain ⟨hk0, hk24, -, -⟩ := single_bounds hk'
                obtain ⟨hl0, -, hl60, -⟩ := single_bounds hl'
                obtain ⟨ho0, -, -, ho60⟩ := single_bounds ho'
                simp only [hhour, hminute, hsecond] at hs
                simp only [hk, hl, ho]
                rw [if_pos ⟨hk0, hk24, hl0, hl60, ho0, ho60⟩, Option.isSome_map]
                split_ifs at hs
                · rw [Option.isSome_map] at hs
                  exact fractionMicros_redigit hfrac hs
                · cases hs

theorem parseTime_iff (v : Bytes) (column : String) :
    (∃ r, parseTime v column = .ok r)
      ↔ ∃ s, TrimsTo v s ∧ (timeMicros (splitOffset s).1).isSome = true := by
  simp only [← trimmed_ok_iff v column "time"]
  unfold parseTime
  cases hs : trimmed v column "time" with
  | error e => simp
  | ok s => cases ht : timeMicros (splitOffset s).1 <;> simp [ht]

theorem trimsTo_unique {v : Bytes} {s s' : Text} (h : TrimsTo v s) (h' : TrimsTo v s') :
    s = s' := by
  obtain ⟨t, ht, rfl⟩ := h
  obtain ⟨t', ht', rfl⟩ := h'
  rw [ht] at ht'
  rw [Option.some.inj ht']

theorem parseTime_redigit {v w : Bytes} (h : List.Forall₂ RedigitByte v w) (hbrief : Brief v)
    {column : String} (hv : ∃ r, parseTime v column = .ok r) :
    ∃ r, parseTime w column = .ok r := by
  obtain ⟨s, hs, hread⟩ := (parseTime_iff v column).1 hv
  obtain ⟨s', hs', hpieces, hhours⟩ := hbrief
  obtain rfl : s' = s := trimsTo_unique hs' hs
  obtain ⟨u, hu, hsu⟩ := trimsTo_redigit h hs
  exact (parseTime_iff w column).2
    ⟨u, hu, timeMicros_redigit (hsu.splitOffset hhours) hpieces hread⟩

end PgDelta.Anonymise
