import PgDelta.Scan.Lexer

/-!
Where the type of a column ends.

`takeType` cuts the text behind a column's name at the first word outside all
parens that ends a type. It leaves the type itself when the type has no such
word and closes its own parens.
-/

namespace PgDelta.Scan

open PgDelta.Lib

/-! ### Trimmed text -/

/-- A text that neither begins nor ends with white space. -/
def NoBlankEnds (b : Bytes) : Prop :=
  (∀ c ∈ b.head?, isAsciiWhitespace c = false) ∧ ∀ c ∈ b.getLast?, isAsciiWhitespace c = false

theorem trimAsciiEnd_append_cons {c : UInt8} (hc : isAsciiWhitespace c = false) (a w : Bytes) :
    trimAsciiEnd (a ++ c :: w) = a ++ c :: trimAsciiEnd w := by
  induction w using List.reverseRecOn with
  | nil => rw [trimAsciiEnd, List.rdropWhile_concat_neg _ _ _ (by simpa using hc)]; rfl
  | append_singleton w d ih =>
    have hassoc : a ++ c :: (w ++ [d]) = a ++ c :: w ++ [d] := by simp
    rw [hassoc, trimAsciiEnd, trimAsciiEnd]
    by_cases hd : isAsciiWhitespace d = true
    · rw [List.rdropWhile_concat_pos _ _ _ hd, List.rdropWhile_concat_pos _ _ _ hd]
      exact ih
    · rw [List.rdropWhile_concat_neg _ _ _ hd, List.rdropWhile_concat_neg _ _ _ hd, hassoc]

theorem trimAsciiEnd_eq_nil {w : Bytes} (h : ∀ c ∈ w, isAsciiWhitespace c = true) :
    trimAsciiEnd w = [] := by
  rw [trimAsciiEnd, List.rdropWhile_eq_nil_iff]
  exact h

theorem exists_blanks_trimAsciiEnd (w : Bytes) :
    ∃ x, w = trimAsciiEnd w ++ x ∧ ∀ c ∈ x, isAsciiWhitespace c = true := by
  induction w using List.reverseRecOn with
  | nil => exact ⟨[], rfl, by simp⟩
  | append_singleton w c ih =>
    by_cases hc : isAsciiWhitespace c = true
    · obtain ⟨x, hw, hx⟩ := ih
      refine ⟨x ++ [c], ?_, ?_⟩
      · rw [trimAsciiEnd, List.rdropWhile_concat_pos _ _ _ hc, ← List.append_assoc]
        exact congrArg (· ++ [c]) hw
      · intro d hd
        obtain hd | hd := List.mem_append.1 hd
        · exact hx d hd
        · rwa [List.mem_singleton.1 hd]
    · exact ⟨[], by rw [trimAsciiEnd, List.rdropWhile_concat_neg _ _ _ hc, List.append_nil],
        by simp⟩

theorem noBlankEnds_trimAscii (b : Bytes) : NoBlankEnds (trimAscii b) := by
  constructor
  · intro c hc
    have hprefix : trimAscii b <+: trimAsciiStart b := List.rdropWhile_prefix _ _
    obtain ⟨x, hx⟩ := hprefix
    obtain ⟨s, hs⟩ : ∃ s, trimAscii b = c :: s := by
      cases h : trimAscii b with
      | nil => simp [h] at hc
      | cons d s =>
        obtain rfl : d = c := by simpa [h] using hc
        exact ⟨s, rfl⟩
    have hhead : (trimAsciiStart b).head? = some c := by rw [← hx, hs]; rfl
    have hnot := List.head?_dropWhile_not isAsciiWhitespace b
    rw [trimAsciiStart] at hhead
    rw [hhead] at hnot
    exact hnot
  · intro c hc
    rw [trimAscii, trimAsciiEnd] at hc
    obtain ⟨hne, rfl⟩ := List.mem_getLast?_eq_getLast hc
    exact Bool.eq_false_iff.2 (List.rdropWhile_last_not _ _ hne)

theorem trimAsciiStart_eq_self {b : Bytes} (h : ∀ c ∈ b.head?, isAsciiWhitespace c = false) :
    trimAsciiStart b = b := by
  cases b with
  | nil => rfl
  | cons c b => rw [trimAsciiStart, List.dropWhile_cons_of_neg (by simpa using h c rfl)]

theorem trimAscii_eq_self {b : Bytes} (h : NoBlankEnds b) : trimAscii b = b := by
  rw [trimAscii, trimAsciiStart_eq_self h.1, trimAsciiEnd, List.rdropWhile_eq_self_iff]
  intro hne
  simpa using h.2 _ (List.getLast_mem_getLast? hne)

theorem trimAscii_cons_blank {c : UInt8} (hc : isAsciiWhitespace c = true) (b : Bytes) :
    trimAscii (c :: b) = trimAscii b := by
  rw [trimAscii, trimAsciiStart, List.dropWhile_cons_of_pos hc]
  rfl

/-- The text in front of an ASCII byte is not decoded to all of it. -/
theorem fromUtf8Lossy_append_ascii_ne {w : UInt8} (hw : w.toNat < 0x80) (u s : Bytes) :
    fromUtf8Lossy u ≠ fromUtf8Lossy (u ++ w :: s) := by
  intro h
  have hlist := congrArg (fun t : String => t.toList.length) h
  simp [fromUtf8Lossy, utf8DecodeFrom_append_ascii hw u s
    (show Utf8State.start.NotAscii from trivial)] at hlist

theorem blank_lt {c : UInt8} (h : isAsciiWhitespace c = true) : c.toNat < 0x80 := by
  have : c = 32 ∨ c = 9 ∨ c = 10 ∨ c = 12 ∨ c = 13 := by
    simpa [isAsciiWhitespace, or_assoc] using h
  obtain rfl | rfl | rfl | rfl | rfl := this <;> decide

/-! ### The type in its tail -/

def netParens (b : Bytes) : ℤ := b.count openParen - b.count closeParen

def depthBehind (depth : ℤ) (c : UInt8) : ℤ :=
  if c = openParen then depth + 1 else if c = closeParen then depth - 1 else depth

theorem netParens_cons (c : UInt8) (b : Bytes) (depth : ℤ) :
    depth + netParens (c :: b) = depthBehind depth c + netParens b := by
  unfold netParens depthBehind
  by_cases hopen : c = openParen
  · subst hopen
    rw [if_pos rfl, List.count_cons_self, List.count_cons_of_ne (by decide)]
    push_cast
    ring
  by_cases hclose : c = closeParen
  · subst hclose
    rw [if_neg hopen, if_pos rfl, List.count_cons_self, List.count_cons_of_ne hopen]
    push_cast
    ring
  · rw [if_neg hopen, if_neg hclose, List.count_cons_of_ne hopen, List.count_cons_of_ne hclose]

theorem typeLength_cons (depth : ℤ) (atWord : Bool) (c : UInt8) (s : Bytes) :
    typeLength depth atWord (c :: s) =
      if depthBehind depth c = 0 ∧ atWord
          ∧ typeTerminators.any (eqIgnoreAsciiCase (firstWord (c :: s))) then 0
      else typeLength (depthBehind depth c) (isAsciiWhitespace c) s + 1 := rfl

/-- Nothing, or a text that begins with white space. -/
def StartsBlank (y : Bytes) : Prop := ∀ c ∈ y.head?, isAsciiWhitespace c = true

theorem firstWord_append (a : Bytes) {y : Bytes} (hy : StartsBlank y) :
    firstWord (a ++ y) = firstWord a := by
  induction a with
  | nil =>
    cases y with
    | nil => rfl
    | cons c y =>
      have hc := hy c rfl
      simp [firstWord, hc]
  | cons c a ih =>
    simp only [firstWord, List.cons_append, List.takeWhile_cons] at ih ⊢
    rw [ih]

/-- The words of a text are its own ones when white space follows it. -/
theorem typeLength_append (depth : ℤ) (atWord : Bool) (a : Bytes) {y : Bytes}
    (hy : StartsBlank y) :
    typeLength depth atWord (a ++ y) =
      if typeLength depth atWord a = a.length then
        a.length + typeLength (depth + netParens a) (a.getLast?.elim atWord isAsciiWhitespace) y
      else typeLength depth atWord a := by
  induction a generalizing depth atWord with
  | nil => simp [typeLength, netParens]
  | cons c a ih =>
    have hword : firstWord (c :: a ++ y) = firstWord (c :: a) := firstWord_append _ hy
    have hlast : (c :: a).getLast?.elim atWord isAsciiWhitespace
        = a.getLast?.elim (isAsciiWhitespace c) isAsciiWhitespace := by
      rw [List.getLast?_cons]
      cases a.getLast? <;> rfl
    rw [List.cons_append, typeLength_cons, typeLength_cons, ← List.cons_append, hword, hlast,
      netParens_cons]
    by_cases hcut : depthBehind depth c = 0 ∧ atWord = true
        ∧ typeTerminators.any (eqIgnoreAsciiCase (firstWord (c :: a))) = true
    · simp [hcut]
    · simp only [hcut, if_false, ih, List.length_cons, Nat.add_right_cancel_iff]
      split_ifs <;> omega

/-- A type is cut at its start or behind white space. -/
theorem typeLength_cut {depth : ℤ} {atWord : Bool} {a : Bytes}
    (h : typeLength depth atWord a ≠ a.length) :
    typeLength depth atWord a = 0 ∨ ∃ u c v, a = u ++ c :: v ∧ isAsciiWhitespace c = true
      ∧ typeLength depth atWord a = u.length + 1 := by
  induction a generalizing depth atWord with
  | nil => exact absurd rfl h
  | cons c a ih =>
    rw [typeLength_cons] at h ⊢
    split_ifs at h ⊢ with hcut
    · exact .inl rfl
    · right
      rw [List.length_cons, Ne, Nat.add_right_cancel_iff] at h
      obtain hzero | ⟨u, d, v, rfl, hd, hlength⟩ := ih h
      · refine ⟨[], c, a, rfl, ?_, by rw [hzero]; rfl⟩
        by_contra hblank
        cases a with
        | nil => exact h hzero
        | cons e a =>
          rw [typeLength_cons] at hzero
          split_ifs at hzero with hcut'
          exact hblank hcut'.2.1
      · exact ⟨c :: u, d, v, rfl, hd, by rw [hlength]; rfl⟩

/-- A clause behind a type: a space, a word that ends the type, and more behind
white space. -/
def StartsClause (y : Bytes) : Prop :=
  ∃ k z, y = 32 :: (k ++ z) ∧ k ∈ typeTerminators ∧ StartsBlank z

/-- The type is left whole: none of its words outside parens ends it, and in
front of a clause its own parens are closed. -/
def KeepsType (b y : Bytes) : Prop :=
  typeLength 0 true b = b.length ∧ (y ≠ [] → netParens b = 0)

theorem terminator_cons {k : Bytes} (hk : k ∈ typeTerminators) :
    ∃ c k', k = c :: k' ∧ isAsciiWhitespace c = false ∧ c ≠ openParen ∧ c ≠ closeParen := by
  have h : ∀ k ∈ typeTerminators, ∃ c k', k = c :: k' ∧ isAsciiWhitespace c = false
      ∧ c ≠ openParen ∧ c ≠ closeParen := by
    simp [typeTerminators, ascii, openParen, closeParen, isAsciiWhitespace]
  exact h k hk

theorem firstWord_terminator {k z : Bytes} (hk : k ∈ typeTerminators) (hz : StartsBlank z) :
    typeTerminators.any (eqIgnoreAsciiCase (firstWord (k ++ z))) = true := by
  have h : ∀ k ∈ typeTerminators,
      typeTerminators.any (eqIgnoreAsciiCase (firstWord k)) = true := by decide
  rw [firstWord_append k hz]
  exact h k hk

/-- In front of a clause the white space is read over, and the clause too unless
all parens are closed. -/
theorem typeLength_clause {k z : Bytes} (hk : k ∈ typeTerminators) (hz : StartsBlank z)
    (depth : ℤ) :
    if depth = 0 then typeLength depth false (32 :: (k ++ z)) = 1
    else 2 ≤ typeLength depth false (32 :: (k ++ z)) := by
  have hspace : typeLength depth false (32 :: (k ++ z)) = typeLength depth true (k ++ z) + 1 := by
    rw [typeLength_cons, if_neg (by simp)]
    rfl
  have hword := firstWord_terminator hk hz
  obtain ⟨c, k, rfl, hblank, hopen, hclose⟩ := terminator_cons hk
  have hdepth : depthBehind depth c = depth := by rw [depthBehind, if_neg hopen, if_neg hclose]
  rw [hspace]
  rw [List.cons_append] at hword ⊢
  split_ifs with h
  · rw [typeLength_cons, hdepth, if_pos ⟨h, rfl, hword⟩]
  · rw [typeLength_cons, hdepth, if_neg fun hcut => h hcut.1]
    omega

/-- The text in front of white space, trimmed at its end, is not decoded to all
of the text. -/
theorem fromUtf8Lossy_trimAscii_ne {u v : Bytes} {c : UInt8} (hc : isAsciiWhitespace c = true) :
    fromUtf8Lossy (trimAsciiEnd (u ++ [c])) ≠ fromUtf8Lossy (u ++ c :: v) := by
  obtain ⟨x, hx, hblank⟩ := exists_blanks_trimAsciiEnd u
  have htrim : trimAsciiEnd (u ++ [c]) = trimAsciiEnd u := List.rdropWhile_concat_pos _ _ _ hc
  obtain ⟨d, w, hd, hdw⟩ : ∃ d w, isAsciiWhitespace d = true ∧ x ++ c :: v = d :: w := by
    cases x with
    | nil => exact ⟨c, v, hc, rfl⟩
    | cons d x => exact ⟨d, x ++ c :: v, hblank d (by simp), rfl⟩
  have hwhole : u ++ c :: v = trimAsciiEnd u ++ d :: w := by
    rw [← hdw, ← List.append_assoc, ← hx]
  rw [htrim, hwhole]
  exact fromUtf8Lossy_append_ascii_ne (blank_lt hd) _ _

/-- The type is read back exactly when it is left whole. -/
theorem takeType_iff {t : String} (ht : utf8 t ≠ []) (hends : NoBlankEnds (utf8 t)) {y : Bytes}
    (hy : y = [] ∨ StartsClause y ∧ ∀ c ∈ y.getLast?, isAsciiWhitespace c = false) :
    takeType (32 :: (utf8 t ++ y)) = t ↔ KeepsType (utf8 t) y := by
  obtain ⟨b, hb⟩ : ∃ b, utf8 t = b := ⟨_, rfl⟩
  have hlossy : fromUtf8Lossy b = t := by rw [← hb, fromUtf8Lossy_utf8]
  rw [hb] at ht hends ⊢
  have hblank : StartsBlank y := by
    obtain rfl | ⟨⟨k, z, rfl, -⟩, -⟩ := hy
    · simp [StartsBlank]
    · rintro c ⟨⟩
      rfl
  have hlast : b.getLast?.elim true isAsciiWhitespace = false := by
    have hsome := List.getLast?_eq_some_getLast ht
    rw [hsome]
    exact hends.2 _ hsome
  have htrim : trimAscii (32 :: (b ++ y)) = b ++ y := by
    rw [trimAscii_cons_blank rfl]
    refine trimAscii_eq_self ⟨?_, ?_⟩
    · intro c hc
      rw [List.head?_append_of_ne_nil _ ht] at hc
      exact hends.1 c hc
    · intro c hc
      obtain rfl | ⟨-, hend⟩ := hy
      · rw [List.append_nil] at hc
        exact hends.2 c hc
      · rw [List.getLast?_append] at hc
        cases hy : y.getLast? with
        | none => exact hends.2 c (by simpa [hy] using hc)
        | some d => exact hend c (by simpa [hy] using hc)
  have hlength := typeLength_append 0 true b hblank
  rw [hlast, zero_add] at hlength
  rw [takeType, htrim, hlength, KeepsType]
  -- Either the scan stops inside the type, or only a clause behind it can stop it.
  by_cases hwhole : typeLength 0 true b = b.length
  · rw [if_pos hwhole, and_iff_right hwhole]
    obtain rfl | ⟨⟨k, z, rfl, hk, hz⟩, -⟩ := hy
    · simp [typeLength, trimAscii_eq_self hends, hlossy]
    · have hclause := typeLength_clause hk hz (netParens b)
      simp only [ne_eq, reduceCtorEq, not_false_eq_true, forall_const]
      split_ifs at hclause with hnet
      · have htake : (b ++ 32 :: (k ++ z)).take (b.length + 1) = b ++ [32] := by
          rw [List.take_length_add_append]
          rfl
        have hspace : trimAscii (b ++ [32]) = b := by
          have hend := trimAscii_eq_self hends
          rw [trimAscii, trimAsciiStart_eq_self hends.1] at hend
          rw [trimAscii, trimAsciiStart_eq_self, trimAsciiEnd, List.rdropWhile_concat_pos _ _ _ rfl]
          · exact hend
          · intro c hc
            rw [List.head?_append_of_ne_nil _ ht] at hc
            exact hends.1 c hc
        rw [hclause, htake, hspace, iff_true_right hnet]
        exact hlossy
      · obtain ⟨c, k, rfl, hc, -⟩ := terminator_cons hk
        obtain ⟨n, hn⟩ := Nat.exists_eq_add_of_le hclause
        have htake : (b ++ 32 :: (c :: k ++ z)).take (b.length + (2 + n))
            = b ++ [32] ++ c :: (k ++ z).take n := by
          rw [List.take_length_add_append, Nat.add_comm 2 n]
          simp
        have hstart : trimAsciiStart (b ++ [32] ++ c :: (k ++ z).take n)
            = b ++ [32] ++ c :: (k ++ z).take n := by
          refine trimAsciiStart_eq_self fun d hd => hends.1 d ?_
          rwa [List.append_assoc, List.head?_append_of_ne_nil _ ht] at hd
        rw [hn, htake, iff_false_right hnet, trimAscii, hstart, trimAsciiEnd_append_cons hc,
          ← hlossy, List.append_assoc]
        exact (fromUtf8Lossy_append_ascii_ne (by decide) _ _).symm
  · rw [if_neg hwhole, iff_false_right fun h => hwhole h.1]
    -- what is cut off is not blank, so that no trimming restores it
    obtain hzero | ⟨u, c, v, rfl, hc, hcut⟩ := typeLength_cut hwhole
    · rw [hzero, List.take_zero]
      rintro rfl
      exact ht hb.symm
    · have htake : (u ++ c :: v ++ y).take (u.length + 1) = u ++ [c] := by
        rw [List.append_assoc, List.take_length_add_append]
        rfl
      have hstart : trimAsciiStart (u ++ [c]) = u ++ [c] := by
        refine trimAsciiStart_eq_self fun d hd => hends.1 d ?_
        cases u with
        | nil => exact hd
        | cons e u => exact hd
      rw [hcut, htake, trimAscii, hstart, ← hlossy]
      exact fromUtf8Lossy_trimAscii_ne hc

end PgDelta.Scan
