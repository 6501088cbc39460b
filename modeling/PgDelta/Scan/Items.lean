import PgDelta.Scan.Lexer

/-!
The items of a parenthesised list.

`matchingParen` finds where the list ends and `splitTopLevel` cuts it, each in
a pass of its own. A `Cutter` does both in one pass that goes through a text
part by part. Its input may carry marks, and a piece remembers whether the comma
it was cut at had one.
-/

namespace PgDelta.Scan

open PgDelta.Lib

/-! ### Quotes -/

/-- A doubled quote inside a quoted identifier closes and reopens it. -/
theorem splitLoop_quote (sep : UInt8) (depth : ℤ) (piece s : Bytes) :
    splitLoop sep depth true piece (quote :: s)
      = splitLoop sep depth false (piece ++ [quote]) s := by
  cases s with
  | nil => simp [splitLoop]
  | cons d s =>
    by_cases hd : d = quote
    · subst hd
      simp [splitLoop]
    · simp [splitLoop, hd]

theorem matchingParenLoop_quote (depth : ℤ) (i : ℕ) (s : Bytes) :
    matchingParenLoop depth true i (quote :: s) = matchingParenLoop depth false (i + 1) s := by
  cases s with
  | nil => simp [matchingParenLoop]
  | cons d s =>
    by_cases hd : d = quote
    · subst hd
      simp [matchingParenLoop]
    · simp [matchingParenLoop, hd]

/-! ### The machine -/

/-- Where a pass over a list stands: how many parens are open inside the list,
whether an identifier is quoted, the pieces behind it and the one it is in, and
whether the list has been closed. -/
structure Cutter where
  depth : ℤ
  quoted : Bool
  mark : Bool
  piece : Bytes
  done : List (Bool × Bytes)
  closed : Bool
  deriving DecidableEq, Repr

namespace Cutter

/-- In front of a list, the first piece of which has the given mark. -/
def start (mark : Bool) : Cutter :=
  { depth := 0, quoted := false, mark := mark, piece := [], done := [], closed := false }

def longer (m : Cutter) (t : Bytes) : Cutter := { m with piece := m.piece ++ t }

@[simp] theorem longer_closed (m : Cutter) (t : Bytes) : (m.longer t).closed = m.closed := rfl
@[simp] theorem longer_quoted (m : Cutter) (t : Bytes) : (m.longer t).quoted = m.quoted := rfl
@[simp] theorem longer_depth (m : Cutter) (t : Bytes) : (m.longer t).depth = m.depth := rfl
@[simp] theorem longer_mark (m : Cutter) (t : Bytes) : (m.longer t).mark = m.mark := rfl
@[simp] theorem longer_done (m : Cutter) (t : Bytes) : (m.longer t).done = m.done := rfl
@[simp] theorem longer_piece (m : Cutter) (t : Bytes) : (m.longer t).piece = m.piece ++ t := rfl

@[simp] theorem longer_nil (m : Cutter) : m.longer [] = m := by simp [longer]

@[simp] theorem longer_longer (m : Cutter) (s t : Bytes) :
    (m.longer s).longer t = m.longer (s ++ t) := by
  simp [longer]

def step (m : Cutter) (c : UInt8 × Bool) : Cutter :=
  if m.closed then m
  else if c.1 = quote then { m.longer [c.1] with quoted := !m.quoted }
  else if m.quoted then m.longer [c.1]
  else if c.1 = openParen then { m.longer [c.1] with depth := m.depth + 1 }
  else if c.1 = closeParen then
    if m.depth = 0 then { m with closed := true }
    else { m.longer [c.1] with depth := m.depth - 1 }
  else if c.1 = comma ∧ m.depth = 0 then
    { m with mark := c.2, piece := [], done := m.done ++ [(m.mark, m.piece)] }
  else m.longer [c.1]

def run (m : Cutter) (s : List (UInt8 × Bool)) : Cutter := s.foldl step m

@[simp] theorem run_nil (m : Cutter) : m.run [] = m := rfl

@[simp] theorem run_cons (m : Cutter) (c : UInt8 × Bool) (s : List (UInt8 × Bool)) :
    m.run (c :: s) = (m.step c).run s := rfl

theorem run_append (m : Cutter) (s t : List (UInt8 × Bool)) : m.run (s ++ t) = (m.run s).run t :=
  List.foldl_append

/-- All pieces, the one that is being read included. -/
def pieces (m : Cutter) : List (Bool × Bytes) := m.done ++ [(m.mark, m.piece)]

theorem step_closed {m : Cutter} (h : m.closed = true) (c : UInt8 × Bool) : m.step c = m := by
  rw [step, if_pos h]

theorem run_closed {m : Cutter} (h : m.closed = true) (s : List (UInt8 × Bool)) : m.run s = m := by
  induction s with
  | nil => rfl
  | cons c s ih => rw [run_cons, step_closed h, ih]

/-- The paren at which the pass ends. -/
def Closes (m : Cutter) (c : UInt8) : Prop := m.quoted = false ∧ c = closeParen ∧ m.depth = 0

theorem step_of_closes {m : Cutter} {c : UInt8 × Bool} (hopen : m.closed = false)
    (h : m.Closes c.1) : m.step c = { m with closed := true } := by
  obtain ⟨hquoted, hclose, hdepth⟩ := h
  simp [step, hopen, hquoted, hclose, hdepth, show closeParen ≠ quote by decide,
    show closeParen ≠ openParen by decide]

/-- Short of that paren, the two passes do what the machine does. -/
theorem step_spec {m : Cutter} {c : UInt8 × Bool} (hopen : m.closed = false)
    (h : ¬m.Closes c.1) :
    (m.step c).closed = false
      ∧ (∀ i t, matchingParenLoop (m.depth + 1) m.quoted i (c.1 :: t)
        = matchingParenLoop ((m.step c).depth + 1) (m.step c).quoted (i + 1) t)
      ∧ ∀ t, m.done.map Prod.snd ++ splitLoop comma m.depth m.quoted m.piece (c.1 :: t)
        = (m.step c).done.map Prod.snd
          ++ splitLoop comma (m.step c).depth (m.step c).quoted (m.step c).piece t := by
  obtain ⟨depth, quoted, mark, piece, done, closed⟩ := m
  obtain ⟨c, b⟩ := c
  obtain rfl : closed = false := hopen
  unfold Closes at h
  unfold step
  cases quoted with
  | true =>
    by_cases hquote : c = quote
    · subst hquote
      simp [matchingParenLoop_quote, splitLoop_quote]
    · simp [hquote, matchingParenLoop_quoted hquote, splitLoop_quoted hquote]
  | false =>
    by_cases hquote : c = quote
    · subst hquote
      simp [matchingParenLoop, splitLoop]
    by_cases hparen : c = openParen
    · subst hparen
      simp [matchingParenLoop, splitLoop, show openParen ≠ quote by decide]
    by_cases hclose : c = closeParen
    · have hdepth : depth ≠ 0 := fun h' => h ⟨rfl, hclose, h'⟩
      subst hclose
      simp [matchingParenLoop, splitLoop, hdepth, show closeParen ≠ quote by decide,
        show closeParen ≠ openParen by decide]
    by_cases hcomma : c = comma ∧ depth = 0
    · obtain ⟨rfl, rfl⟩ := hcomma
      simp [matchingParenLoop, splitLoop, hquote, hparen, hclose]
    · simp [matchingParenLoop, splitLoop, hquote, hparen, hclose, hcomma]

/-- The pass finds the paren that `matchingParen` finds, and by then has cut
what `splitTopLevel` cuts. -/
theorem run_spec {m : Cutter} (hopen : m.closed = false) (i : ℕ) (s : List (UInt8 × Bool)) :
    match matchingParenLoop (m.depth + 1) m.quoted i (s.map Prod.fst) with
    | none => (m.run s).closed = false
    | some k => i ≤ k ∧ (m.run s).closed = true
        ∧ (m.run s).pieces.map Prod.snd = m.done.map Prod.snd
          ++ splitLoop comma m.depth m.quoted m.piece ((s.map Prod.fst).take (k - i)) := by
  induction s generalizing m i with
  | nil => simpa [matchingParenLoop] using hopen
  | cons c s ih =>
    by_cases hcloses : m.Closes c.1
    · have hrun : m.run (c :: s) = { m with closed := true } := by
        rw [run_cons, step_of_closes hopen hcloses, run_closed rfl]
      obtain ⟨hquoted, hclose, hdepth⟩ := hcloses
      simp [hrun, hquoted, hclose, hdepth, matchingParenLoop, splitLoop, pieces,
        show closeParen ≠ quote by decide, show closeParen ≠ openParen by decide]
    · obtain ⟨hopen', hmatch, hsplit⟩ := step_spec hopen hcloses
      have ih := ih hopen' (i + 1)
      rw [List.map_cons, hmatch, run_cons]
      cases hloop : matchingParenLoop ((m.step c).depth + 1) (m.step c).quoted (i + 1)
          (s.map Prod.fst) with
      | none => simpa only [hloop] using ih
      | some k =>
        simp only [hloop] at ih ⊢
        obtain ⟨hle, hclosed, hpieces⟩ := ih
        have hk : k - i = (k - (i + 1)) + 1 := by omega
        refine ⟨by omega, hclosed, ?_⟩
        rw [hpieces, hk, List.take_succ_cons, hsplit]

/-- The pass over a list behind a space and its opening paren. -/
theorem run_list (mark : Bool) (s : List (UInt8 × Bool)) :
    match matchingParen (32 :: openParen :: s.map Prod.fst) 1 with
    | none => ((start mark).run s).closed = false
    | some stop => ((start mark).run s).closed = true
        ∧ splitTopLevel (slice (32 :: openParen :: s.map Prod.fst) (1 + 1) stop) comma
          = ((start mark).run s).pieces.map Prod.snd := by
  have hparen : matchingParen (32 :: openParen :: s.map Prod.fst) 1
      = matchingParenLoop 1 false 2 (s.map Prod.fst) := by
    simp [matchingParen, matchingParenLoop, show openParen ≠ quote by decide]
  have hrun := run_spec (m := start mark) rfl 2 s
  change match matchingParenLoop 1 false 2 (s.map Prod.fst) with
    | none => ((start mark).run s).closed = false
    | some k => 2 ≤ k ∧ ((start mark).run s).closed = true
      ∧ ((start mark).run s).pieces.map Prod.snd
        = [] ++ splitLoop comma 0 false [] ((s.map Prod.fst).take (k - 2)) at hrun
  rw [hparen]
  cases hloop : matchingParenLoop 1 false 2 (s.map Prod.fst) with
  | none =>
    rw [hloop] at hrun
    exact hrun
  | some k =>
    rw [hloop] at hrun
    obtain ⟨hle, hclosed, hpieces⟩ := hrun
    obtain ⟨k, rfl⟩ := Nat.exists_eq_add_of_le hle
    have hslice : slice (32 :: openParen :: s.map Prod.fst) (1 + 1) (2 + k)
        = (s.map Prod.fst).take k := by
      simp [slice, Nat.add_comm 2 k]
    rw [Nat.add_sub_cancel_left, List.nil_append] at hpieces
    simp only
    rw [hslice, splitTopLevel, hpieces]
    exact ⟨hclosed, rfl⟩

theorem memchr_list (s : Bytes) : memchr openParen (32 :: openParen :: s) = some 1 := by
  simp [memchr, show (32 : UInt8) ≠ openParen by decide]

/-! ### Unmarked text -/

/-- What decides how the pass goes on. -/
def control (m : Cutter) : Bool × ℤ × Bool := (m.closed, m.depth, m.quoted)

/-- A text without a mark. -/
def unmarked (t : Bytes) : List (UInt8 × Bool) := t.map fun c => (c, false)

@[simp] theorem unmarked_nil : unmarked [] = [] := rfl

@[simp] theorem unmarked_cons (c : UInt8) (t : Bytes) :
    unmarked (c :: t) = (c, false) :: unmarked t := rfl

@[simp] theorem unmarked_append (s t : Bytes) : unmarked (s ++ t) = unmarked s ++ unmarked t :=
  List.map_append

@[simp] theorem map_fst_unmarked (t : Bytes) : (unmarked t).map Prod.fst = t := by
  simp [unmarked, Function.comp_def]

theorem countP_unmarked (t : Bytes) : (unmarked t).countP Prod.snd = 0 := by
  induction t with
  | nil => rfl
  | cons c t ih => simpa using ih

theorem step_control {m m' : Cutter} (h : m.control = m'.control) (c : UInt8 × Bool) :
    (m.step c).control = (m'.step c).control := by
  obtain ⟨depth, quoted, mark, piece, done, closed⟩ := m
  obtain ⟨depth', quoted', mark', piece', done', closed'⟩ := m'
  obtain ⟨rfl, rfl, rfl⟩ : closed = closed' ∧ depth = depth' ∧ quoted = quoted' := by
    simpa [control] using h
  unfold step control
  dsimp only
  split_ifs <;> rfl

theorem run_control {m m' : Cutter} (h : m.control = m'.control) (s : List (UInt8 × Bool)) :
    (m.run s).control = (m'.run s).control := by
  induction s generalizing m m' with
  | nil => exact h
  | cons c s ih => exact ih (step_control h c)

/-- Unmarked text makes the current piece longer, and cuts no marked one. -/
theorem run_unmarked (m : Cutter) (t : Bytes) :
    ∃ x ps, (m.run (unmarked t)).pieces = m.done ++ (m.mark, m.piece ++ x) :: ps
      ∧ ∀ p ∈ ps, p.1 = false := by
  induction t generalizing m with
  | nil => exact ⟨[], [], by simp [pieces], by simp⟩
  | cons c t ih =>
    obtain ⟨x, ps, hpieces, hmarks⟩ := ih (m.step (c, false))
    rw [unmarked_cons, run_cons, hpieces]
    have hlonger : (m.step (c, false)).done = m.done → (m.step (c, false)).mark = m.mark →
        (m.step (c, false)).piece = m.piece ++ [c] → ∃ x' ps',
          (m.step (c, false)).done
              ++ ((m.step (c, false)).mark, (m.step (c, false)).piece ++ x) :: ps
            = m.done ++ (m.mark, m.piece ++ x') :: ps' ∧ ∀ p ∈ ps', p.1 = false := by
      intro hdone hmark hpiece
      exact ⟨c :: x, ps, by rw [hdone, hmark, hpiece, List.append_assoc]; rfl, hmarks⟩
    unfold step at hlonger ⊢
    split_ifs at hlonger ⊢ with hclosed hquote hquoted hparen hclose hdepth hcomma
    · exact ⟨x, ps, rfl, hmarks⟩
    · exact hlonger rfl rfl rfl
    · exact hlonger rfl rfl rfl
    · exact hlonger rfl rfl rfl
    · exact ⟨x, ps, rfl, hmarks⟩
    · exact hlonger rfl rfl rfl
    · refine ⟨[], (false, x) :: ps, by simp, ?_⟩
      rintro p (_ | ⟨_, hp⟩)
      · rfl
      · exact hmarks p hp
    · exact hlonger rfl rfl rfl

/-- No more marked pieces are cut than there are marks. -/
theorem step_countP (m : Cutter) (c : UInt8 × Bool) :
    (m.step c).pieces.countP Prod.fst ≤ m.pieces.countP Prod.fst + if c.2 then 1 else 0 := by
  unfold step pieces
  split_ifs <;> simp_all [List.countP_append, List.countP_cons]
  omega

theorem run_countP (m : Cutter) (s : List (UInt8 × Bool)) :
    (m.run s).pieces.countP Prod.fst ≤ m.pieces.countP Prod.fst + s.countP Prod.snd := by
  induction s generalizing m with
  | nil => simp
  | cons c s ih =>
    have hstep := m.step_countP c
    have hrun := ih (m.step c)
    rw [run_cons, List.countP_cons]
    omega

/-! ### Texts that end where they began -/

/-- A text behind which the pass stands between two items as in front of it. -/
def Sealed (t : Bytes) : Prop :=
  ((start false).run (unmarked t)).control = (start false).control

/-- A text that becomes part of the current piece. -/
def Steady (t : Bytes) : Prop :=
  ∀ m : Cutter, m.control = (start false).control →
    m.run (unmarked t) = m.longer t

theorem Steady.nil : Steady [] := fun m _ => by simp

theorem Steady.append {s t : Bytes} (hs : Steady s) (ht : Steady t) : Steady (s ++ t) := by
  intro m hm
  rw [unmarked_append, run_append, hs m hm, ht (m.longer s) hm, longer_longer]

theorem Steady.sealed {t : Bytes} (h : Steady t) : Sealed t := by
  rw [Sealed, h _ rfl]
  rfl

theorem Sealed.run {t : Bytes} (h : Sealed t) {m : Cutter}
    (hm : m.control = (start false).control) :
    (m.run (unmarked t)).control = (start false).control :=
  (run_control hm _).trans h

theorem control_start_iff {m : Cutter} :
    m.control = (start false).control ↔ m.closed = false ∧ m.depth = 0 ∧ m.quoted = false := by
  simp [control, start]

/-- Between two items a comma is cut at, and nowhere else is a marked one. -/
theorem step_comma {m : Cutter} (hm : m.control = (start false).control) (mark : Bool) :
    m.step (comma, mark)
      = { m with mark := mark, piece := [], done := m.done ++ [(m.mark, m.piece)] } := by
  obtain ⟨hopen, hdepth, hquoted⟩ := control_start_iff.1 hm
  simp [step, hopen, hdepth, hquoted, show comma ≠ quote by decide,
    show comma ≠ openParen by decide, show comma ≠ closeParen by decide]

theorem step_comma_pieces {m : Cutter} (hm : m.control ≠ (start false).control) (mark : Bool) :
    (m.step (comma, mark)).pieces.countP Prod.fst = m.pieces.countP Prod.fst := by
  rw [Ne, control_start_iff] at hm
  unfold step pieces
  split_ifs with hopen hquote hquoted hparen hclose hdepth hcomma
  · rfl
  · exact absurd hquote (show comma ≠ quote by decide)
  · simp [List.countP_append, List.countP_cons]
  · exact absurd hparen (show comma ≠ openParen by decide)
  · rfl
  · exact absurd hclose (show comma ≠ closeParen by decide)
  · exact absurd ⟨by simpa using hopen, hcomma.2, by simpa using hquoted⟩ hm
  · simp [List.countP_append, List.countP_cons]

/-- A byte that only makes the piece longer. -/
def Plain (c : UInt8) : Prop := c ≠ quote ∧ c ≠ openParen ∧ c ≠ closeParen ∧ c ≠ comma

instance (c : UInt8) : Decidable (Plain c) := inferInstanceAs (Decidable (_ ∧ _ ∧ _ ∧ _))

theorem steady_of_plain {t : Bytes} (h : ∀ c ∈ t, Plain c) : Steady t := by
  induction t with
  | nil => exact Steady.nil
  | cons c t ih =>
    intro m hm
    obtain ⟨hopen, hdepth, hquoted⟩ := control_start_iff.1 hm
    obtain ⟨hquote, hparen, hclose, hcomma⟩ := h c (by simp)
    have hstep : m.step (c, false) = m.longer [c] := by
      simp [step, hopen, hquoted, hquote, hparen, hclose, hcomma]
    have ih := ih (fun d hd => h d (by simp [hd])) (m.longer [c]) hm
    rw [unmarked_cons, run_cons, hstep, ih, longer_longer]
    rfl

/-! ### Items -/

def marked (ts : List Bytes) : List (UInt8 × Bool) :=
  ts.flatMap fun t => (comma, true) :: unmarked t

@[simp] theorem marked_nil : marked [] = [] := rfl

@[simp] theorem marked_cons (t : Bytes) (ts : List Bytes) :
    marked (t :: ts) = (comma, true) :: unmarked t ++ marked ts := by
  simp [marked]

theorem map_fst_marked (ts : List Bytes) :
    (marked ts).map Prod.fst = ts.flatMap (comma :: ·) := by
  induction ts with
  | nil => rfl
  | cons t ts ih => simp [ih]

theorem countP_marked (ts : List Bytes) : (marked ts).countP Prod.snd = ts.length := by
  induction ts with
  | nil => rfl
  | cons t ts ih => simp [List.countP_append, countP_unmarked, ih]

/-- A pass over steady texts cuts each of them. -/
theorem run_marked {m : Cutter} (hm : m.control = (start false).control) {ts : List Bytes}
    (hsteady : ∀ t ∈ ts, Steady t) :
    (m.run (marked ts)).control = (start false).control
      ∧ (m.run (marked ts)).pieces = m.pieces ++ ts.map fun t => (true, t) := by
  induction ts generalizing m with
  | nil => exact ⟨hm, by simp⟩
  | cons t ts ih =>
    have hcomma := step_comma hm true
    have hnext : (m.step (comma, true)).control = (start false).control := by
      rw [hcomma]
      exact hm
    have hrun := hsteady t (by simp) (m.step (comma, true)) hnext
    have hsplit : m.run (marked (t :: ts)) = ((m.step (comma, true)).longer t).run (marked ts) := by
      rw [marked_cons, List.cons_append, run_cons, run_append, hrun]
    obtain ⟨hcontrol, hpieces⟩ := ih (m := (m.step (comma, true)).longer t) hnext
      fun u hu => hsteady u (by simp [hu])
    rw [hsplit]
    refine ⟨hcontrol, ?_⟩
    rw [hpieces, hcomma]
    simp [pieces]

def owned (ps : List (Bool × Bytes)) : List Bytes := (ps.filter Prod.fst).map Prod.snd

theorem length_owned (ps : List (Bool × Bytes)) : (owned ps).length = ps.countP Prod.fst := by
  rw [owned, List.length_map, List.countP_eq_length_filter]

theorem owned_eq_nil {ps : List (Bool × Bytes)} (h : ∀ p ∈ ps, p.1 = false) : owned ps = [] := by
  rw [owned, List.filter_eq_nil_iff.2 (by simpa using h), List.map_nil]

theorem filterMap_owned {α : Type*} {f : Bytes → Option α} {ps : List (Bool × Bytes)}
    (h : ∀ p ∈ ps, p.1 = false → f p.2 = none) :
    ps.filterMap (fun p => f p.2) = (owned ps).filterMap f := by
  induction ps with
  | nil => rfl
  | cons p ps ih =>
    have ih := ih fun q hq => h q (by simp [hq])
    obtain ⟨mark, t⟩ := p
    cases mark with
    | true =>
      have howned : owned ((true, t) :: ps) = t :: owned ps := rfl
      rw [howned, List.filterMap_cons, List.filterMap_cons, ih]
    | false =>
      have howned : owned ((false, t) :: ps) = owned ps := rfl
      have hf : f t = none := h (false, t) (by simp) rfl
      rw [howned, List.filterMap_cons, hf]
      exact ih

/-- When no fewer results come from the marked pieces than from all of them, the
other pieces give none. -/
theorem strays_of_length {α : Type*} {f : Bytes → Option α} {ps : List (Bool × Bytes)}
    (h : (ps.filterMap fun p => f p.2).length ≤ ((owned ps).filterMap f).length) :
    ∀ p ∈ ps, p.1 = false → f p.2 = none := by
  have hle : ∀ qs : List (Bool × Bytes),
      ((owned qs).filterMap f).length ≤ (qs.filterMap fun p => f p.2).length := by
    intro qs
    have hsub : (qs.filter Prod.fst).filterMap (fun p => f p.2) = (owned qs).filterMap f := by
      rw [owned, List.filterMap_map]
      rfl
    rw [← hsub]
    exact (List.Sublist.filterMap _ List.filter_sublist).length_le
  induction ps with
  | nil => simp
  | cons p ps ih =>
    obtain ⟨mark, t⟩ := p
    have hrest := hle ps
    cases mark with
    | true =>
      have howned : owned ((true, t) :: ps) = t :: owned ps := rfl
      have hps : ∀ q ∈ ps, q.1 = false → f q.2 = none := by
        refine ih ?_
        rw [howned] at h
        cases hf : f t <;> simp [hf] at h <;> omega
      rintro q (_ | ⟨_, hq⟩) hmark
      · cases hmark
      · exact hps q hq hmark
    | false =>
      have howned : owned ((false, t) :: ps) = owned ps := rfl
      rw [howned] at h
      cases hf : f t with
      | none =>
        rintro q (_ | ⟨_, hq⟩) hmark
        · exact hf
        · exact ih (by simpa [hf] using h) q hq hmark
      | some a =>
        simp [hf] at h
        omega

/-- Pieces related one to one to some things are read as those things exactly
when each one is. -/
theorem filterMap_eq_map_iff {α β γ : Type*} {R : α → β → Prop} {f : β → Option γ} {g : α → γ}
    {P : α → Prop} (hread : ∀ a b, R a b → (f b = some (g a) ↔ P a)) {as : List α} {bs : List β}
    (h : List.Forall₂ R as bs) : bs.filterMap f = as.map g ↔ ∀ a ∈ as, P a := by
  induction h with
  | nil => simp
  | @cons a b as bs hab hall ih =>
    have hiff := hread a b hab
    cases hf : f b with
    | none =>
      have hnot : ¬P a := fun hP => by
        have := hiff.2 hP
        rw [hf] at this
        cases this
      have hlength : (bs.filterMap f).length ≤ as.length :=
        (List.length_filterMap_le _ _).trans hall.length_eq.ge
      refine ⟨fun heq => ?_, fun hP => absurd (hP a (by simp)) hnot⟩
      rw [List.filterMap_cons_none hf] at heq
      have hsame := congrArg List.length heq
      rw [List.length_map, List.length_cons] at hsame
      omega
    | some c =>
      rw [hf, Option.some.injEq] at hiff
      rw [List.filterMap_cons_some hf, List.map_cons, List.cons.injEq, ih, hiff]
      simp

/-- There are as many marked pieces as items only if the pass stands between
two items behind each item but the last. -/
theorem sealed_of_countP {m : Cutter} (hm : m.control = (start false).control)
    (hpiece : m.mark = true) (t : Bytes) (ts : List Bytes) (rest : Bytes)
    (hcount : m.done.countP Prod.fst + 1 + ts.length
      ≤ (m.run (unmarked t ++ marked ts ++ unmarked rest)).pieces.countP Prod.fst) :
    ∀ u ∈ (t :: ts).dropLast, Sealed u := by
  induction ts generalizing m t with
  | nil => simp
  | cons u ts ih =>
    obtain ⟨x, ps, hpieces, hmarks⟩ := m.run_unmarked t
    have hcut : (m.run (unmarked t)).pieces.countP Prod.fst = m.done.countP Prod.fst + 1 := by
      have hps : ps.countP Prod.fst = 0 := List.countP_eq_zero.2 (by simpa using hmarks)
      simp [hpieces, List.countP_append, hpiece, hps]
    have hsplit : m.run (unmarked t ++ marked (u :: ts) ++ unmarked rest)
        = ((m.run (unmarked t)).step (comma, true)).run
          (unmarked u ++ marked ts ++ unmarked rest) := by
      simp [run_append]
    rw [hsplit] at hcount
    by_cases hsealed : Sealed t
    · have hmid := hsealed.run hm
      have hnext := step_comma hmid true
      have hrest : ∀ v ∈ (u :: ts).dropLast, Sealed v := by
        refine ih (m := (m.run (unmarked t)).step (comma, true)) ?_ ?_ u ?_
        · rw [hnext]
          exact hmid
        · rw [hnext]
        · have hdone : ((m.run (unmarked t)).step (comma, true)).done
              = (m.run (unmarked t)).pieces := by
            rw [hnext]
            rfl
          rw [hdone, hcut]
          simpa only [List.length_cons, Nat.add_comm, Nat.add_left_comm, Nat.add_assoc] using hcount
      rw [List.dropLast_cons_cons]
      rintro v (_ | ⟨_, hv⟩)
      · exact hsealed
      · exact hrest v hv
    · -- The comma behind the item is not cut at, so that one mark is lost.
      have hmid : (m.run (unmarked t)).control ≠ (start false).control := fun h =>
        hsealed ((run_control hm.symm _).trans h)
      have hbound := run_countP ((m.run (unmarked t)).step (comma, true))
        (unmarked u ++ marked ts ++ unmarked rest)
      rw [step_comma_pieces hmid, hcut, List.countP_append, List.countP_append, countP_unmarked,
        countP_marked, countP_unmarked] at hbound
      rw [List.length_cons] at hcount
      omega

def EndsItem (rest : Bytes) : Prop :=
  ∃ x d rest', rest = x ++ d :: rest' ∧ (∀ c ∈ x, isAsciiWhitespace c = true)
    ∧ (d = comma ∨ d = closeParen)

theorem plain_of_blank {c : UInt8} (h : isAsciiWhitespace c = true) : Plain c := by
  refine ⟨?_, ?_, ?_, ?_⟩ <;>
    · rintro rfl
      exact absurd h (by decide)

theorem run_endsItem {m : Cutter} (hm : m.control = (start false).control) {rest : Bytes}
    (hrest : EndsItem rest) :
    ∃ x ps, (m.run (unmarked rest)).pieces = m.done ++ (m.mark, m.piece ++ x) :: ps
      ∧ (∀ c ∈ x, isAsciiWhitespace c = true) ∧ ∀ p ∈ ps, p.1 = false := by
  obtain ⟨x, d, rest, rfl, hx, hd⟩ := hrest
  have hsteady := steady_of_plain (fun c hc => plain_of_blank (hx c hc)) m hm
  have hm' : (m.longer x).control = (start false).control := hm
  rw [unmarked_append, run_append, hsteady, unmarked_cons, run_cons]
  obtain rfl | rfl := hd
  · rw [step_comma hm']
    obtain ⟨y, ps, hpieces, hmarks⟩ := run_unmarked { m.longer x with
      mark := false, piece := [], done := m.done ++ [(m.mark, m.piece ++ x)] } rest
    refine ⟨x, (false, y) :: ps, by simpa using hpieces, hx, ?_⟩
    rintro p (_ | ⟨_, hp⟩)
    · rfl
    · exact hmarks p hp
  · obtain ⟨hopen, hdepth, hquoted⟩ := control_start_iff.1 hm'
    rw [step_of_closes hopen ⟨hquoted, rfl, hdepth⟩, run_closed rfl]
    exact ⟨x, [], rfl, hx, by simp⟩

/-- A piece that begins with the lead of an item, and is the lead but for blanks
when the item is no more than that. -/
def Began (item : Bytes × Bytes) (p : Bytes) : Prop :=
  ∃ x, p = item.1 ++ x ∧ (item.2 = [] → ∀ c ∈ x, isAsciiWhitespace c = true)

def whole (item : Bytes × Bytes) : Bytes := item.1 ++ item.2

/-- An item up to the comma behind it. -/
theorem run_whole {m : Cutter} (hm : m.control = (start false).control) (hmark : m.mark = true)
    (hpiece : m.piece = []) {item : Bytes × Bytes} (hlead : Steady item.1) :
    ∃ p ps, (m.run (unmarked (whole item))).pieces = m.done ++ (true, p) :: ps ∧ Began item p
      ∧ ∀ q ∈ ps, q.1 = false := by
  rw [whole, unmarked_append, run_append, hlead m hm]
  by_cases htail : item.2 = []
  · rw [htail, unmarked_nil, run_nil, pieces, longer_done, longer_mark, longer_piece, hmark, hpiece]
    exact ⟨item.1, [], rfl, ⟨[], by simp, by simp⟩, by simp⟩
  · obtain ⟨x, ps, hpieces, hmarks⟩ := run_unmarked (m.longer item.1) item.2
    rw [hpieces, longer_done, longer_mark, longer_piece, hmark, hpiece]
    exact ⟨item.1 ++ x, ps, rfl, ⟨x, rfl, fun h => absurd h htail⟩, hmarks⟩

/-- The last item of its kind, with all that follows. -/
theorem run_last {m : Cutter} (hm : m.control = (start false).control) (hmark : m.mark = true)
    (hpiece : m.piece = []) {item : Bytes × Bytes} (hlead : Steady item.1) {rest : Bytes}
    (hrest : EndsItem rest) :
    ∃ p ps, (m.run (unmarked (whole item) ++ unmarked rest)).pieces = m.done ++ (true, p) :: ps
      ∧ Began item p ∧ ∀ q ∈ ps, q.1 = false := by
  have hmid : (m.longer item.1).control = (start false).control := hm
  rw [whole, unmarked_append, List.append_assoc, run_append, hlead m hm]
  by_cases htail : item.2 = []
  · obtain ⟨x, ps, hpieces, hblank, hmarks⟩ := run_endsItem hmid hrest
    rw [htail, unmarked_nil, List.nil_append, hpieces, longer_done, longer_mark,
      longer_piece, hmark,
      hpiece]
    exact ⟨item.1 ++ x, ps, rfl, ⟨x, rfl, fun _ => hblank⟩, hmarks⟩
  · obtain ⟨x, ps, hpieces, hmarks⟩ := run_unmarked (m.longer item.1) (item.2 ++ rest)
    rw [← unmarked_append, hpieces, longer_done, longer_mark, longer_piece, hmark, hpiece]
    exact ⟨item.1 ++ x, ps, rfl, ⟨x, rfl, fun h => absurd h htail⟩, hmarks⟩

/-- Where the pass stands between two items behind each item but the last, the
marked pieces are those of the items. -/
theorem run_items {m : Cutter} (hm : m.control = (start false).control) (hmark : m.mark = true)
    (hpiece : m.piece = []) {item : Bytes × Bytes} {items : List (Bytes × Bytes)}
    (hlead : ∀ i ∈ item :: items, Steady i.1)
    (hsealed : ∀ u ∈ ((item :: items).map whole).dropLast, Sealed u) {rest : Bytes}
    (hrest : EndsItem rest) :
    ∃ ps, (m.run (unmarked (whole item) ++ marked (items.map whole) ++ unmarked rest)).pieces
        = m.done ++ ps ∧ List.Forall₂ Began (item :: items) (owned ps) := by
  induction items generalizing m item with
  | nil =>
    obtain ⟨p, ps, hpieces, hbegan, hmarks⟩ :=
      run_last hm hmark hpiece (hlead item (by simp)) hrest
    refine ⟨(true, p) :: ps, by simpa using hpieces, ?_⟩
    have howned : owned ((true, p) :: ps) = p :: owned ps := rfl
    rw [howned, owned_eq_nil hmarks]
    exact .cons hbegan .nil
  | cons next items ih =>
    obtain ⟨p, ps, hpieces, hbegan, hmarks⟩ := run_whole hm hmark hpiece (hlead item (by simp))
    have hmid : (m.run (unmarked (whole item))).control = (start false).control :=
      (hsealed (whole item) (by simp)).run hm
    have hnext := step_comma hmid true
    have hleads : ∀ i ∈ next :: items, Steady i.1 := fun i hi => hlead i (by simp [hi])
    obtain ⟨qs, hqs, hall⟩ := ih (m := (m.run (unmarked (whole item))).step (comma, true))
      (by rw [hnext]; exact hmid) (by rw [hnext]) (by rw [hnext]) hleads
      (fun u hu => hsealed u (by simpa using .inr hu))
    have hdone : ((m.run (unmarked (whole item))).step (comma, true)).done
        = m.done ++ (true, p) :: ps := by
      rw [hnext]
      exact hpieces
    refine ⟨(true, p) :: ps ++ qs, ?_, ?_⟩
    · have hsplit : m.run (unmarked (whole item) ++ marked ((next :: items).map whole)
            ++ unmarked rest)
          = ((m.run (unmarked (whole item))).step (comma, true)).run
            (unmarked (whole next) ++ marked (items.map whole) ++ unmarked rest) := by
        simp [run_append]
      rw [hsplit, hqs, hdone, List.append_assoc]
    · have howned : owned ((true, p) :: ps ++ qs) = p :: owned qs := by
        have hps := owned_eq_nil hmarks
        rw [owned, List.map_eq_nil_iff] at hps
        simp [owned, List.filter_append, hps]
      rw [howned]
      exact .cons hbegan hall

end Cutter

end PgDelta.Scan
