import PgDelta.Scan.Items
import PgDelta.Scan.TypeText
import PgDelta.Scan.RoundTrip

/-!
The `CREATE TABLE` statements that `pg_dump` writes, and when their columns are
read back.

A statement is given by its names, types and expressions, and its text is
derived from them. `parseCreateTable` knows double quotes and parens but no
string literals, so that the parens, commas and double quotes in a literal
count. What it makes of a statement is what a `Cutter` makes of its list.
-/

namespace PgDelta.Scan

open PgDelta.Lib Cutter

/-! ### Quoted names -/

theorem run_doubleQuotes {m : Cutter} (hopen : m.closed = false) (hquoted : m.quoted = true)
    (b : Bytes) : m.run (unmarked (doubleQuotes b)) = m.longer (doubleQuotes b) := by
  induction b generalizing m with
  | nil => simp [doubleQuotes]
  | cons c b ih =>
    by_cases hc : c = quote
    · have hstep : (m.step (quote, false)).step (quote, false) = m.longer [quote, quote] := by
        simp [step, longer, hopen, hquoted]
      have hdouble : doubleQuotes (c :: b) = [quote, quote] ++ doubleQuotes b := by
        simp [doubleQuotes, hc]
      rw [hdouble, unmarked_append, run_append, unmarked_cons, unmarked_cons, unmarked_nil,
        run_cons, run_cons, run_nil, hstep, ih (m := m.longer _) hopen hquoted, longer_longer]
    · have hstep : m.step (c, false) = m.longer [c] := by simp [step, hopen, hquoted, hc]
      have hsingle : doubleQuotes (c :: b) = [c] ++ doubleQuotes b := by simp [doubleQuotes, hc]
      rw [hsingle, unmarked_append, run_append, unmarked_cons, unmarked_nil, run_cons, run_nil,
        hstep, ih (m := m.longer _) hopen hquoted, longer_longer]

theorem Written.head {name : String} {text : Bytes} (h : Written name text) :
    ∃ c w, text = c :: w ∧ isAsciiWhitespace c = false := by
  obtain ⟨-, hne, hword⟩ | rfl := h.word_or_quoted
  · obtain ⟨c, w, rfl⟩ := List.exists_cons_of_ne_nil hne
    exact ⟨c, w, rfl, (hword c (by simp)).space⟩
  · exact ⟨quote, _, rfl, rfl⟩

/-- A quoted name becomes part of the current piece. -/
theorem run_quotedName {m : Cutter} (hopen : m.closed = false) (hquoted : m.quoted = false)
    (b : Bytes) :
    m.run (unmarked (quote :: doubleQuotes b ++ [quote]))
      = m.longer (quote :: doubleQuotes b ++ [quote]) := by
  have hstart : m.step (quote, false) = { m.longer [quote] with quoted := true } := by
    simp [step, hopen, hquoted]
  have hmid := run_doubleQuotes (m := { m.longer [quote] with quoted := true }) hopen rfl b
  have hend : Cutter.step (Cutter.longer { m.longer [quote] with quoted := true } (doubleQuotes b))
      (quote, false) = m.longer (quote :: doubleQuotes b ++ [quote]) := by
    simp [step, longer, hopen, hquoted]
  rw [List.cons_append, unmarked_cons, run_cons, hstart, unmarked_append, run_append, hmid,
    unmarked_cons, unmarked_nil, run_cons, run_nil, hend, List.cons_append]

theorem Written.steady {name : String} {text : Bytes} (h : Written name text) : Steady text := by
  obtain ⟨-, -, hword⟩ | rfl := h.word_or_quoted
  · refine steady_of_plain fun c hc => ?_
    have hc := hword c hc
    refine ⟨hc.quote, ?_, hc.close, ?_⟩ <;>
      · rintro rfl
        exact absurd hc.bare (by decide)
  · intro m hm
    obtain ⟨hopen, -, hquoted⟩ := control_start_iff.1 hm
    exact run_quotedName hopen hquoted _

/-! ### Writing -/

def apostrophe : UInt8 := 39

/-- A piece of SQL: bytes that stand for themselves, text in parens, string
literals and quoted names. -/
inductive Sql
  | nil
  | byte (c : UInt8)
      (plain : c ≠ quote ∧ c ≠ apostrophe ∧ c ≠ openParen ∧ c ≠ closeParen) (rest : Sql)
  | group (inner rest : Sql)
  | literal (s : Bytes) (rest : Sql)
  | quotedName (s : Bytes) (rest : Sql)

def doubleApostrophes (b : Bytes) : Bytes :=
  b.flatMap fun c => if c = apostrophe then [apostrophe, apostrophe] else [c]

namespace Sql

def text : Sql → Bytes
  | nil => []
  | byte c _ rest => c :: rest.text
  | group inner rest => openParen :: inner.text ++ closeParen :: rest.text
  | literal s rest => apostrophe :: doubleApostrophes s ++ apostrophe :: rest.text
  | quotedName s rest => quote :: doubleQuotes s ++ quote :: rest.text

/-- No comma stands outside parens and quoted names, and no literal has a paren,
a double quote or, outside parens, a comma. -/
def Tame : Bool → Sql → Prop
  | _, nil => True
  | inside, byte c _ rest => (inside = true ∨ c ≠ comma) ∧ rest.Tame inside
  | inside, group inner rest => inner.Tame true ∧ rest.Tame inside
  | inside, literal s rest =>
    (∀ c ∈ s, c ≠ quote ∧ c ≠ openParen ∧ c ≠ closeParen ∧ (inside = true ∨ c ≠ comma))
      ∧ rest.Tame inside
  | inside, quotedName _ rest => rest.Tame inside

end Sql

theorem doubleApostrophes_plain {b : Bytes} {P : UInt8 → Prop} (hP : P apostrophe)
    (h : ∀ c ∈ b, P c) : ∀ c ∈ doubleApostrophes b, P c := by
  intro c hc
  obtain ⟨d, hd, hmem⟩ := List.mem_flatMap.1 hc
  split_ifs at hmem with hapostrophe
  · simp only [List.mem_cons, List.not_mem_nil, or_false, or_self] at hmem
    rwa [hmem]
  · obtain rfl := List.mem_singleton.1 hmem
    exact h c hd

/-- A byte that is neither a paren nor a double quote, nor a comma outside parens. -/
theorem step_inside {m : Cutter} (hopen : m.closed = false) (hquoted : m.quoted = false)
    {c : UInt8} (hquote : c ≠ quote) (hparen : c ≠ openParen) (hclose : c ≠ closeParen)
    (hcomma : c ≠ comma ∨ m.depth ≠ 0) :
    m.step (c, false) = m.longer [c] := by
  have hcut : ¬(c = comma ∧ m.depth = 0) := fun h => hcomma.elim (· h.1) (· h.2)
  simp [step, hopen, hquoted, hquote, hparen, hclose, hcut]

theorem run_inside {m : Cutter} (hopen : m.closed = false) (hquoted : m.quoted = false)
    {t : Bytes} (h : ∀ c ∈ t, c ≠ quote ∧ c ≠ openParen ∧ c ≠ closeParen
      ∧ (c ≠ comma ∨ m.depth ≠ 0)) :
    m.run (unmarked t) = m.longer t := by
  induction t generalizing m with
  | nil => simp
  | cons c t ih =>
    obtain ⟨hquote, hparen, hclose, hcomma⟩ := h c (by simp)
    have ih := ih (m := m.longer [c]) hopen hquoted fun d hd => h d (by simp [hd])
    rw [unmarked_cons, run_cons, step_inside hopen hquoted hquote hparen hclose hcomma, ih,
      longer_longer]
    rfl

theorem run_group {m : Cutter} (hopen : m.closed = false) (hquoted : m.quoted = false)
    (hdepth : 0 ≤ m.depth) {t : Bytes}
    (ht : Cutter.run { m.longer [openParen] with depth := m.depth + 1 } (unmarked t)
      = Cutter.longer { m.longer [openParen] with depth := m.depth + 1 } t) :
    m.run (unmarked (openParen :: t ++ [closeParen]))
      = m.longer (openParen :: t ++ [closeParen]) := by
  have hstart : m.step (openParen, false) = { m.longer [openParen] with depth := m.depth + 1 } := by
    simp [step, hopen, hquoted, show openParen ≠ quote by decide]
  have hend : Cutter.step (Cutter.longer { m.longer [openParen] with depth := m.depth + 1 } t)
      (closeParen, false) = m.longer (openParen :: t ++ [closeParen]) := by
    have hne : m.depth + 1 ≠ 0 := by omega
    simp [step, longer, hopen, hquoted, hne, show closeParen ≠ quote by decide,
      show closeParen ≠ openParen by decide]
  rw [List.cons_append, unmarked_cons, run_cons, hstart, unmarked_append, run_append, ht,
    unmarked_cons, unmarked_nil, run_cons, run_nil, hend, List.cons_append]

theorem run_literal {m : Cutter} (hopen : m.closed = false) (hquoted : m.quoted = false)
    {s : Bytes} (h : ∀ c ∈ s, c ≠ quote ∧ c ≠ openParen ∧ c ≠ closeParen
      ∧ (c ≠ comma ∨ m.depth ≠ 0)) :
    m.run (unmarked (apostrophe :: doubleApostrophes s ++ [apostrophe]))
      = m.longer (apostrophe :: doubleApostrophes s ++ [apostrophe]) := by
  refine run_inside hopen hquoted fun c hc => ?_
  have hapostrophe : apostrophe ≠ quote ∧ apostrophe ≠ openParen ∧ apostrophe ≠ closeParen
      ∧ (apostrophe ≠ comma ∨ m.depth ≠ 0) :=
    ⟨by decide, by decide, by decide, .inl (by decide)⟩
  simp only [List.cons_append, List.mem_cons, List.mem_append, List.not_mem_nil, or_false] at hc
  obtain rfl | hc | rfl := hc
  · exact hapostrophe
  · exact doubleApostrophes_plain (P := fun c => c ≠ quote ∧ c ≠ openParen ∧ c ≠ closeParen
      ∧ (c ≠ comma ∨ m.depth ≠ 0)) hapostrophe h c hc
  · exact hapostrophe

/-- A tame piece of SQL becomes part of the current piece. -/
theorem Sql.Tame.run {t : Sql} {inside : Bool} (h : t.Tame inside) {m : Cutter}
    (hopen : m.closed = false) (hquoted : m.quoted = false) (hdepth : 0 ≤ m.depth)
    (hinside : inside = true → 0 < m.depth) :
    m.run (unmarked t.text) = m.longer t.text := by
  have hcomma : ∀ c, inside = true ∨ c ≠ comma → c ≠ comma ∨ m.depth ≠ 0 := fun c hc =>
    hc.elim (fun hin => .inr (hinside hin).ne') .inl
  induction t generalizing inside m with
  | nil => simp [Sql.text]
  | byte c plain rest ih =>
    obtain ⟨hc, hrest⟩ := h
    have ih := ih hrest (m := m.longer [c]) hopen hquoted hdepth hinside hcomma
    rw [Sql.text, unmarked_cons, run_cons,
      step_inside hopen hquoted plain.1 plain.2.2.1 plain.2.2.2 (hcomma c hc), ih, longer_longer]
    rfl
  | group inner rest ihInner ihRest =>
    obtain ⟨hinner, hrest⟩ := h
    have hpos : 0 < m.depth + 1 := by omega
    have hmid := ihInner hinner (m := { m.longer [openParen] with depth := m.depth + 1 }) hopen
      hquoted hpos.le (fun _ => hpos) (fun _ _ => .inr hpos.ne')
    have hgroup := run_group hopen hquoted hdepth hmid
    have ih := ihRest hrest (m := m.longer (openParen :: inner.text ++ [closeParen])) hopen hquoted
      hdepth hinside hcomma
    have htext : (Sql.group inner rest).text
        = (openParen :: inner.text ++ [closeParen]) ++ rest.text := by
      simp [Sql.text]
    rw [htext, unmarked_append, run_append, hgroup, ih, longer_longer]
  | literal s rest ih =>
    obtain ⟨hbytes, hrest⟩ := h
    have hliteral := run_literal hopen hquoted (s := s) fun c hc =>
      ⟨(hbytes c hc).1, (hbytes c hc).2.1, (hbytes c hc).2.2.1, hcomma c (hbytes c hc).2.2.2⟩
    have ih := ih hrest (m := m.longer (apostrophe :: doubleApostrophes s ++ [apostrophe])) hopen
      hquoted hdepth hinside hcomma
    have htext : (Sql.literal s rest).text
        = (apostrophe :: doubleApostrophes s ++ [apostrophe]) ++ rest.text := by
      simp [Sql.text]
    rw [htext, unmarked_append, run_append, hliteral, ih, longer_longer]
  | quotedName s rest ih =>
    have hname := run_quotedName hopen hquoted s
    have hrest : rest.Tame inside := h
    have ih := ih hrest (m := m.longer (quote :: doubleQuotes s ++ [quote])) hopen
      hquoted hdepth hinside hcomma
    have htext : (Sql.quotedName s rest).text
        = (quote :: doubleQuotes s ++ [quote]) ++ rest.text := by
      simp [Sql.text]
    rw [htext, unmarked_append, run_append, hname, ih, longer_longer]

theorem Sql.Tame.steady {t : Sql} (h : t.Tame false) : Steady t.text := by
  intro m hm
  obtain ⟨hopen, hdepth, hquoted⟩ := control_start_iff.1 hm
  exact h.run hopen hquoted hdepth.ge (by simp)

/-- The text of a type, which has no comma outside parens. -/
structure SqlType where
  name : String
  sql : Sql
  text_eq : sql.text = utf8 name
  tame : sql.Tame false
  ne : utf8 name ≠ []
  noBlankEnds : NoBlankEnds (utf8 name)

/-- What may stand behind the type of a column. -/
inductive ColumnClause
  | collate (collation : Sql)
  | default (expr : Sql)
  | generated (expr : Sql)
  | notNull

namespace ColumnClause

def keyword : ColumnClause → Bytes
  | collate _ => ascii "COLLATE"
  | default _ => ascii "DEFAULT"
  | generated _ => ascii "GENERATED"
  | notNull => ascii "NOT"

def body : ColumnClause → Bytes
  | collate collation => collation.text
  | default expr => expr.text
  | generated expr => ascii "ALWAYS AS (" ++ expr.text ++ ascii ") STORED"
  | notNull => ascii "NULL"

def text (c : ColumnClause) : Bytes := 32 :: c.keyword ++ 32 :: c.body

end ColumnClause

def ColumnClause.Tame : ColumnClause → Prop
  | collate collation => collation.Tame false
  | default expr => expr.Tame false
  | generated expr => expr.Tame true
  | notNull => True

structure Column where
  name : SqlName
  type : SqlType
  clauses : List ColumnClause

def indent : Bytes := newline :: ascii "    "

namespace Column

def text (c : Column) : Bytes :=
  indent ++ c.name.text ++ 32 :: utf8 c.type.name ++ c.clauses.flatMap ColumnClause.text

/-- A column up to the keyword of its first clause, and what follows it. -/
def split (c : Column) : Bytes × Bytes :=
  match c.clauses with
  | [] => (indent ++ c.name.text ++ 32 :: utf8 c.type.name, [])
  | clause :: clauses =>
    (indent ++ c.name.text ++ 32 :: utf8 c.type.name ++ 32 :: clause.keyword ++ [32],
      clause.body ++ clauses.flatMap ColumnClause.text)

def columnDef (c : Column) : ColumnDef := { name := c.name.name, sqlType := c.type.name }

/-- The name is not taken for the start of a constraint, and the type is left
whole. -/
def Kept (c : Column) : Prop :=
  constraintLeaders.any (eqIgnoreAsciiCase c.name.text) = false
    ∧ KeepsType (utf8 c.type.name) (c.clauses.flatMap ColumnClause.text)

end Column

theorem ColumnClause.keyword_mem (clause : ColumnClause) : clause.keyword ∈ typeTerminators := by
  cases clause <;> simp [keyword, typeTerminators]

theorem plain_of_terminator {k : Bytes} (hk : k ∈ typeTerminators) :
    ∀ d ∈ 32 :: k ++ [32], Plain d := by
  have hall : ∀ k ∈ typeTerminators, ∀ d ∈ 32 :: k ++ [32], Plain d := by decide +kernel
  exact hall k hk

theorem ColumnClause.steady_text (clause : ColumnClause) (h : clause.Tame) :
    Steady clause.text := by
  have hbody : Steady clause.body := by
    cases clause with
    | collate collation => exact Sql.Tame.steady h
    | default expr => exact Sql.Tame.steady h
    | generated expr =>
      have hgroup : Steady (Sql.group expr .nil).text := Sql.Tame.steady ⟨h, trivial⟩
      have hbody : (ColumnClause.generated expr).body
          = ascii "ALWAYS AS " ++ (Sql.group expr .nil).text ++ ascii " STORED" := by
        simp [body, Sql.text,
          show ascii "ALWAYS AS (" = ascii "ALWAYS AS " ++ [openParen] by decide,
          show ascii ") STORED" = closeParen :: ascii " STORED" by decide]
      rw [hbody]
      exact ((steady_of_plain (by decide +kernel)).append hgroup).append
        (steady_of_plain (by decide +kernel))
    | notNull => exact steady_of_plain (by decide +kernel)
  have h := (steady_of_plain (plain_of_terminator clause.keyword_mem)).append hbody
  rwa [List.append_assoc] at h

namespace Column

theorem whole_split (c : Column) : whole c.split = c.text := by
  unfold whole split text
  cases c.clauses with
  | nil => simp
  | cons clause clauses => simp [ColumnClause.text]

theorem steady_indent : Steady indent := steady_of_plain (by decide +kernel)

theorem steady_space : Steady [32] := steady_of_plain (by decide +kernel)

theorem steady_head (c : Column) : Steady (indent ++ c.name.text ++ 32 :: utf8 c.type.name) := by
  have htype : Steady (utf8 c.type.name) := c.type.text_eq ▸ c.type.tame.steady
  exact (steady_indent.append c.name.written.steady).append (steady_space.append htype)

theorem steady_text (c : Column) (h : ∀ clause ∈ c.clauses, clause.Tame) : Steady c.text := by
  have hclauses : ∀ clauses : List ColumnClause, (∀ clause ∈ clauses, clause.Tame) →
      Steady (clauses.flatMap ColumnClause.text) := by
    intro clauses
    induction clauses with
    | nil => exact fun _ => Steady.nil
    | cons clause clauses ih =>
      intro hall
      exact (clause.steady_text (hall clause (by simp))).append
        (ih fun d hd => hall d (by simp [hd]))
  exact c.steady_head.append (hclauses c.clauses h)

theorem steady_lead (c : Column) : Steady c.split.1 := by
  unfold split
  cases c.clauses with
  | nil => exact c.steady_head
  | cons clause clauses =>
    have h := c.steady_head.append (steady_of_plain (plain_of_terminator clause.keyword_mem))
    simpa using h

/-! ### One column -/

theorem trimAscii_indent (s : Bytes) : trimAscii (indent ++ s) = trimAscii s := by
  have htext : indent ++ s = 10 :: 32 :: 32 :: 32 :: 32 :: s := rfl
  simp only [htext, trimAscii_cons_blank (c := 10) rfl, trimAscii_cons_blank (c := 32) rfl]

theorem trimAsciiEnd_append {a : Bytes} (ha : a ≠ [])
    (hlast : ∀ c ∈ a.getLast?, isAsciiWhitespace c = false) (w : Bytes) :
    trimAsciiEnd (a ++ w) = a ++ trimAsciiEnd w := by
  have hend := hlast _ (List.getLast?_eq_some_getLast ha)
  have h := trimAsciiEnd_append_cons hend a.dropLast w
  have hassoc : ∀ v, a.dropLast ++ a.getLast ha :: v = a ++ v := fun v => by
    rw [List.append_cons, List.dropLast_append_getLast ha]
  rwa [hassoc, hassoc] at h

theorem getLast?_behind {a b : Bytes} {c : UInt8} (hb : b ≠ []) :
    (a ++ c :: b).getLast? = b.getLast? := by
  rw [List.append_cons, List.getLast?_append_of_ne_nil _ hb]

theorem startsBlank_trimAsciiEnd (w : Bytes) : StartsBlank (trimAsciiEnd (32 :: w)) := by
  intro c hc
  obtain ⟨x, hx⟩ : trimAsciiEnd (32 :: w) <+: 32 :: w := List.rdropWhile_prefix _ _
  cases htrim : trimAsciiEnd (32 :: w) with
  | nil => simp [htrim] at hc
  | cons d v =>
    rw [htrim, List.cons_append, List.cons.injEq] at hx
    rw [htrim, hx.1] at hc
    obtain rfl : 32 = c := by simpa using hc
    rfl

/-- A piece that began as a column, trimmed: the name, the type, and what is
left of the clauses. -/
theorem trimAscii_began {c : Column} {p : Bytes} (h : Began c.split p) :
    ∃ y, trimAscii p = c.name.text ++ 32 :: (utf8 c.type.name ++ y)
      ∧ (y = [] ∧ c.clauses = [] ∨ StartsClause y ∧ c.clauses ≠ []) := by
  have hhead : ∀ s, trimAsciiStart (c.name.text ++ s) = c.name.text ++ s := fun s =>
    trimAsciiStart_eq_self fun d hd => by
      obtain ⟨e, w, hew, he⟩ := c.name.written.head
      rw [hew] at hd
      obtain rfl : e = d := by simpa using hd
      exact he
  have htype := c.type.noBlankEnds.2
  have hne := c.type.ne
  obtain ⟨x, rfl, hx⟩ := h
  unfold split at hx ⊢
  cases hclauses : c.clauses with
  | nil =>
    rw [hclauses] at hx
    have hend := trimAsciiEnd_append (a := c.name.text ++ 32 :: utf8 c.type.name) (by simp)
      (by rwa [getLast?_behind hne]) x
    refine ⟨[], ?_, .inl ⟨rfl, rfl⟩⟩
    rw [List.append_assoc, List.append_assoc, trimAscii_indent, ← List.append_assoc, trimAscii,
      List.append_assoc, hhead, ← List.append_assoc, hend, trimAsciiEnd_eq_nil (hx rfl)]
    simp
  | cons clause clauses =>
    obtain ⟨d, k, hk, -⟩ := terminator_cons clause.keyword_mem
    have hkeyword : ∀ k ∈ typeTerminators, ∀ d ∈ k.getLast?, isAsciiWhitespace d = false := by
      decide +kernel
    have hend := trimAsciiEnd_append
      (a := c.name.text ++ 32 :: utf8 c.type.name ++ 32 :: clause.keyword) (by simp)
      (by
        rw [getLast?_behind (by simp [hk])]
        exact hkeyword _ clause.keyword_mem) (32 :: x)
    refine ⟨32 :: (clause.keyword ++ trimAsciiEnd (32 :: x)), ?_,
      .inr ⟨⟨_, _, rfl, clause.keyword_mem, startsBlank_trimAsciiEnd x⟩, by simp⟩⟩
    have hpiece : indent ++ c.name.text ++ 32 :: utf8 c.type.name ++ 32 :: clause.keyword ++ [32]
        ++ x = indent ++ (c.name.text ++ (32 :: utf8 c.type.name ++ 32 :: clause.keyword
          ++ 32 :: x)) := by simp
    have hassoc : c.name.text ++ (32 :: utf8 c.type.name ++ 32 :: clause.keyword ++ 32 :: x)
        = c.name.text ++ 32 :: utf8 c.type.name ++ 32 :: clause.keyword ++ 32 :: x := by simp
    rw [hpiece, trimAscii_indent, trimAscii, hhead, hassoc, hend]
    simp

/-- The first word of a piece is that of its name, for all that the leaders of
constraints are concerned. -/
theorem leader_iff (c : Column) (s : Bytes) :
    constraintLeaders.any (eqIgnoreAsciiCase (firstWord (c.name.text ++ 32 :: s)))
      = constraintLeaders.any (eqIgnoreAsciiCase c.name.text) := by
  have hquote : ∀ w : Bytes, constraintLeaders.any (eqIgnoreAsciiCase (quote :: w)) = false := by
    intro w
    simp [constraintLeaders, eqIgnoreAsciiCase, ascii, quote, toAsciiLowercase]
  have hword := firstWord_append c.name.text (y := 32 :: s) (by rintro d ⟨⟩; rfl)
  rw [hword]
  obtain ⟨-, -, hplain⟩ | htext := c.name.written.word_or_quoted
  · have hwhole : firstWord c.name.text = c.name.text := by
      refine List.takeWhile_eq_self_iff.2 fun d hd => ?_
      simp [(hplain d hd).space]
    rw [hwhole]
  · obtain ⟨w, hw⟩ : ∃ w, firstWord c.name.text = quote :: w := by
      rw [htext]
      exact ⟨_, rfl⟩
    rw [hw, hquote, htext, List.cons_append, hquote]

/-- A piece that began as a column is read as that column exactly when it is
kept. -/
theorem parseColumn_began {c : Column} {p : Bytes} (h : Began c.split p) :
    parseColumn p = some c.columnDef ↔ c.Kept := by
  obtain ⟨y, htrim, hy⟩ := trimAscii_began h
  have hends := noBlankEnds_trimAscii p
  rw [htrim] at hends
  have hlast : ∀ d ∈ y.getLast?, isAsciiWhitespace d = false := by
    intro d hd
    have hne : y ≠ [] := by
      rintro rfl
      simp at hd
    refine hends.2 d ?_
    rwa [getLast?_behind (by simp [hne]), List.getLast?_append_of_ne_nil _ hne]
  have hclause : y = [] ∨ StartsClause y ∧ ∀ d ∈ y.getLast?, isAsciiWhitespace d = false :=
    hy.imp And.left fun h => ⟨h.1, hlast⟩
  have hempty : y ≠ [] ↔ c.clauses.flatMap ColumnClause.text ≠ [] := by
    obtain ⟨rfl, hnil⟩ | ⟨⟨k, z, rfl, -⟩, hne⟩ := hy
    · simp [hnil]
    · obtain ⟨clause, clauses, hcons⟩ := List.exists_cons_of_ne_nil hne
      simp [hcons, ColumnClause.text]
  have htype := takeType_iff c.type.ne c.type.noBlankEnds hclause
  have htake := c.name.written.takeIdentifier (show endsBare 32 = true by decide)
    (utf8 c.type.name ++ y)
  have hnonempty : c.type.name.isEmpty = false := by
    refine Bool.eq_false_iff.2 fun hnil => c.type.ne ?_
    rw [String.isEmpty_iff.1 hnil]
    rfl
  have hitem : (c.name.text ++ 32 :: (utf8 c.type.name ++ y)).isEmpty = false := by simp
  have hkeeps : KeepsType (utf8 c.type.name) y
      ↔ KeepsType (utf8 c.type.name) (c.clauses.flatMap ColumnClause.text) := by
    rw [KeepsType, KeepsType, hempty]
  rw [Kept, ← hkeeps, ← htype]
  unfold parseColumn columnDef
  simp only [htrim, leader_iff, htake, hitem, Bool.false_eq_true, if_false]
  cases hleader : constraintLeaders.any (eqIgnoreAsciiCase c.name.text) with
  | true => simp
  | false =>
    by_cases hread : takeType (32 :: (utf8 c.type.name ++ y)) = c.type.name
    · simp [hread, hnonempty]
    · simp [hread]

end Column

inductive ConstraintKind
  | constraint
  | primary
  | unique
  | foreign
  | check
  | exclude
  | like

def ConstraintKind.word : ConstraintKind → Bytes
  | constraint => ascii "CONSTRAINT"
  | primary => ascii "PRIMARY"
  | unique => ascii "UNIQUE"
  | foreign => ascii "FOREIGN"
  | check => ascii "CHECK"
  | exclude => ascii "EXCLUDE"
  | like => ascii "LIKE"

structure TableConstraint where
  kind : ConstraintKind
  body : Sql

def TableConstraint.text (k : TableConstraint) : Bytes :=
  indent ++ k.kind.word ++ 32 :: k.body.text

theorem TableConstraint.steady_text (k : TableConstraint) (h : k.body.Tame false) :
    Steady k.text := by
  have hplain : ∀ k : ConstraintKind, ∀ d ∈ indent ++ k.word ++ [32], Plain d := by
    intro k
    cases k <;> decide +kernel
  have hsteady := (steady_of_plain (hplain k.kind)).append h.steady
  have htext : k.text = indent ++ k.kind.word ++ [32] ++ k.body.text := by simp [text]
  rwa [htext]

theorem TableConstraint.parseColumn_text (k : TableConstraint) (y : Bytes) :
    parseColumn (k.text ++ y) = none := by
  obtain ⟨d, w, hword, hd, hlast, hfirst⟩ : ∃ d w, k.kind.word = d :: w
      ∧ isAsciiWhitespace d = false
      ∧ (∀ c ∈ k.kind.word.getLast?, isAsciiWhitespace c = false)
      ∧ constraintLeaders.any (eqIgnoreAsciiCase (firstWord k.kind.word)) = true := by
    cases k.kind <;> exact ⟨_, _, rfl, rfl, by decide +kernel, by decide +kernel⟩
  have htext : k.text ++ y = indent ++ (k.kind.word ++ 32 :: (k.body.text ++ y)) := by simp [text]
  have hitem : trimAscii (k.text ++ y)
      = k.kind.word ++ trimAsciiEnd (32 :: (k.body.text ++ y)) := by
    rw [htext, Column.trimAscii_indent, trimAscii, trimAsciiStart_eq_self,
      Column.trimAsciiEnd_append (by simp [hword]) hlast]
    intro c hc
    rw [hword] at hc
    obtain rfl : d = c := by simpa using hc
    exact hd
  have hleader := firstWord_append k.kind.word (Column.startsBlank_trimAsciiEnd (k.body.text ++ y))
  have hne : (k.kind.word ++ trimAsciiEnd (32 :: (k.body.text ++ y))).isEmpty = false := by
    simp [hword]
  unfold parseColumn
  simp only [hitem, hne, hleader, hfirst, Bool.false_eq_true, if_false, if_true]

/-- What may stand behind the list of a table. -/
inductive TableClause
  | none
  | withOptions (options : Sql)
  | partitionBy (strategy key : Sql)
  | inherits (parents : Sql)

def TableClause.text : TableClause → Bytes
  | none => []
  | withOptions options => newline :: ascii "WITH (" ++ options.text ++ ascii ")"
  | partitionBy strategy key =>
    newline :: ascii "PARTITION BY " ++ strategy.text ++ ascii " (" ++ key.text ++ ascii ")"
  | inherits parents => newline :: ascii "INHERITS (" ++ parents.text ++ ascii ")"

structure CreateTable where
  unlogged : Bool
  schema : Option SqlName
  table : SqlName
  columns : List Column
  constraints : List TableConstraint
  clause : TableClause

/-- Texts with a comma between them. -/
def commaSeparated : List Bytes → Bytes
  | [] => []
  | t :: ts => t ++ ts.flatMap (comma :: ·)

namespace CreateTable

def keyword (T : CreateTable) : Bytes :=
  if T.unlogged then ascii "CREATE UNLOGGED TABLE " else ascii "CREATE TABLE "

/-- The end of the list and what follows it. -/
def ending (T : CreateTable) : Bytes := newline :: closeParen :: T.clause.text ++ ascii ";"

/-- What follows the paren that opens the list. -/
def list (T : CreateTable) : Bytes :=
  commaSeparated (T.columns.map Column.text ++ T.constraints.map TableConstraint.text) ++ T.ending

def text (T : CreateTable) : Bytes :=
  T.keyword ++ (writtenName T.schema T.table ++ 32 :: openParen :: T.list)

def name (T : CreateTable) : TableName := givenName T.schema T.table

def tableDef (T : CreateTable) : TableDef :=
  { name := T.name, columns := T.columns.map Column.columnDef }

/-- The statement is read back as it was declared. -/
def Recovered (T : CreateTable) : Prop := parseCreateTable T.text = .ok T.tableDef

/-! ### Reading -/

/-- What follows the last column. -/
def rest (T : CreateTable) : Bytes :=
  T.constraints.flatMap (fun k => comma :: k.text) ++ T.ending

/-- The list with a mark on each comma that a column follows. -/
def markedList (T : CreateTable) : List (UInt8 × Bool) :=
  match T.columns with
  | [] => unmarked T.list
  | c :: cs => unmarked c.text ++ marked (cs.map Column.text) ++ unmarked T.rest

/-- The pass over the list. -/
def cut (T : CreateTable) : Cutter := (start !T.columns.isEmpty).run T.markedList

theorem map_fst_markedList (T : CreateTable) : T.markedList.map Prod.fst = T.list := by
  unfold markedList
  cases hcols : T.columns with
  | nil => simp
  | cons c cs =>
    simp [list, rest, hcols, commaSeparated, map_fst_marked, List.flatMap_map]

theorem stripCreateTable_text (T : CreateTable) (s : Bytes) :
    stripCreateTable (trimAsciiStart (T.keyword ++ s)) = some s := by
  cases hlogged : T.unlogged <;>
    simp [keyword, hlogged, stripCreateTable, stripPrefixCi, trimAsciiStart, eqIgnoreAsciiCase,
      isAsciiWhitespace, show ascii "CREATE TABLE " = [67, 82, 69, 65, 84, 69, 32, 84, 65, 66, 76,
        69, 32] by decide, show ascii "CREATE UNLOGGED TABLE " = [67, 82, 69, 65, 84, 69, 32, 85,
        78, 76, 79, 71, 71, 69, 68, 32, 84, 65, 66, 76, 69, 32] by decide, toAsciiLowercase]

/-- The statement is read in one pass over its list. -/
theorem parseCreateTable_text (T : CreateTable) :
    parseCreateTable T.text =
      if T.cut.closed then
        .ok { name := T.name, columns := T.cut.pieces.filterMap fun p => parseColumn p.2 }
      else .error (.malformedCreateTable T.name.qualified) := by
  have hlist := run_list (!T.columns.isEmpty) T.markedList
  rw [map_fst_markedList, ← cut] at hlist
  rw [parseCreateTable, text, stripCreateTable_text]
  simp only [takeQualified_writtenName, memchr_list]
  cases hstop : matchingParen (32 :: openParen :: T.list) 1 with
  | none =>
    rw [hstop] at hlist
    simp only at hlist
    simp [hlist, name]
  | some stop =>
    rw [hstop] at hlist
    obtain ⟨hclosed, hitems⟩ := hlist
    simp only [hclosed, if_true, hitems, List.filterMap_map]
    rfl

/-! ### When a statement is recovered -/

/-- What stands behind a comma within a column, in a constraint or behind the
list is not read as a column. -/
def StrayFree (T : CreateTable) : Prop :=
  ∀ p ∈ T.cut.pieces, p.1 = false → parseColumn p.2 = none

/-- The pass stands between two items behind each column but the last, and finds
the end of the list; the columns are kept. -/
def Clear (T : CreateTable) : Prop :=
  (∀ c ∈ T.columns.dropLast, Sealed c.text) ∧ T.cut.closed = true ∧ ∀ c ∈ T.columns, c.Kept

theorem endsItem_rest (T : CreateTable) : EndsItem T.rest := by
  unfold rest ending
  cases T.constraints with
  | nil =>
    exact ⟨[newline], closeParen, T.clause.text ++ ascii ";", by simp, by decide +kernel, .inr rfl⟩
  | cons k ks =>
    refine ⟨[], comma, k.text ++ ks.flatMap (fun k => comma :: k.text)
      ++ (newline :: closeParen :: T.clause.text ++ ascii ";"), by simp, by simp, .inl rfl⟩

theorem recovered_iff (T : CreateTable) :
    T.Recovered ↔ T.cut.closed = true
      ∧ T.cut.pieces.filterMap (fun p => parseColumn p.2) = T.columns.map Column.columnDef := by
  rw [Recovered, parseCreateTable_text, tableDef]
  split_ifs with hclosed <;> simp [hclosed]

/-- The marked pieces of a list are no more than its columns, and as many only
if the pass stands between two items behind each column but the last. -/
theorem owned_pieces (T : CreateTable) :
    (owned T.cut.pieces).length ≤ T.columns.length
      ∧ (T.columns.length ≤ (owned T.cut.pieces).length →
        ∀ c ∈ T.columns.dropLast, Sealed c.text) := by
  rw [length_owned]
  unfold cut markedList
  cases hcols : T.columns with
  | nil =>
    have hle := run_countP (start false) (unmarked T.list)
    rw [countP_unmarked] at hle
    exact ⟨hle, by simp⟩
  | cons c cs =>
    have hle := run_countP (start true)
      (unmarked c.text ++ marked (cs.map Column.text) ++ unmarked T.rest)
    rw [List.countP_append, List.countP_append, countP_unmarked, countP_marked, countP_unmarked,
      List.length_map] at hle
    refine ⟨?_, fun hcount => ?_⟩
    · rw [List.length_cons]
      exact hle.trans_eq (by simp [pieces, start]; omega)
    · have hsealed := sealed_of_countP (m := start true) rfl rfl c.text (cs.map Column.text) T.rest
        (by
          rw [List.length_map]
          refine le_trans (le_of_eq ?_) hcount
          simp [start]
          omega)
      rw [← List.map_cons, ← List.map_dropLast] at hsealed
      exact fun d hd => hsealed _ (List.mem_map_of_mem hd)

theorem began_pieces (T : CreateTable) (hsealed : ∀ c ∈ T.columns.dropLast, Sealed c.text) :
    List.Forall₂ (fun c p => Began c.split p) T.columns (owned T.cut.pieces) := by
  rw [cut, markedList]
  cases hcols : T.columns with
  | nil =>
    obtain ⟨x, ps, hpieces, hmarks⟩ := run_unmarked (start false) T.list
    have howned : owned ((start false).run (unmarked T.list)).pieces = [] := by
      rw [hpieces]
      exact owned_eq_nil (by simpa [start] using hmarks)
    simp only [List.isEmpty_nil, Bool.not_true, howned]
    exact .nil
  | cons c cs =>
    have hwhole : ∀ ds : List Column, (ds.map Column.split).map whole = ds.map Column.text :=
      fun ds => by
        rw [List.map_map]
        exact List.map_congr_left fun d _ => d.whole_split
    have hlead : ∀ i ∈ c.split :: cs.map Column.split, Steady i.1 := by
      rw [← List.map_cons]
      intro i hi
      obtain ⟨d, -, rfl⟩ := List.mem_map.1 hi
      exact d.steady_lead
    have htexts : ∀ u ∈ ((c.split :: cs.map Column.split).map whole).dropLast, Sealed u := by
      rw [← List.map_cons, hwhole, ← List.map_dropLast]
      intro u hu
      obtain ⟨d, hd, rfl⟩ := List.mem_map.1 hu
      exact hsealed d (by rwa [hcols])
    obtain ⟨ps, hpieces, hbegan⟩ :=
      run_items (m := start true) rfl rfl rfl hlead htexts T.endsItem_rest
    rw [hwhole, c.whole_split] at hpieces
    simp only [List.isEmpty_cons, Bool.not_false, hpieces]
    rw [← List.map_cons, List.forall₂_map_left_iff] at hbegan
    exact hbegan

/-- Unless some stray piece is read as a column, a statement is recovered
exactly when it is clear. A clear statement is recovered exactly when no stray
piece is read as a column. -/
theorem recovered_iff_clear (T : CreateTable) :
    (T.StrayFree → (T.Recovered ↔ T.Clear)) ∧ (T.Clear → (T.Recovered ↔ T.StrayFree)) := by
  have hkept : (∀ c ∈ T.columns.dropLast, Sealed c.text) →
      ((owned T.cut.pieces).filterMap parseColumn = T.columns.map Column.columnDef
        ↔ ∀ c ∈ T.columns, c.Kept) := fun hsealed =>
    filterMap_eq_map_iff (R := fun c p => Began c.split p)
      (fun _ _ h => Column.parseColumn_began h) (T.began_pieces hsealed)
  rw [recovered_iff]
  refine ⟨fun hstray => ?_, fun ⟨hsealed, hclosed, hall⟩ => ?_⟩
  · rw [filterMap_owned hstray]
    refine ⟨fun ⟨hclosed, hread⟩ => ?_, fun ⟨hsealed, hclosed, hall⟩ => ?_⟩
    · have hcount : T.columns.length ≤ (owned T.cut.pieces).length := by
        have hlength := congrArg List.length hread
        rw [List.length_map] at hlength
        exact hlength.ge.trans (List.length_filterMap_le _ _)
      have hsealed := T.owned_pieces.2 hcount
      exact ⟨hsealed, hclosed, (hkept hsealed).1 hread⟩
    · exact ⟨hclosed, (hkept hsealed).2 hall⟩
  · have hown := (hkept hsealed).2 hall
    refine ⟨fun ⟨_, hread⟩ => strays_of_length ?_, fun hstray => ⟨hclosed, ?_⟩⟩
    · rw [hread, hown]
    · rw [filterMap_owned hstray]
      exact hown

/-! ### Tame statements -/

/-- No literal of the statement has a paren, a double quote or an open comma. -/
def Tame (T : CreateTable) : Prop :=
  (∀ c ∈ T.columns, ∀ clause ∈ c.clauses, clause.Tame) ∧ ∀ k ∈ T.constraints, k.body.Tame false

/-- The pass over tame constraints ends with the list, and each piece that it
cuts begins with a constraint. -/
theorem run_constraints {m : Cutter} (hm : m.control = (start false).control)
    {ks : List TableConstraint} (htame : ∀ k ∈ ks, k.body.Tame false) (s : Bytes) :
    ∃ x ps, (m.run (unmarked (ks.flatMap (fun k => comma :: k.text)
        ++ newline :: closeParen :: s))).pieces = m.done ++ (m.mark, m.piece ++ x) :: ps
      ∧ (m.run (unmarked (ks.flatMap (fun k => comma :: k.text)
        ++ newline :: closeParen :: s))).closed = true
      ∧ (∀ c ∈ x, isAsciiWhitespace c = true)
      ∧ ∀ p ∈ ps, p.1 = false ∧ ∃ k : TableConstraint, ∃ y, p.2 = k.text ++ y := by
  induction ks generalizing m with
  | nil =>
    have hsteady := steady_of_plain (t := [newline]) (by decide +kernel) m hm
    have hrun : m.run (unmarked (newline :: closeParen :: s))
        = { m.longer [newline] with closed := true } := by
      obtain ⟨hopen, hdepth, hquoted⟩ := control_start_iff.1 hm
      have hfirst : m.step (newline, false) = m.longer [newline] := hsteady
      have hlast : (m.longer [newline]).step (closeParen, false)
          = { m.longer [newline] with closed := true } :=
        step_of_closes (m := m.longer [newline]) hopen ⟨hquoted, rfl, hdepth⟩
      rw [unmarked_cons, run_cons, hfirst, unmarked_cons, run_cons, hlast, run_closed rfl]
    rw [List.flatMap_nil, List.nil_append, hrun]
    exact ⟨[newline], [], rfl, rfl, by decide +kernel, by simp⟩
  | cons k ks ih =>
    have hcomma := step_comma hm false
    have hnext : (m.step (comma, false)).control = (start false).control := by
      rw [hcomma]
      exact hm
    have hrun := k.steady_text (htame k (by simp)) (m.step (comma, false)) hnext
    obtain ⟨x, ps, hpieces, hclosed, -, hps⟩ :=
      ih (m := (m.step (comma, false)).longer k.text) hnext
      fun j hj => htame j (by simp [hj])
    have hsplit : m.run (unmarked ((k :: ks).flatMap (fun k => comma :: k.text)
          ++ newline :: closeParen :: s))
        = ((m.step (comma, false)).longer k.text).run
            (unmarked (ks.flatMap (fun k => comma :: k.text)
          ++ newline :: closeParen :: s)) := by
      rw [List.flatMap_cons, List.cons_append, List.cons_append, unmarked_cons, run_cons,
        List.append_assoc, unmarked_append, run_append, hrun]
    rw [hsplit, hpieces, hcomma]
    refine ⟨[], (false, k.text ++ x) :: ps, by simp, hcomma ▸ hclosed, by simp, ?_⟩
    rintro p (_ | ⟨_, hp⟩)
    · exact ⟨rfl, k, x, rfl⟩
    · exact hps p hp

theorem parseColumn_blank {x : Bytes} (hx : ∀ c ∈ x, isAsciiWhitespace c = true) :
    parseColumn x = none := by
  have hstart : trimAsciiStart x = [] := List.dropWhile_eq_nil_iff.2 hx
  have htrim : trimAscii x = [] := by rw [trimAscii, hstart]; rfl
  unfold parseColumn
  simp only [htrim, List.isEmpty_nil, if_true]

/-- What a tame list leaves of a pass that stands in front of its constraints:
the list ends, and no piece cut from then on is read as a column. -/
theorem cut_constraints {m : Cutter} (hm : m.control = (start false).control)
    (hdone : ∀ p ∈ m.done, p.1 = true)
    (hpiece : m.mark = true ∨ m.piece = [] ∨ ∃ k : TableConstraint, m.piece = k.text)
    {ks : List TableConstraint} (htame : ∀ k ∈ ks, k.body.Tame false) (s : Bytes) :
    let m' := m.run (unmarked (ks.flatMap (fun k => comma :: k.text) ++ newline :: closeParen :: s))
    m'.closed = true ∧ ∀ p ∈ m'.pieces, p.1 = false → parseColumn p.2 = none := by
  obtain ⟨x, ps, hpieces, hclosed, hblank, hps⟩ := run_constraints hm htame s
  refine ⟨hclosed, ?_⟩
  rw [hpieces]
  intro p hp hmark
  rw [List.mem_append, List.mem_cons] at hp
  obtain hp | rfl | hp := hp
  · rw [hdone p hp] at hmark
    cases hmark
  · obtain htrue | hnil | ⟨k, hk⟩ := hpiece
    · rw [htrue] at hmark
      cases hmark
    · rw [hnil]
      exact parseColumn_blank hblank
    · rw [hk]
      exact k.parseColumn_text x
  · obtain ⟨-, k, y, hk⟩ := hps p hp
    rw [hk]
    exact k.parseColumn_text y

/-- The pass over a tame statement goes from item to item. -/
theorem Tame.strayFree {T : CreateTable} (h : T.Tame) :
    T.StrayFree ∧ T.cut.closed = true ∧ ∀ c ∈ T.columns, Sealed c.text := by
  obtain ⟨hcolumns, hconstraints⟩ := h
  have hsteady : ∀ c ∈ T.columns, Steady c.text := fun c hc => c.steady_text (hcolumns c hc)
  suffices hcut : T.cut.closed = true ∧ T.StrayFree from
    ⟨hcut.2, hcut.1, fun c hc => (hsteady c hc).sealed⟩
  have hending : T.ending = newline :: closeParen :: (T.clause.text ++ ascii ";") := by
    simp [ending]
  unfold StrayFree
  rw [cut, markedList]
  cases hcols : T.columns with
  | nil =>
    simp only [List.isEmpty_nil, Bool.not_true, list, hcols, List.map_nil, List.nil_append]
    cases hks : T.constraints with
    | nil =>
      rw [List.map_nil, commaSeparated, List.nil_append, hending]
      have hnone : ∀ k ∈ ([] : List TableConstraint), k.body.Tame false := by simp
      exact cut_constraints (m := start false) rfl (by simp [start]) (.inr (.inl rfl)) hnone _
    | cons k ks =>
      rw [hks] at hconstraints
      have hrun := k.steady_text (hconstraints k (by simp)) (start false) rfl
      rw [List.map_cons, commaSeparated, List.flatMap_map, List.append_assoc, unmarked_append,
        run_append, hrun, hending]
      exact cut_constraints (m := (start false).longer k.text) rfl (by simp [start])
        (.inr (.inr ⟨k, rfl⟩)) (fun j hj => hconstraints j (by simp [hj])) _
  | cons c cs =>
    rw [hcols] at hsteady
    have hrun := hsteady c (by simp) (start true) rfl
    have htexts : ∀ t ∈ cs.map Column.text, Steady t := by
      intro t ht
      obtain ⟨d, hd, rfl⟩ := List.mem_map.1 ht
      exact hsteady d (by simp [hd])
    obtain ⟨hcontrol, hpieces⟩ := run_marked (m := (start true).longer c.text) rfl htexts
    have hmarks : ∀ p ∈ (((start true).longer c.text).run (marked (cs.map Column.text))).pieces,
        p.1 = true := by
      rw [hpieces]
      simp [pieces, start]
    simp only [List.isEmpty_cons, Bool.not_false]
    rw [run_append, run_append, hrun, rest, hending]
    exact cut_constraints hcontrol (fun p hp => hmarks p (List.mem_append_left _ hp))
      (.inl (hmarks _ (List.mem_append_right _ (List.mem_singleton.2 rfl)))) hconstraints _

/-- When the columns of a statement are read back: a tame one's exactly when they
are kept, and any other's exactly when it is clear and free of stray columns,
where at least one of the two holds. -/
theorem createTable_recovered_iff (T : CreateTable) :
    (T.StrayFree → (T.Recovered ↔ T.Clear)) ∧ (T.Clear → (T.Recovered ↔ T.StrayFree))
      ∧ (T.Tame → (T.Recovered ↔ ∀ c ∈ T.columns, c.Kept)) := by
  obtain ⟨hstray, hclear⟩ := T.recovered_iff_clear
  refine ⟨hstray, hclear, fun htame => ?_⟩
  obtain ⟨hfree, hclosed, hsealed⟩ := htame.strayFree
  rw [hstray hfree, Clear, and_iff_right fun c hc => hsealed c (List.dropLast_subset _ hc),
    and_iff_right hclosed]

end CreateTable

/-! ### Statements that are not recovered -/

/-- The bytes that stand for themselves. -/
def Sql.plain : Bytes → Sql
  | [] => .nil
  | c :: s =>
    if h : c ≠ quote ∧ c ≠ apostrophe ∧ c ≠ openParen ∧ c ≠ closeParen then .byte c h (plain s)
    else plain s

theorem Sql.tame_plain {b : Bytes} (h : comma ∉ b) : (Sql.plain b).Tame false := by
  induction b with
  | nil => trivial
  | cons c b ih =>
    have ih := ih fun hb => h (by simp [hb])
    rw [plain]
    split_ifs
    · exact ⟨.inr (by rintro rfl; simp at h), ih⟩
    · exact ih

def integerType : SqlType where
  name := "integer"
  sql := .plain (ascii "integer")
  text_eq := by decide +kernel
  tame := Sql.tame_plain (by decide)
  ne := by decide +kernel
  noBlankEnds := by unfold NoBlankEnds; decide +kernel

/-- An integer column, the name of which needs no quotes. -/
def integerColumn (name : String) (h : isLowerWord (utf8 name) = true)
    (clauses : List ColumnClause) : Column :=
  { name := ⟨name, utf8 name, .bare name h⟩, type := integerType, clauses := clauses }

theorem isLowerWord_public : isLowerWord (utf8 "public") = true := by decide +kernel

theorem isLowerWord_t : isLowerWord (utf8 "t") = true := by decide +kernel

theorem isLowerWord_id : isLowerWord (utf8 "id") = true := by decide +kernel

/-- A table `public.t` without constraints. -/
def tableT (columns : List Column) : CreateTable :=
  { unlogged := false
    schema := some ⟨"public", ascii "public", .bare "public" isLowerWord_public⟩
    table := ⟨"t", ascii "t", .bare "t" isLowerWord_t⟩
    columns := columns
    constraints := []
    clause := .none }

def columnExclude : Column := integerColumn "exclude" (by decide +kernel) []

def columnNote : Column := integerColumn "note" (by decide +kernel) []

def columnId (default : Bytes) : Column :=
  integerColumn "id" isLowerWord_id [.default (.literal default .nil)]

/-- A column named `exclude`, which needs no quotes, is lost, and so is the
column behind a literal with a closing paren. -/
theorem createTable_recovered_counterexample :
    (tableT [columnExclude, columnNote]).text
        = ascii "CREATE TABLE public.t (\n    exclude integer,\n    note integer\n);"
      ∧ ¬(tableT [columnExclude, columnNote]).Recovered
      ∧ (tableT [columnId (ascii ")"), columnNote]).text
        = ascii "CREATE TABLE public.t (\n    id integer DEFAULT ')',\n    note integer\n);"
      ∧ ¬(tableT [columnId (ascii ")"), columnNote]).Recovered := by
  unfold CreateTable.Recovered
  decide +kernel

/-- A stray column may take the place of a lost one. -/
example : (tableT [columnId (ascii ",\"exclude\" integer NOT "), columnExclude]).Recovered
    ∧ constraintLeaders.any (eqIgnoreAsciiCase columnExclude.name.text) = true := by
  unfold CreateTable.Recovered
  decide +kernel

end PgDelta.Scan
