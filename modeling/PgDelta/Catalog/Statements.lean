import PgDelta.Pipeline.Config
import PgDelta.Sink.Locations
import PgDelta.Lib.Numerals

/-!
The statements that register the tables of a load in a catalog.

A statement is made from the name that the report gives: split at a dot, it says
where the table is, and joined with an underscore it says what the table is
called there.
-/

namespace PgDelta.Catalog

open PgDelta.Lib PgDelta.Scan PgDelta.Sink PgDelta.Pipeline

/-! ### The statements -/

/-- The parts of Python that the module relies on. -/
structure Python where
  /-- `str.isalnum`, of one character. -/
  isalnum : Char → Bool
  isalnum_ascii : ∀ c : Char, c.toNat < 128 → isalnum c = c.isAlphanum
  /-- How a text is shown in a message. -/
  repr : Text → Text

/-- The letters and digits of ASCII, and texts shown between quotes. -/
def Python.plain : Python where
  isalnum := Char.isAlphanum
  isalnum_ascii := Platform.plain.isAlphanumeric_ascii
  repr := fun s => '\'' :: (s ++ ['\''])

/-- A `CREATE TABLE IF NOT EXISTS` of an external table. -/
structure Statement where
  catalog : Text
  schema : Text
  table : Text
  location : Text
  deriving DecidableEq, Repr

def backquoted (identifier : Text) : Text := '`' :: (identifier ++ ['`'])

/-- The name that a table is registered under. -/
def Statement.target (s : Statement) : Text :=
  ['.'].intercalate [backquoted s.catalog, backquoted s.schema, backquoted s.table]

def Statement.sql (s : Statement) : Text :=
  "CREATE TABLE IF NOT EXISTS ".toList ++ s.target ++ " USING DELTA LOCATION '".toList
    ++ s.location ++ "'".toList

/-- What stands between the quotes of a statement, which has two of them. -/
def locationText (sql : Text) : Option Text :=
  match splitOnce '\'' sql with
  | none => none
  | some (_, rest) =>
    match splitOnce '\'' rest with
    | some (location, []) => some location
    | _ => none

/-- Identifiers that stay within the quotes put around them. -/
def Statement.Quoted (s : Statement) : Prop :=
  ∀ identifier ∈ [s.catalog, s.schema, s.table], '`' ∉ identifier ∧ '\'' ∉ identifier

theorem append_quoted (verb target clause location : Text) (quote : Char) :
    verb ++ target ++ (clause ++ [quote]) ++ location ++ [quote]
      = verb ++ target ++ clause ++ quote :: (location ++ [quote]) := by
  simp

/-- A location is read back unless it ends its own quotes. -/
theorem locationText_sql {s : Statement} (h : s.Quoted) :
    locationText s.sql = if '\'' ∈ s.location then none else some s.location := by
  obtain ⟨head, hhead, hsql⟩ : ∃ head, '\'' ∉ head ∧
      s.sql = head ++ '\'' :: (s.location ++ ['\'']) := by
    refine ⟨"CREATE TABLE IF NOT EXISTS ".toList ++ s.target ++ " USING DELTA LOCATION ".toList,
      ?_, ?_⟩
    · have hverb : '\'' ∉ "CREATE TABLE IF NOT EXISTS ".toList := by decide
      have hclause : '\'' ∉ " USING DELTA LOCATION ".toList := by decide
      have htarget : '\'' ∉ s.target := by
        have hcatalog := (h s.catalog (by simp)).2
        have hschema := (h s.schema (by simp)).2
        have htable := (h s.table (by simp)).2
        simp [Statement.target, backquoted, List.intercalate_cons_cons, hcatalog, hschema, htable]
      simp only [List.mem_append, hverb, hclause, htarget, or_self, not_false_eq_true]
    · have hopen : " USING DELTA LOCATION '".toList
          = " USING DELTA LOCATION ".toList ++ ['\''] := rfl
      unfold Statement.sql
      generalize " USING DELTA LOCATION ".toList = clause at hopen ⊢
      generalize " USING DELTA LOCATION '".toList = opened at hopen ⊢
      subst hopen
      exact append_quoted ..
  rw [locationText, hsql, splitOnce_append hhead]
  dsimp only
  split_ifs with hquote
  · obtain ⟨a, b, hlocation, ha⟩ := List.eq_append_cons_of_mem hquote
    rw [hlocation, List.append_assoc, List.cons_append, splitOnce_append ha]
    cases b with
    | nil => rfl
    | cons c b => rfl
  · rw [splitOnce_append hquote]

section

variable (py : Python)

def safe (identifier : Text) : Bool :=
  !identifier.isEmpty &&
    identifier.all fun c => py.isalnum c || c == '_' || c == '-' || c == ' '

variable {py} in
theorem safe_unquoted {identifier : Text} (h : safe py identifier = true) :
    '`' ∉ identifier ∧ '\'' ∉ identifier := by
  rw [safe, Bool.and_eq_true, List.all_eq_true] at h
  have hnot : ∀ c ∈ identifier, ∀ d : Char, d.toNat < 128 → d.isAlphanum = false →
      d ≠ '_' → d ≠ '-' → d ≠ ' ' → c ≠ d := by
    rintro c hc d hascii halnum hunderscore hhyphen hspace rfl
    have hsafe := h.2 c hc
    rw [py.isalnum_ascii c hascii, halnum] at hsafe
    simp [hunderscore, hhyphen, hspace] at hsafe
  refine ⟨fun hmem => ?_, fun hmem => ?_⟩
  · exact hnot _ hmem '`' (by decide) (by decide) (by decide) (by decide) (by decide) rfl
  · exact hnot _ hmem '\'' (by decide) (by decide) (by decide) (by decide) (by decide) rfl

/-- The message of a `ValueError`, unless an identifier may stand in SQL. -/
def quoteError (identifier : Text) : Option Text :=
  if safe py identifier then none
  else some ("refusing to interpolate ".toList ++ py.repr identifier ++ " into SQL: ".toList
    ++ "expected letters, digits, underscores, hyphens or spaces".toList)

/-- Split `schema.table` at its first dot. -/
def splitName (qualified : Text) : Text × Text := (splitOnce '.' qualified).getD ([], qualified)

def statementOf (outputUri catalog schema qualified : Text) : Except Text Statement :=
  let (sourceSchema, sourceTable) := splitName qualified
  let parts :=
    if sourceSchema = [] then [sourceTable]
    else [sourceSchema, sourceTable].filter fun part => !part.isEmpty
  if !parts.all (safe py) then
    .error ("refusing to interpolate ".toList ++ py.repr qualified ++ " into SQL".toList)
  else if sourceTable = [] then
    .error ("refusing to register ".toList ++ py.repr qualified ++ ": no table name".toList)
  else
    let relative := if sourceSchema = [] then sourceTable else sourceSchema ++ '/' :: sourceTable
    let flat := if sourceSchema = [] then sourceTable else sourceSchema ++ '_' :: sourceTable
    match [catalog, schema, flat].filterMap (quoteError py) with
    | message :: _ => .error message
    | [] => .ok
      { catalog := catalog
        schema := schema
        table := flat
        location := outputUri.rdropWhile (· = '/') ++ '/' :: relative }

/-- The names among those of a report that a caller asked for. -/
def wantedNames (tables : Option (List String)) (names : List String) : List String :=
  names.filter fun name => tables.all (·.contains name)

/-- One statement for each loaded table, unless a name is refused. -/
def externalTables (names : List String) (outputUri catalog schema : String)
    (tables : Option (List String)) : Except Text (List Statement) :=
  (wantedNames tables names).mapM fun name =>
    statementOf py outputUri.toList catalog.toList schema.toList name.toList

/-- The SQL that registers the tables of a report. -/
def externalTableSql (report : LoadReport) (outputUri catalog schema : String)
    (tables : Option (List String)) : Except Text (List Text) :=
  (externalTables py (report.tables.map TableStats.table) outputUri catalog schema tables).map
    (·.map Statement.sql)

end

/-! ### The statement of an accepted name -/

def flatName (name : TableName) : Text := ['_'].intercalate (nameParts name)

def tablePath (outputUri : Text) (name : TableName) : Text :=
  outputUri.rdropWhile (· = '/') ++ '/' :: ['/'].intercalate (nameParts name)

def registration (outputUri catalog schema : Text) (name : TableName) : Statement where
  catalog := catalog
  schema := schema
  table := flatName name
  location := tablePath outputUri name

section Accepted

variable {P : Platform} {py : Python}

/-- The name that a report shows is split where it was put together. -/
theorem splitName_qualified {name : TableName} {path : String}
    (h : relativePath P name = .ok path) :
    splitName name.qualified.toList =
        ((name.schema.map String.toList).getD [], name.table.toList) ∧
      ∀ schema, name.schema = some schema → schema.toList ≠ [] := by
  have hparts := (relativePath_spec h).2
  have hdot : ∀ part ∈ nameParts name, '.' ∉ part := fun part hpart hmem =>
    ((hparts part hpart).chars _ hmem).2.2.1 rfl
  rw [toList_qualified, splitName]
  cases hschema : name.schema with
  | none =>
      simp only [nameParts, hschema, Option.toList_none, List.map_nil, List.nil_append,
        List.mem_singleton, forall_eq] at hdot ⊢
      rw [List.intercalate_singleton, splitOnce_eq_none hdot]
      exact ⟨rfl, fun schema h => by cases h⟩
  | some schema =>
      simp only [nameParts, hschema, Option.toList_some, List.map_cons, List.map_nil,
        List.cons_append, List.nil_append] at hdot hparts ⊢
      have hjoin : ['.'].intercalate [schema.toList, name.table.toList]
          = schema.toList ++ '.' :: name.table.toList := by
        rw [List.intercalate_cons_cons, List.intercalate_singleton, List.append_assoc]
        rfl
      rw [hjoin, splitOnce_append (hdot _ List.mem_cons_self)]
      refine ⟨rfl, ?_⟩
      rintro _ ⟨rfl⟩
      exact (hparts _ List.mem_cons_self).ne_nil

theorem quoteError_nil {identifiers : List Text}
    (h : identifiers.filterMap (quoteError py) = []) :
    ∀ identifier ∈ identifiers, '`' ∉ identifier ∧ '\'' ∉ identifier := by
  intro identifier hmem
  have hnone := List.filterMap_eq_nil_iff.mp h identifier hmem
  unfold quoteError at hnone
  split_ifs at hnone with hsafe
  exact safe_unquoted hsafe

theorem statementOf_qualified {name : TableName} {path : String} {outputUri catalog schema : Text}
    {statement : Statement} (h : relativePath P name = .ok path)
    (hok : statementOf py outputUri catalog schema name.qualified.toList = .ok statement) :
    statement = registration outputUri catalog schema name ∧ statement.Quoted := by
  obtain ⟨hsplit, hne⟩ := splitName_qualified h
  unfold statementOf at hok
  rw [hsplit] at hok
  dsimp only at hok
  cases hschema : name.schema with
  | none =>
      simp only [hschema, Option.map_none, Option.getD_none, if_true] at hok
      split_ifs at hok
      split at hok
      · cases hok
      next hquoted =>
        rw [← Except.ok.inj hok]
        refine ⟨?_, quoteError_nil hquoted⟩
        simp [registration, flatName, tablePath, nameParts, hschema]
  | some sourceSchema =>
      have hne := hne _ hschema
      simp only [hschema, Option.map_some, Option.getD_some, if_neg hne] at hok
      split_ifs at hok
      split at hok
      · cases hok
      next hquoted =>
        rw [← Except.ok.inj hok]
        refine ⟨?_, quoteError_nil hquoted⟩
        simp [registration, flatName, tablePath, nameParts, hschema, List.intercalate_cons_cons]

/-- The location is where the loader writes the table. -/
theorem tableUri_accepted {name : TableName} {path : String}
    (h : relativePath P name = .ok path) (outputUri : String) :
    tableUri P outputUri name = .ok (String.ofList (tablePath outputUri.toList name)) := by
  rw [tableUri, h]
  dsimp only
  congr 1
  apply String.toList_inj.mp
  rw [String.toList_append, String.toList_append, String.toList_ofList, String.toList_ofList,
    (relativePath_spec h).1, String.toList_ofList, tablePath, List.append_assoc]
  rfl

theorem externalTables_eq {names : List TableName} {outputUri catalog schema : String}
    {tables : Option (List String)} {statements : List Statement}
    (haccepted : ∀ name ∈ names, ∃ path, relativePath P name = .ok path)
    (hok : externalTables py (names.map TableName.qualified) outputUri catalog schema tables
      = .ok statements) :
    statements = (names.filter fun name => tables.all (·.contains name.qualified)).map
        (registration outputUri.toList catalog.toList schema.toList) ∧
      ∀ s ∈ statements, s.Quoted := by
  unfold externalTables wantedNames at hok
  rw [List.filter_map] at hok
  have hwanted : ∀ name ∈ names.filter fun name => tables.all (·.contains name.qualified),
      ∃ path, relativePath P name = .ok path :=
    fun name hname => haccepted name (List.mem_of_mem_filter hname)
  generalize hloaded : (names.filter fun name => tables.all (·.contains name.qualified)) = loaded
    at hwanted ⊢
  rw [show names.filter ((fun name => tables.all (·.contains name)) ∘ TableName.qualified) = loaded
    from hloaded] at hok
  clear hloaded
  induction loaded generalizing statements with
  | nil =>
      obtain rfl := Except.ok.inj hok
      exact ⟨rfl, fun s hs => by cases hs⟩
  | cons name loaded ih =>
      rw [List.map_cons, List.mapM_cons] at hok
      obtain ⟨path, hpath⟩ := hwanted name List.mem_cons_self
      cases hfirst : statementOf py outputUri.toList catalog.toList schema.toList
          name.qualified.toList with
      | error e =>
          rw [hfirst] at hok
          cases hok
      | ok statement =>
          rw [hfirst] at hok
          cases hrest : (loaded.map TableName.qualified).mapM fun name =>
              statementOf py outputUri.toList catalog.toList schema.toList name.toList with
          | error e =>
              rw [hrest] at hok
              cases hok
          | ok rest =>
              rw [hrest] at hok
              obtain ⟨hstatement, hquoted⟩ := statementOf_qualified hpath hfirst
              obtain ⟨hstatements, hall⟩ :=
                ih hrest fun name hname => hwanted name (List.mem_cons_of_mem _ hname)
              obtain rfl := Except.ok.inj hok
              rw [List.map_cons, ← hstatements, ← hstatement]
              exact ⟨rfl, List.forall_mem_cons.mpr ⟨hquoted, hall⟩⟩

end Accepted

end PgDelta.Catalog
