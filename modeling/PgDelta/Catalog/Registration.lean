import PgDelta.Catalog.Statements

/-!
Registering the tables of a load in a catalog.

Where a table is can be undone from its path. What it is called cannot, as an
underscore may stand within a name and the catalog may take two names for one.
Two tables that are called the same get one registration between them.
-/

namespace PgDelta.Catalog

open PgDelta.Lib PgDelta.Scan PgDelta.Sink PgDelta.Pipeline

/-! ### The session -/

/-- What a catalog compares of a name: its parts, each as `fold` makes it. -/
def Statement.key (fold : Text → Text) (s : Statement) : Text × Text × Text :=
  (fold s.catalog, fold s.schema, fold s.table)

def schemaSql (catalog schema : Text) : Text :=
  "CREATE SCHEMA IF NOT EXISTS ".toList
    ++ ['.'].intercalate [backquoted catalog, backquoted schema]

/-- A Spark session on a catalog: where the names of the catalog lead, how it
compares them, what a string literal stands for, and what a statement does. -/
structure Spark where
  State : Type
  lookup : State → Text × Text × Text → Option Text
  /-- The letters of a name in one case. -/
  fold : Text → Text
  fold_underscore : ∀ s t, fold (s ++ '_' :: t) = fold s ++ '_' :: fold t
  /-- The text of a literal, given by what stands between its quotes. -/
  unescape : Text → Option Text
  unescape_plain : ∀ {s}, '\\' ∉ s → unescape s = some s
  sql : State → Text → Except Text State
  /-- `CREATE TABLE IF NOT EXISTS` leaves a name alone that is taken. -/
  sql_table : ∀ {c c'} {s : Statement} {location}, s.Quoted →
    (locationText s.sql).bind unescape = some location → sql c s.sql = .ok c' →
      ∀ name, lookup c' name =
        if lookup c name = none ∧ s.key fold = name then some location else lookup c name
  sql_schema : ∀ {c c' catalog schema}, '`' ∉ catalog → '`' ∉ schema →
    sql c (schemaSql catalog schema) = .ok c' → lookup c' = lookup c

/-- Execute statements until one raises. -/
def Spark.run (spark : Spark) : spark.State → List Text → Except Text Unit × spark.State
  | c, [] => (.ok (), c)
  | c, statement :: statements =>
    match spark.sql c statement with
    | .error e => (.error e, c)
    | .ok c => spark.run c statements

/-- Create the schema and register the tables of a report in it. -/
def registerExternalTables (py : Python) (spark : Spark) (c : spark.State) (report : LoadReport)
    (outputUri catalog schema : String) (tables : Option (List String)) :
    Except Text (List Text) × spark.State :=
  match [catalog.toList, schema.toList].filterMap (quoteError py) with
  | message :: _ => (.error message, c)
  | [] =>
    match spark.sql c (schemaSql catalog.toList schema.toList) with
    | .error e => (.error e, c)
    | .ok c =>
      match externalTableSql py report outputUri catalog schema tables with
      | .error message => (.error message, c)
      | .ok statements =>
        match spark.run c statements with
        | (.error e, c) => (.error e, c)
        | (.ok (), c) => (.ok statements, c)

/-- A session reads in a statement the location that was put there. -/
def Spark.Reads (spark : Spark) (s : Statement) : Prop :=
  s.Quoted ∧ (locationText s.sql).bind spark.unescape = some s.location

/-- After the statements a name leads where it did. If it was free, it leads
where the first statement for it says. -/
theorem Spark.lookup_run {spark : Spark} {c c' : spark.State} {statements : List Statement}
    (hreads : ∀ s ∈ statements, spark.Reads s)
    (hrun : spark.run c (statements.map Statement.sql) = (.ok (), c')) (name : Text × Text × Text) :
    spark.lookup c' name = (spark.lookup c name).or
      ((statements.find? fun s => s.key spark.fold == name).map Statement.location) := by
  induction statements generalizing c with
  | nil =>
      obtain ⟨-, rfl⟩ := Prod.mk.inj hrun
      rw [List.find?_nil, Option.map_none, Option.or_none]
  | cons s statements ih =>
      obtain ⟨hs, hrest⟩ := List.forall_mem_cons.mp hreads
      rw [List.map_cons, Spark.run] at hrun
      cases hsql : spark.sql c s.sql with
      | error e =>
          rw [hsql] at hrun
          cases hrun
      | ok next =>
          rw [hsql] at hrun
          have hnext := spark.sql_table hs.1 hs.2 hsql name
          rw [ih hrest hrun, hnext, List.find?_cons]
          -- a name that is taken stays as it is; a free one takes the first location
          cases hfound : spark.lookup c name with
          | some location => simp
          | none =>
              by_cases hname : s.key spark.fold = name
              · simp [hname]
              · simp [hname, beq_false_of_ne hname]

/-- A registration that raises nothing ran its statements one after another. -/
theorem registerExternalTables_ok {py : Python} {spark : Spark} {c c' : spark.State}
    {report : LoadReport} {outputUri catalog schema : String} {tables : Option (List String)}
    {sql : List Text}
    (h : registerExternalTables py spark c report outputUri catalog schema tables = (.ok sql, c')) :
    externalTableSql py report outputUri catalog schema tables = .ok sql ∧
      ∃ c₁, spark.lookup c₁ = spark.lookup c ∧ spark.run c₁ sql = (.ok (), c') := by
  unfold registerExternalTables at h
  split at h
  · cases h
  next hquoted =>
    have hplain := quoteError_nil hquoted
    split at h
    · cases h
    next c₁ hschema =>
      split at h
      · cases h
      next statements hstatements =>
        split at h
        · cases h
        next c₂ hrun =>
          obtain ⟨hsql, rfl⟩ := Prod.mk.inj h
          obtain rfl := Except.ok.inj hsql
          exact ⟨hstatements, c₁, spark.sql_schema (hplain _ (by simp)).1 (hplain _ (by simp)).1
            hschema, hrun⟩

/-! ### Names that are called the same -/

section Fold

variable (fold : Text → Text)

def SameName (a b : TableName) : Prop :=
  a.schema.map (fun s => fold s.toList) = b.schema.map (fun s => fold s.toList) ∧
    fold a.table.toList = fold b.table.toList

/-- An underscore of the second name stands where the first one has the mark
between its schema and its table. -/
def Shifted (a b : TableName) : Prop :=
  ∃ schema, a.schema = some schema ∧
    ((b.schema = none ∧
        fold b.table.toList = fold schema.toList ++ '_' :: fold a.table.toList) ∨
      ∃ schema' middle, b.schema = some schema' ∧
        fold schema'.toList = fold schema.toList ++ '_' :: middle ∧
        fold a.table.toList = middle ++ '_' :: fold b.table.toList)

end Fold

theorem append_cons_eq_iff {sep : Char} {s t s' t' : Text} :
    s ++ sep :: t = s' ++ sep :: t' ↔
      (s = s' ∧ t = t') ∨ (∃ m, s' = s ++ sep :: m ∧ t = m ++ sep :: t') ∨
        ∃ m, s = s' ++ sep :: m ∧ t' = m ++ sep :: t := by
  constructor
  · intro h
    obtain ⟨a, hs, ht⟩ | ⟨a, hs, ht⟩ := List.append_eq_append_iff.mp h
    · cases a with
      | nil =>
          rw [List.append_nil] at hs
          exact .inl ⟨hs.symm, (List.cons.inj ht).2⟩
      | cons c a =>
          obtain ⟨rfl, hrest⟩ := List.cons.inj ht
          exact .inr (.inl ⟨a, hs, hrest⟩)
    · cases a with
      | nil =>
          rw [List.append_nil] at hs
          exact .inl ⟨hs, (List.cons.inj ht).2.symm⟩
      | cons c a =>
          obtain ⟨rfl, hrest⟩ := List.cons.inj ht
          exact .inr (.inr ⟨a, hs, hrest⟩)
  · rintro (⟨rfl, rfl⟩ | ⟨m, rfl, rfl⟩ | ⟨m, rfl, rfl⟩)
    · rfl
    · simp
    · simp

theorem flatName_none {name : TableName} (h : name.schema = none) :
    flatName name = name.table.toList := by
  simp [flatName, nameParts, h]

theorem flatName_some {name : TableName} {schema : String} (h : name.schema = some schema) :
    flatName name = schema.toList ++ '_' :: name.table.toList := by
  simp [flatName, nameParts, h, List.intercalate_cons_cons]

/-- A catalog takes what two tables are called for one name when it takes the
names themselves for one, or one of them with an underscore for the other's dot. -/
theorem fold_flatName_eq_iff {fold : Text → Text}
    (hfold : ∀ s t, fold (s ++ '_' :: t) = fold s ++ '_' :: fold t) (a b : TableName) :
    fold (flatName a) = fold (flatName b) ↔
      SameName fold a b ∨ Shifted fold a b ∨ Shifted fold b a := by
  obtain ⟨schema, table⟩ := a
  obtain ⟨schema', table'⟩ := b
  cases schema with
  | none =>
      rw [flatName_none rfl]
      cases schema' with
      | none => simp [flatName_none, SameName, Shifted]
      | some schema' =>
          rw [flatName_some rfl, hfold]
          simp [SameName, Shifted]
  | some schema =>
      rw [flatName_some rfl, hfold]
      cases schema' with
      | none =>
          rw [flatName_none rfl]
          simp [SameName, Shifted, eq_comm]
      | some schema' =>
          rw [flatName_some rfl, hfold, append_cons_eq_iff]
          simp [SameName, Shifted]

theorem not_shifted_self (fold : Text → Text) (a : TableName) : ¬Shifted fold a a := by
  rintro ⟨schema, hschema, ⟨hnone, -⟩ | ⟨schema', middle, hschema', hlonger, -⟩⟩
  · rw [hschema] at hnone
    cases hnone
  · obtain rfl := Option.some.inj (hschema.symm.trans hschema')
    have hlen := congrArg List.length hlonger
    rw [List.length_append, List.length_cons] at hlen
    omega

theorem key_registration {fold : Text → Text} {outputUri catalog schema : Text}
    {a b : TableName} :
    (registration outputUri catalog schema a).key fold
        = (registration outputUri catalog schema b).key fold ↔
      fold (flatName a) = fold (flatName b) := by
  simp [Statement.key, registration]

/-! ### Faithful registration -/

/-- The statements of a load say where its tables are, each under a name of its
own, and once they are executed the names lead there. -/
structure Faithful (P : Platform) (py : Python) (spark : Spark) (report : LoadReport)
    (outputUri catalog schema : String) (tables : Option (List String)) (loaded : List TableName)
    (statements : List Statement) : Prop where
  complete : statements.length = loaded.length
  located : ∀ r ∈ loaded.zip statements, ∃ path, tableUri P outputUri r.1 = .ok path ∧
    (locationText r.2.sql).bind spark.unescape = some path.toList
  apart : ∀ r ∈ loaded.zip statements, ∀ r' ∈ loaded.zip statements,
    r.2.key spark.fold = r'.2.key spark.fold → r.1 = r'.1
  registered : ∀ {c c' sql},
    registerExternalTables py spark c report outputUri catalog schema tables = (.ok sql, c') →
      ∀ r ∈ loaded.zip statements, spark.lookup c (r.2.key spark.fold) = none →
        ∃ path, tableUri P outputUri r.1 = .ok path ∧
          spark.lookup c' (r.2.key spark.fold) = some path.toList
  kept : ∀ {c c' sql},
    registerExternalTables py spark c report outputUri catalog schema tables = (.ok sql, c') →
      ∀ name, spark.lookup c name ≠ none ∨ (∀ s ∈ statements, s.key spark.fold ≠ name) →
        spark.lookup c' name = spark.lookup c name

/-- What faithful registration asks of the prefix and of the names of a load. -/
structure Registrable (spark : Spark) (outputUri : String) (loaded : List TableName) : Prop where
  unquoted : loaded ≠ [] → '\'' ∉ outputUri.toList
  unescaped : ∀ a ∈ loaded,
    spark.unescape (tablePath outputUri.toList a) = some (tablePath outputUri.toList a)
  apart : ∀ a ∈ loaded, ∀ b ∈ loaded, SameName spark.fold a b → a = b
  unshifted : ∀ a ∈ loaded, ∀ b ∈ loaded, ¬Shifted spark.fold a b

section Registered

variable {P : Platform} {py : Python} {spark : Spark}

/-- A name that stays within its quotes ends no literal, wherever it stands. -/
theorem quote_mem_tablePath {name : TableName} (h : '\'' ∉ flatName name) (outputUri : Text) :
    '\'' ∈ tablePath outputUri name ↔ '\'' ∈ outputUri := by
  have hparts : '\'' ∉ ['/'].intercalate (nameParts name) := by
    cases hschema : name.schema with
    | none => simpa [flatName, nameParts, hschema] using h
    | some schema => simpa [flatName, nameParts, hschema, List.intercalate_cons_cons] using h
  have hslash : '\'' ≠ '/' := by decide
  rw [tablePath, List.mem_append, List.mem_cons]
  simp only [hslash, hparts, or_false]
  constructor
  · exact fun hmem => (List.rdropWhile_prefix _ _).subset hmem
  · intro hmem
    rw [← List.rdropWhile_append_rtakeWhile (p := fun c => decide (c = '/')) (l := outputUri),
      List.mem_append] at hmem
    obtain hmem | hmem := hmem
    · exact hmem
    · exact absurd (List.mem_rtakeWhile_imp hmem) (by decide)

theorem mem_zip_map {α β : Type} {f : α → β} {l : List α} {r : α × β} :
    r ∈ l.zip (l.map f) ↔ r.1 ∈ l ∧ r.2 = f r.1 := by
  have hzip : l.zip (l.map f) = l.map fun a => (a, f a) := by
    have h := @List.zip_map' _ _ _ id f l
    rwa [List.map_id] at h
  obtain ⟨a, b⟩ := r
  rw [hzip, List.mem_map]
  constructor
  · rintro ⟨a, ha, ⟨⟩⟩
    exact ⟨ha, rfl⟩
  · rintro ⟨ha, hb⟩
    exact ⟨a, ha, congrArg (Prod.mk a) hb.symm⟩


/-- A statement that is due to a table says where the table is when its prefix
has no quote and the session takes nothing in the path for an escape. -/
theorem locationText_registration {outputUri catalog schema : Text} {name : TableName}
    (h : (registration outputUri catalog schema name).Quoted) :
    locationText (registration outputUri catalog schema name).sql
      = if '\'' ∈ outputUri then none else some (tablePath outputUri name) := by
  have hflat : '\'' ∉ flatName name := (h (flatName name) (by simp [registration])).2
  rw [locationText_sql h]
  simp only [registration, quote_mem_tablePath hflat]

theorem Registrable.of_apart {outputUri : String} {loaded : List TableName}
    (hunquoted : loaded ≠ [] → '\'' ∉ outputUri.toList)
    (hunescaped : ∀ a ∈ loaded,
      spark.unescape (tablePath outputUri.toList a) = some (tablePath outputUri.toList a))
    (hapart : ∀ a ∈ loaded, ∀ b ∈ loaded,
      spark.fold (flatName a) = spark.fold (flatName b) → a = b) :
    Registrable spark outputUri loaded := by
  have hsame := fold_flatName_eq_iff spark.fold_underscore
  refine ⟨hunquoted, hunescaped, fun a ha b hb hname => ?_, fun a ha b hb hshifted => ?_⟩
  · exact hapart a ha b hb ((hsame a b).mpr (.inl hname))
  · have heq := hapart a ha b hb ((hsame a b).mpr (.inr (.inl hshifted)))
    subst heq
    exact not_shifted_self _ a hshifted

theorem Faithful.registrable {report : LoadReport} {outputUri catalog schema : String}
    {tables : Option (List String)} {loaded : List TableName}
    (h : Faithful P py spark report outputUri catalog schema tables loaded
      (loaded.map (registration outputUri.toList catalog.toList schema.toList)))
    (hloaded : ∀ name ∈ loaded, ∃ path, relativePath P name = .ok path)
    (hquoted : ∀ s ∈ loaded.map (registration outputUri.toList catalog.toList schema.toList),
      s.Quoted) :
    Registrable spark outputUri loaded := by
  have hdue : ∀ a ∈ loaded, (a, registration outputUri.toList catalog.toList schema.toList a) ∈
      loaded.zip (loaded.map (registration outputUri.toList catalog.toList schema.toList)) :=
    fun a ha => mem_zip_map.mpr ⟨ha, rfl⟩
  have hread : ∀ a ∈ loaded, '\'' ∉ outputUri.toList ∧
      spark.unescape (tablePath outputUri.toList a) = some (tablePath outputUri.toList a) := by
    intro a ha
    obtain ⟨path, hpath⟩ := hloaded a ha
    obtain ⟨written, hwritten, hlocated⟩ := h.located _ (hdue a ha)
    rw [tableUri_accepted hpath, Except.ok.injEq] at hwritten
    rw [locationText_registration (hquoted _ (List.mem_map_of_mem ha)), ← hwritten,
      String.toList_ofList] at hlocated
    split_ifs at hlocated with hquote
    · cases hlocated
    · exact ⟨hquote, hlocated⟩
  refine .of_apart (fun hne => ?_) (fun a ha => (hread a ha).2) fun a ha b hb hflat => ?_
  · obtain ⟨a, ha⟩ := List.exists_mem_of_ne_nil _ hne
    exact (hread a ha).1
  · exact h.apart _ (hdue a ha) _ (hdue b hb) (key_registration.mpr hflat)

theorem Registrable.reads {outputUri : String} {catalog schema : Text} {loaded : List TableName}
    (h : Registrable spark outputUri loaded)
    (hquoted : ∀ s ∈ loaded.map (registration outputUri.toList catalog schema), s.Quoted) :
    ∀ s ∈ loaded.map (registration outputUri.toList catalog schema), spark.Reads s := by
  intro s hs
  obtain ⟨a, ha, rfl⟩ := List.mem_map.mp hs
  refine ⟨hquoted _ hs, ?_⟩
  rw [locationText_registration (hquoted _ hs), if_neg (h.unquoted (List.ne_nil_of_mem ha))]
  exact h.unescaped a ha

/-- Two statements for one name are due to one table. -/
theorem Registrable.key_inj {outputUri : String} {catalog schema : Text} {loaded : List TableName}
    (h : Registrable spark outputUri loaded) {a b : TableName} (ha : a ∈ loaded) (hb : b ∈ loaded)
    (hkey : (registration outputUri.toList catalog schema a).key spark.fold
      = (registration outputUri.toList catalog schema b).key spark.fold) : a = b := by
  obtain hname | hshifted | hshifted :=
    (fold_flatName_eq_iff spark.fold_underscore a b).mp (key_registration.mp hkey)
  · exact h.apart a ha b hb hname
  · exact absurd hshifted (h.unshifted a ha b hb)
  · exact absurd hshifted (h.unshifted b hb a ha)

/-- The first statement for the name of a table says where that table is. -/
theorem Registrable.location_due {outputUri : String} {catalog schema : Text}
    {loaded : List TableName} (h : Registrable spark outputUri loaded) {a : TableName}
    (ha : a ∈ loaded) :
    ((loaded.map (registration outputUri.toList catalog schema)).find? fun s =>
        s.key spark.fold == (registration outputUri.toList catalog schema a).key spark.fold).map
      Statement.location = some (tablePath outputUri.toList a) := by
  cases hfind : (loaded.map (registration outputUri.toList catalog schema)).find? fun s =>
      s.key spark.fold == (registration outputUri.toList catalog schema a).key spark.fold with
  | none =>
      have hnot := List.find?_eq_none.mp hfind _ (List.mem_map_of_mem ha)
      simp at hnot
  | some s =>
      have hkey := List.find?_some hfind
      obtain ⟨b, hb, rfl⟩ := List.mem_map.mp (List.mem_of_find?_eq_some hfind)
      rw [h.key_inj hb ha (by simpa using hkey)]
      rfl

theorem Registrable.faithful {report : LoadReport} {outputUri catalog schema : String}
    {tables : Option (List String)} {loaded : List TableName}
    (h : Registrable spark outputUri loaded)
    (hloaded : ∀ name ∈ loaded, ∃ path, relativePath P name = .ok path)
    (hquoted : ∀ s ∈ loaded.map (registration outputUri.toList catalog.toList schema.toList),
      s.Quoted)
    (hok : externalTableSql py report outputUri catalog schema tables
      = .ok ((loaded.map (registration outputUri.toList catalog.toList schema.toList)).map
          Statement.sql)) :
    Faithful P py spark report outputUri catalog schema tables loaded
      (loaded.map (registration outputUri.toList catalog.toList schema.toList)) := by
  have hreads := h.reads hquoted
  -- whatever a session executed without an error, each name leads where `lookup_run` says
  have hrun : ∀ {c c' sql},
      registerExternalTables py spark c report outputUri catalog schema tables = (.ok sql, c') →
        ∀ name, spark.lookup c' name = (spark.lookup c name).or
          (((loaded.map (registration outputUri.toList catalog.toList schema.toList)).find?
            fun s => s.key spark.fold == name).map Statement.location) := by
    intro c c' sql hregister name
    obtain ⟨hsql, c₁, hsame, hrun⟩ := registerExternalTables_ok hregister
    obtain rfl := Except.ok.inj (hok.symm.trans hsql)
    rw [Spark.lookup_run hreads hrun, hsame]
  refine ⟨List.length_map _, ?_, ?_, ?_, ?_⟩
  · intro r hr
    obtain ⟨hmem, hstatement⟩ := mem_zip_map.mp hr
    obtain ⟨path, hpath⟩ := hloaded r.1 hmem
    refine ⟨_, tableUri_accepted hpath outputUri, ?_⟩
    rw [hstatement, String.toList_ofList]
    exact (hreads _ (List.mem_map_of_mem hmem)).2
  · intro r hr r' hr' hkey
    obtain ⟨hmem, hstatement⟩ := mem_zip_map.mp hr
    obtain ⟨hmem', hstatement'⟩ := mem_zip_map.mp hr'
    rw [hstatement, hstatement'] at hkey
    exact h.key_inj hmem hmem' hkey
  · intro c c' sql hregister r hr hfree
    obtain ⟨hmem, hstatement⟩ := mem_zip_map.mp hr
    obtain ⟨path, hpath⟩ := hloaded r.1 hmem
    refine ⟨_, tableUri_accepted hpath outputUri, ?_⟩
    rw [hrun hregister, hfree, Option.none_or, String.toList_ofList, hstatement]
    exact h.location_due hmem
  · intro c c' sql hregister name hname
    -- a taken name hides the statements, and for any other one there is none
    rw [hrun hregister]
    obtain htaken | hother := hname
    · obtain ⟨location, hlocation⟩ := Option.ne_none_iff_exists'.mp htaken
      rw [hlocation, Option.some_or]
    · have hnone : (loaded.map
          (registration outputUri.toList catalog.toList schema.toList)).find?
            (fun s => s.key spark.fold == name) = none := by
        rw [List.find?_eq_none]
        intro s hs
        simpa using hother s hs
      rw [hnone, Option.map_none, Option.or_none]

/-- Registration is faithful exactly when the prefix has no quote, no path is
read as another one, and no two loaded tables are called the same: none is named
like another one in the letters that the catalog compares, nor with an underscore
in place of the dot. -/
theorem registration_faithful_iff {report : LoadReport} {outputUri catalog schema : String}
    {tables : Option (List String)} {names : List TableName} {sql : List Text}
    (hnames : report.tables.map TableStats.table = names.map TableName.qualified)
    (haccepted : ∀ name ∈ names, ∃ path, relativePath P name = .ok path)
    (hok : externalTableSql py report outputUri catalog schema tables = .ok sql) :
    ∃ statements, sql = statements.map Statement.sql ∧
      (Faithful P py spark report outputUri catalog schema tables
          (names.filter fun name => tables.all (·.contains name.qualified)) statements ↔
        Registrable spark outputUri
          (names.filter fun name => tables.all (·.contains name.qualified))) := by
  have hsql := hok
  unfold externalTableSql at hsql
  rw [hnames] at hsql
  cases hstatements : externalTables py (names.map TableName.qualified) outputUri catalog schema
      tables with
  | error e =>
      rw [hstatements] at hsql
      cases hsql
  | ok statements =>
      rw [hstatements] at hsql
      obtain rfl := Except.ok.inj hsql
      refine ⟨statements, rfl, ?_⟩
      obtain ⟨hdue, hquoted⟩ := externalTables_eq haccepted hstatements
      subst hdue
      have hloaded : ∀ name ∈ names.filter fun name => tables.all (·.contains name.qualified),
          ∃ path, relativePath P name = .ok path :=
        fun name hname => haccepted name (List.mem_of_mem_filter hname)
      generalize (names.filter fun name => tables.all (·.contains name.qualified)) = loaded
        at hloaded hquoted hok ⊢
      exact ⟨fun h => h.registrable hloaded hquoted, fun h => h.faithful hloaded hquoted hok⟩

end Registered

/-! ### A session -/

def readName (text : Text) : Option (Text × Text × Text) :=
  match splitn '`' 7 text with
  | [_, catalog, _, schema, _, table, _] => some (catalog, schema, table)
  | _ => none

theorem append_target_append (verb tail : Text) (s : Statement) :
    verb ++ s.target ++ tail = verb ++ '`' :: (s.catalog ++ '`' :: (['.'] ++
      '`' :: (s.schema ++ '`' :: (['.'] ++ '`' :: (s.table ++ '`' :: tail))))) := by
  simp [Statement.target, backquoted, List.intercalate_cons_cons]

theorem readName_sql {s : Statement} (h : s.Quoted) :
    readName s.sql = some (s.catalog, s.schema, s.table) := by
  have hcatalog := (h s.catalog (by simp)).1
  have hschema := (h s.schema (by simp)).1
  have htable := (h s.table (by simp)).1
  have hverb : '`' ∉ "CREATE TABLE IF NOT EXISTS ".toList := by decide
  have hdot : '`' ∉ ['.'] := by decide
  unfold readName Statement.sql
  generalize "CREATE TABLE IF NOT EXISTS ".toList = verb at hverb ⊢
  rw [List.append_assoc, List.append_assoc, append_target_append,
    splitn_append hverb, splitn_append hcatalog, splitn_append hdot, splitn_append hschema,
    splitn_append hdot, splitn_append htable]
  rfl

theorem append_schema (verb catalog schema : Text) :
    verb ++ ['.'].intercalate [backquoted catalog, backquoted schema]
      = verb ++ '`' :: (catalog ++ '`' :: (['.'] ++ '`' :: (schema ++ '`' :: []))) := by
  simp [backquoted, List.intercalate_cons_cons]

theorem readName_schemaSql {catalog schema : Text} (hcatalog : '`' ∉ catalog)
    (hschema : '`' ∉ schema) : readName (schemaSql catalog schema) = none := by
  have hverb : '`' ∉ "CREATE SCHEMA IF NOT EXISTS ".toList := by decide
  have hdot : '`' ∉ ['.'] := by decide
  unfold readName schemaSql
  generalize "CREATE SCHEMA IF NOT EXISTS ".toList = verb at hverb ⊢
  rw [append_schema, splitn_append hverb, splitn_append hcatalog,
    splitn_append hdot, splitn_append hschema]
  rfl

def lowerCase (s : Text) : Text := s.map Char.toLower

theorem lowerCase_underscore (s t : Text) :
    lowerCase (s ++ '_' :: t) = lowerCase s ++ '_' :: lowerCase t :=
  List.map_append ..

def plainLiteral (s : Text) : Option Text := if '\\' ∈ s then none else some s

theorem plainLiteral_eq {s : Text} (h : '\\' ∉ s) : plainLiteral s = some s := if_neg h

/-- The names of a catalog and where they lead. -/
abbrev Registrations := List ((Text × Text × Text) × Text)

def executeSql (c : Registrations) (text : Text) : Except Text Registrations :=
  match readName text with
  | none => .ok c
  | some (catalog, schema, table) =>
    let name := (lowerCase catalog, lowerCase schema, lowerCase table)
    if (c.lookup name).isSome then .ok c
    else
      match (locationText text).bind plainLiteral with
      | none => .error ("cannot parse ".toList ++ text)
      | some location => .ok ((name, location) :: c)

theorem executeSql_table {c c' : Registrations} {s : Statement} {location : Text}
    (hs : s.Quoted) (hlocation : (locationText s.sql).bind plainLiteral = some location)
    (h : executeSql c s.sql = .ok c') (name : Text × Text × Text) :
    c'.lookup name =
      if c.lookup name = none ∧ s.key lowerCase = name then some location else c.lookup name := by
  unfold executeSql at h
  rw [readName_sql hs, hlocation] at h
  dsimp only at h
  have hkey : (lowerCase s.catalog, lowerCase s.schema, lowerCase s.table) = s.key lowerCase := rfl
  rw [hkey] at h
  split_ifs at h with htaken
  · obtain rfl := Except.ok.inj h
    rw [if_neg]
    rintro ⟨hfree, rfl⟩
    rw [hfree] at htaken
    cases htaken
  · obtain rfl := Except.ok.inj h
    rw [List.lookup_cons]
    by_cases hname : s.key lowerCase = name
    · subst hname
      have hfree := Option.not_isSome_iff_eq_none.mp htaken
      rw [if_pos ⟨hfree, rfl⟩, beq_self_eq_true]
    · rw [if_neg fun hboth => hname hboth.2, beq_false_of_ne (Ne.symm hname)]

theorem executeSql_schema {c c' : Registrations} {catalog schema : Text} (hcatalog : '`' ∉ catalog)
    (hschema : '`' ∉ schema) (h : executeSql c (schemaSql catalog schema) = .ok c') :
    (fun name => c'.lookup name) = fun name => c.lookup name := by
  rw [executeSql, readName_schemaSql hcatalog hschema] at h
  rw [Except.ok.inj h]

/-- A catalog that compares names in lower case. -/
def Spark.plain : Spark where
  State := Registrations
  lookup := fun c name => c.lookup name
  fold := lowerCase
  fold_underscore := lowerCase_underscore
  unescape := plainLiteral
  unescape_plain := plainLiteral_eq
  sql := executeSql
  sql_table := executeSql_table
  sql_schema := executeSql_schema

/-- The report of a load of some tables. -/
def reportOf (names : List TableName) : LoadReport where
  dumpedBy := 16
  fromDatabase := none
  compression := "none"
  bytesRead := 0
  totalRows := 0
  tables := names.map fun name =>
    { table := name.qualified
      schemaDrift := {}
      rows := 0
      batches := 0
      deltaVersion := 0
      nullSubstitutions := []
      textFallbackColumns := [] }
  missingTables := []
  unexpectedTables := []
  loadId := none


theorem registration_faithful_users :
    ∃ statements, Faithful .plain .plain .plain
      (reportOf [⟨some "public", "users"⟩, ⟨none, "users"⟩]) "/data/" "main" "raw" none
      [⟨some "public", "users"⟩, ⟨none, "users"⟩] statements := by
  have haccepted : ∀ name ∈ ([⟨some "public", "users"⟩, ⟨none, "users"⟩] : List TableName),
      ∃ path, relativePath .plain name = .ok path := by
    intro name hname
    obtain rfl | hname := List.mem_cons.mp hname
    · exact ⟨"public/users", by decide +kernel⟩
    · rw [List.mem_singleton.mp hname]
      exact ⟨"users", by decide +kernel⟩
  have hsql : externalTableSql .plain (reportOf [⟨some "public", "users"⟩, ⟨none, "users"⟩])
      "/data/" "main" "raw" none = .ok
        [("CREATE TABLE IF NOT EXISTS `main`.`raw`.`public_users` USING DELTA " ++
            "LOCATION '/data/public/users'").toList,
          ("CREATE TABLE IF NOT EXISTS `main`.`raw`.`users` USING DELTA " ++
            "LOCATION '/data/users'").toList] := by
    decide +kernel
  obtain ⟨statements, -, hiff⟩ :=
    registration_faithful_iff (by decide +kernel) haccepted hsql
  refine ⟨statements, hiff.mpr (.of_apart ?_ ?_ ?_)⟩
  · exact fun _ => by decide
  · have hpaths : ∀ a ∈ ([⟨some "public", "users"⟩, ⟨none, "users"⟩] : List TableName),
        '\\' ∉ tablePath "/data/".toList a := by
      decide +kernel
    exact fun a ha => Spark.plain.unescape_plain (hpaths a (List.mem_of_mem_filter ha))
  · have hnames : ∀ a ∈ ([⟨some "public", "users"⟩, ⟨none, "users"⟩] : List TableName),
        ∀ b ∈ ([⟨some "public", "users"⟩, ⟨none, "users"⟩] : List TableName),
          lowerCase (flatName a) = lowerCase (flatName b) → a = b := by
      decide +kernel
    exact fun a ha b hb => hnames a (List.mem_of_mem_filter ha) b (List.mem_of_mem_filter hb)

/-- Two tables that differ and are called the same. The name of the second leads
to the first. -/
theorem registration_counterexample :
    relativePath .plain ⟨some "a_b", "c"⟩ = .ok "a_b/c"
      ∧ relativePath .plain ⟨some "a", "b_c"⟩ = .ok "a/b_c"
      ∧ (registerExternalTables .plain .plain ([] : Registrations)
          (reportOf [⟨some "a_b", "c"⟩, ⟨some "a", "b_c"⟩]) "/data" "main" "raw" none).1 = .ok
            [("CREATE TABLE IF NOT EXISTS `main`.`raw`.`a_b_c` USING DELTA " ++
                "LOCATION '/data/a_b/c'").toList,
              ("CREATE TABLE IF NOT EXISTS `main`.`raw`.`a_b_c` USING DELTA " ++
                "LOCATION '/data/a/b_c'").toList]
      ∧ Spark.plain.lookup (registerExternalTables .plain .plain ([] : Registrations)
          (reportOf [⟨some "a_b", "c"⟩, ⟨some "a", "b_c"⟩]) "/data" "main" "raw" none).2
            ("main".toList, "raw".toList, "a_b_c".toList) = some "/data/a_b/c".toList := by
  decide +kernel

end PgDelta.Catalog
