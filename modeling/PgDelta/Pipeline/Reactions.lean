import PgDelta.Pipeline.Reader

/-!
What the reader can make of one event of the scanner.
-/

namespace PgDelta.Pipeline.Reader

open PgDelta.Lib PgDelta.Builders PgDelta.Types PgDelta.Scan PgDelta.Sink

variable {P : Platform} {n : ℕ} [NeZero n]

/-- Every answer to an event that is not an error, with the condition under
which it is given and the store behind it. -/
inductive Reacts (cfg : LoadConfig) (σ : Store P) (r : Reader P) (o : Outside) :
    Event → Reaction P n → Store P → Prop
  | version (dumpedBy : ℕ) (fromDatabase : Option ℕ) :
      Reacts cfg σ r o (.dumpVersion dumpedBy fromDatabase)
        { reader := { r with dumpedBy := some dumpedBy, fromDatabase := fromDatabase } } σ
  | table (definition : TableDef) :
      Reacts cfg σ r o (.table definition) (r.onTable cfg σ definition o) σ
  /-- A block begins whose table is not wanted. -/
  | skips (table : TableName) (columns : List String) (hcurrent : r.current = none)
      (hwanted : cfg.wanted table = false) :
      Reacts cfg σ r o (.copyStart table columns)
        { reader := { r with
            seenTables := r.seenTables.insert table.qualified, skipping := true } } σ
  | opens (table : TableName) (names : List String) (hcurrent : r.current = none)
      (hwanted : cfg.wanted table = true)
      (hreserved : (cfg.writeManifest && Manifest.reservedCollision table) = false)
      (definition : TableDef) (hdefinition : r.tableDefs table.qualified = some definition)
      (columns : List (String × ResolvedType))
      (hcolumns : resolveCopyColumns definition names = .ok columns)
      (preloaded : PreloadedTable P) (hpreloaded : r.takePreload cfg σ table o = .ok preloaded)
      (opened : OpenedTable P) (σ' : Store P)
      (hopened : finishOpen P preloaded table
        (arrowSchema columns cfg.wideNumericAsDecimal cfg.nativeArrays) cfg.mode σ o.openTable =
          (.ok opened, σ')) :
      Reacts cfg σ r o (.copyStart table names)
        (openBlock cfg { r with seenTables := r.seenTables.insert table.qualified } table columns
          opened) σ'
  | skipRows (payload : Bytes) (hskipping : r.skipping = true) :
      Reacts cfg σ r o (.copyRows payload) { reader := r } σ
  | rows (payload : Bytes) (hskipping : r.skipping = false) (block : OpenBlock)
      (hcurrent : r.current = some block) :
      Reacts cfg σ r o (.copyRows payload)
        { reader := { r with roundRobin := r.roundRobin + 1 }
          sends := [(Fin.ofNat n r.roundRobin, .rows block.generation payload)] } σ
  | skipEnd (table : TableName) (hskipping : r.skipping = true) :
      Reacts cfg σ r o (.copyEnd table) { reader := { r with skipping := false } } σ
  | ends (table : TableName) (hskipping : r.skipping = false) (block : OpenBlock)
      (hcurrent : r.current = some block) (htable : block.table = table) :
      Reacts cfg σ r o (.copyEnd table)
        { reader := { r with current := none }
          sends := toAll (.close block.generation)
          after := .collect block } σ

theorem openWanted_reacts {cfg : LoadConfig} {σ σ' : Store P} {r : Reader P} {o : Outside}
    {table : TableName} {names : List String} {reaction : Reaction P n}
    (hcurrent : r.current = none) (hwanted : cfg.wanted table = true)
    (hreserved : (cfg.writeManifest && Manifest.reservedCollision table) = false)
    (h : openWanted cfg σ { r with seenTables := r.seenTables.insert table.qualified } table names
      o = (.ok reaction, σ')) :
    Reacts cfg σ r o (.copyStart table names) reaction σ' := by
  unfold openWanted at h
  cases hdefinition : r.tableDefs table.qualified with
  | none => simp [hdefinition] at h
  | some definition =>
    simp only [hdefinition] at h
    cases hcolumns : resolveCopyColumns definition names with
    | error e => simp [hcolumns] at h
    | ok columns =>
      simp only [hcolumns] at h
      split at h
      next => simp at h
      next preloaded hpreloaded =>
        split at h
        next => simp at h
        next opened σ'' hopened =>
          simp only [Prod.mk.injEq, Except.ok.injEq] at h
          obtain ⟨rfl, rfl⟩ := h
          exact .opens table names hcurrent hwanted hreserved definition hdefinition columns
            hcolumns preloaded hpreloaded opened σ'' hopened

theorem onEvent_reacts {cfg : LoadConfig} {σ σ' : Store P} {r : Reader P} {event : Event}
    {o : Outside} {reaction : Reaction P n}
    (h : r.onEvent cfg σ event o = (.ok reaction, σ')) :
    Reacts cfg σ r o event reaction σ' := by
  cases event with
  | dumpVersion dumpedBy fromDatabase =>
    simp only [onEvent, onDumpVersion, Prod.mk.injEq] at h
    obtain ⟨h, rfl⟩ := h
    split at h
    next => simp at h
    next =>
      obtain rfl := Except.ok.inj h
      exact .version dumpedBy fromDatabase
  | table definition =>
    simp only [onEvent, Prod.mk.injEq, Except.ok.injEq] at h
    obtain ⟨rfl, rfl⟩ := h
    exact .table definition
  | copyStart table names =>
    simp only [onEvent, onCopyStart] at h
    split at h
    next => simp at h
    next hcurrent =>
      have hcurrent : r.current = none := by simpa using hcurrent
      split at h
      next => simp at h
      next hreserved =>
        split at h
        next hwanted =>
          exact openWanted_reacts hcurrent hwanted (Bool.eq_false_of_not_eq_true hreserved) h
        next hwanted =>
          simp only [Prod.mk.injEq, Except.ok.injEq] at h
          obtain ⟨rfl, rfl⟩ := h
          exact .skips table names hcurrent (Bool.eq_false_of_not_eq_true hwanted)
  | copyRows payload =>
    simp only [onEvent, onCopyRows, Prod.mk.injEq] at h
    obtain ⟨h, rfl⟩ := h
    split at h
    next hskipping =>
      obtain rfl := Except.ok.inj h
      exact .skipRows payload hskipping
    next hskipping =>
      split at h
      next => simp at h
      next block hcurrent =>
        obtain rfl := Except.ok.inj h
        exact .rows payload (Bool.eq_false_of_not_eq_true hskipping) block hcurrent
  | copyEnd table =>
    simp only [onEvent, onCopyEnd, Prod.mk.injEq] at h
    obtain ⟨h, rfl⟩ := h
    split at h
    next hskipping =>
      obtain rfl := Except.ok.inj h
      exact .skipEnd table hskipping
    next hskipping =>
      split at h
      next => simp at h
      next block hcurrent =>
        split at h
        next => simp at h
        next htable =>
          obtain rfl := Except.ok.inj h
          exact .ends table (Bool.eq_false_of_not_eq_true hskipping) block hcurrent
            (not_not.mp htable)

end PgDelta.Pipeline.Reader
