import PgDelta.Copy.Decode
import PgDelta.Types.Builders

/-!
What a row can be refused for.

No decoder and no builder makes an I/O error: each of their errors is about the
bytes of the row. The one exception is a panic, which the worker reports as an
I/O error with a text of its own.
-/

namespace PgDelta

open Lib

/-- An error of the operating system or of the pool, and not of the dump. -/
def Error.isIo : Error → Bool
  | .io _ => true
  | _ => false

/-- A computation that makes no I/O error. -/
def Plain {α : Type} (x : Except Error α) : Prop := ∀ e, x = .error e → e.isIo = false

theorem plain_ok {α : Type} (a : α) : Plain (.ok a : Except Error α) := by
  intro e h
  cases h

theorem plain_error {α : Type} {e : Error} (h : e.isIo = false) :
    Plain (.error e : Except Error α) := by
  intro e' h'
  cases h'
  exact h

/-- An error is handed on. -/
theorem Plain.error {α β : Type} {x : Except Error α} (h : Plain x) {e : Error}
    (hx : x = .error e) : Plain (.error e : Except Error β) :=
  plain_error (h e hx)

theorem Plain.map {α β : Type} {x : Except Error α} (h : Plain x) (f : α → β) :
    Plain (x.map f) := by
  cases x with
  | ok a => exact plain_ok _
  | error e => exact h.error rfl

/-! ### Parsers -/

namespace Values

theorem trimmed_plain (v : Bytes) (column expected : String) :
    Plain (trimmed v column expected) := by
  unfold trimmed
  split
  · exact plain_ok _
  · exact plain_error rfl

theorem parseBounded_plain (lo hi : ℤ) (expected : String) (v : Bytes) (column : String) :
    Plain (parseBounded lo hi expected v column) := by
  unfold parseBounded
  split
  · exact (trimmed_plain _ _ _).error ‹_›
  · split
    · exact plain_ok _
    · exact plain_error rfl

theorem parseFloating_plain {α : Type} (round : FloatLiteral → α) (expected : String) (v : Bytes)
    (column : String) : Plain (parseFloating round expected v column) := by
  unfold parseFloating
  split
  · exact (trimmed_plain _ _ _).error ‹_›
  · split
    · exact plain_ok _
    · exact plain_error rfl

theorem parseBool_plain (v : Bytes) (column : String) : Plain (parseBool v column) := by
  unfold parseBool
  split
  · exact plain_ok _
  · split
    · exact plain_ok _
    · exact plain_error rfl

theorem parseDecimal_plain (v : Bytes) (precision : ℕ) (scale : ℤ) (column : String) :
    Plain (parseDecimal v precision scale column) := by
  unfold parseDecimal
  cases htrimmed : trimmed v column "numeric" with
  | error e => exact (trimmed_plain _ _ _).error htrimmed
  | ok s =>
    dsimp only
    repeat' split
    all_goals first
      | exact plain_ok _
      | exact plain_error rfl

theorem parseDate_plain (v : Bytes) (column : String) : Plain (parseDate v column) := by
  unfold parseDate
  cases htrimmed : trimmed v column "date" with
  | error e => exact (trimmed_plain _ _ _).error htrimmed
  | ok s =>
    dsimp only
    repeat' split
    all_goals first
      | exact plain_ok _
      | exact plain_error rfl

theorem parseTime_plain (v : Bytes) (column : String) : Plain (parseTime v column) := by
  unfold parseTime
  cases htrimmed : trimmed v column "time" with
  | error e => exact (trimmed_plain _ _ _).error htrimmed
  | ok s =>
    dsimp only
    split
    · exact plain_error rfl
    · exact plain_ok _

theorem parseTimestamp_plain (v : Bytes) (tz : Bool) (column : String) :
    Plain (parseTimestamp v tz column) := by
  intro e h
  unfold parseTimestamp at h
  -- The arithmetic is kept closed, whose evaluation is slow.
  generalize checkedI64 = check, daysFromCivil = days, microsPerDay = day at h
  revert check days day
  refine id ?_
  intro check days day h
  split at h
  next e' htrimmed =>
    obtain rfl := Except.error.inj h
    exact trimmed_plain _ _ _ _ htrimmed
  · split at h
    · cases h
    · split at h
      split at h
      split at h
      split at h
      · cases h
        rfl
      · split at h
        · cases h
          rfl
        · simp only at h
          split at h
          · cases h
          · cases h
            rfl

theorem parseBytea_plain (v : Bytes) (column : String) (out : Bytes) :
    Plain (parseBytea v column out) := by
  unfold parseBytea
  dsimp only
  split
  · exact plain_ok _
  · exact plain_error rfl

theorem parseArrayElements_plain (v : Bytes) (column : String) :
    Plain (parseArrayElements v column) := by
  unfold parseArrayElements
  split
  · exact plain_error rfl
  · dsimp only
    split
    · exact plain_ok _
    · split
      · exact plain_ok _
      · exact plain_error rfl

end Values

/-! ### Fields -/

namespace Copy

theorem unescapeOne_plain (b : Bytes) : Plain (unescapeOne b) := by
  unfold unescapeOne
  repeat' split
  all_goals first
    | exact plain_ok _
    | exact plain_error rfl

theorem unescapeLoop_plain (fuel : ℕ) (b out : Bytes) : Plain (unescapeLoop fuel b out) := by
  induction fuel generalizing b out with
  | zero => exact plain_ok _
  | succ fuel ih =>
    unfold unescapeLoop
    split
    · exact plain_ok _
    · split
      · exact (unescapeOne_plain _).error ‹_›
      · exact ih _ _

theorem unescapeInto_plain (f : Field) (out : Bytes) : Plain (f.unescapeInto out) := by
  cases f with
  | escaped b => exact unescapeLoop_plain _ _ _
  | _ => exact plain_ok _

theorem next_error {it it' : Fields} {e : Error} (h : it.next = (some (.error e), it')) :
    e.isIo = false := by
  unfold Fields.next at h
  split at h
  next e' it₁ hcheck =>
    obtain ⟨rfl, -⟩ : e' = e ∧ it₁ = it' := by simpa using h
    unfold Fields.checkRow at hcheck
    split at hcheck
    · cases hcheck
    · split at hcheck
      · cases hcheck
        rfl
      · cases hcheck
  next it₁ hcheck =>
    split at h
    · cases h
    · dsimp only at h
      split at h
      · cases h
        rfl
      · split at h
        · cases h
          rfl
        · cases h

theorem decodeFields_plain (fuel : ℕ) (it : Fields) (scratch : Bytes)
    (out : List (Option Range)) : Plain (decodeFields fuel it scratch out) := by
  induction fuel generalizing it scratch out with
  | zero => exact plain_ok _
  | succ fuel ih =>
    unfold decodeFields
    split
    · exact plain_ok _
    · exact plain_error (next_error ‹_›)
    · split
      · exact ih _ _ _
      · split
        · exact (unescapeInto_plain _ _).error ‹_›
        · exact ih _ _ _

theorem decodeRow_plain (row : Bytes) (expected : ℕ) (limits : Limits) :
    Plain (decodeRow row expected limits) := by
  unfold decodeRow
  split
  · exact (decodeFields_plain _ _ _ _).error ‹_›
  · split
    · exact plain_ok _
    · exact plain_error rfl

end Copy

/-! ### Builders -/

namespace Builders

open Values

theorem Kind.parse_plain (k : Kind) (v : Bytes) (column : String) : Plain (k.parse v column) := by
  cases k with
  | int16 => exact (parseBounded_plain _ _ _ _ _).map _
  | int32 => exact (parseBounded_plain _ _ _ _ _).map _
  | int64 => exact (parseBounded_plain _ _ _ _ _).map _
  | float32 => exact (parseFloating_plain _ _ _ _).map _
  | float64 => exact (parseFloating_plain _ _ _ _).map _
  | decimal precision scale => exact (parseDecimal_plain _ _ _ _).map _
  | boolean => exact (parseBool_plain _ _).map _
  | date => exact (parseDate_plain _ _).map _
  | timestamp tz => exact (parseTimestamp_plain _ _ _).map _
  | time => exact (parseTime_plain _ _).map _
  | binary => exact (parseBytea_plain _ _ _).map _
  | utf8 =>
    simp only [Kind.parse]
    split
    · exact plain_ok _
    · exact plain_error rfl

theorem ScalarBuilder.append_plain (b : ScalarBuilder) (value : Option Bytes) (column : String) :
    Plain (b.append value column) := by
  unfold ScalarBuilder.append
  split
  · exact plain_ok _
  · split
    · exact (Kind.parse_plain _ _ _).error ‹_›
    · exact plain_ok _

theorem ScalarBuilder.appendAll_plain (column : String) (b : ScalarBuilder)
    (values : List (Option Bytes)) (substituted : Bool) :
    Plain (b.appendAll column values substituted) := by
  induction values generalizing b substituted with
  | nil => exact plain_ok _
  | cons value values ih =>
    unfold ScalarBuilder.appendAll
    split
    · exact (ScalarBuilder.append_plain _ _ _).error ‹_›
    · exact ih _ _

theorem ColumnBuilder.append_plain (b : ColumnBuilder) (value : Option Bytes) (column : String) :
    Plain (b.append value column) := by
  unfold ColumnBuilder.append
  split
  · split
    · exact (ScalarBuilder.append_plain _ _ _).error ‹_›
    · exact plain_ok _
  · dsimp only
    split
    · exact plain_ok _
    · split
      · exact (parseArrayElements_plain _ _).error ‹_›
      · split
        · exact (ScalarBuilder.appendAll_plain _ _ _ _).error ‹_›
        · split
          · exact plain_error rfl
          · exact plain_ok _

namespace BatchBuilder

theorem appendCells_plain (columns : List ColumnBuilder) (names : List String) (counts : List ℕ)
    (values : List (Option Bytes)) : Plain (appendCells columns names counts values) := by
  fun_induction appendCells columns names counts values with
  | case1 c columns name names count counts value values e h =>
    exact (ColumnBuilder.append_plain _ _ _).error h
  | case2 c columns name names count counts value values c' substituted h e h' ih =>
    exact ih.error h'
  | _ => exact plain_ok _

theorem appendRowRanges_plain (b : BatchBuilder) (scratch : Bytes)
    (ranges : List (Option Copy.Range)) : Plain (b.appendRowRanges scratch ranges) := by
  unfold appendRowRanges appendSized
  split
  · exact plain_error rfl
  · split
    · exact (appendCells_plain _ _ _ _).error ‹_›
    · exact plain_ok _

end BatchBuilder

theorem RecordBatch.tryNew_plain (schema : Schema) (columns : List ArrayRef) :
    Plain (RecordBatch.tryNew schema columns) := by
  unfold RecordBatch.tryNew
  repeat' split
  all_goals first
    | exact plain_ok _
    | exact plain_error rfl

/-- A builder that cannot be finished has panicked, or its parts make no
batch. -/
theorem BatchBuilder.finish_error {b : BatchBuilder} {e : Error} (h : b.finish = .error e) :
    e.isIo = false ∨ e = ColumnBuilder.panicked := by
  have hcolumn : ∀ {c : ColumnBuilder} {e : Error}, c.finish = .error e →
      e = ColumnBuilder.panicked := by
    intro c e h
    unfold ColumnBuilder.finish at h
    split at h
    · cases h
    · split at h
      · cases h
      · exact (Except.error.inj h).symm
  have hcolumns : ∀ {cs : List ColumnBuilder} {e : Error}, finishColumns cs = .error e →
      e = ColumnBuilder.panicked := by
    intro cs e h
    induction cs with
    | nil => cases h
    | cons c cs ih =>
      unfold finishColumns at h
      split at h
      · rw [← Except.error.inj h]
        exact hcolumn ‹_›
      · split at h
        · rename_i h'
          rw [← Except.error.inj h] at ih ⊢
          exact ih h'
        · cases h
  unfold finish at h
  split at h
  · cases h
  · split at h
    · rw [← Except.error.inj h]
      exact .inr (hcolumns ‹_›)
    · split at h
      · rw [← Except.error.inj h]
        exact .inl (RecordBatch.tryNew_plain _ _ _ ‹_›)
      · cases h

end Builders

end PgDelta
