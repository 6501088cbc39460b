import PgDelta.Manifest.History
import PgDelta.Sink.Locations

/-!
The location of the load history against those of the tables.

A table whose name has a schema lies in a directory of the schema's name, next
to the history under the same prefix. The check on reserved names compares the
one name that has no schema, so the schema with the history's name is left: its
tables lie inside the history.
-/

namespace PgDelta.Manifest

open PgDelta.Lib PgDelta.Scan PgDelta.Sink

variable {P : Platform}

/-- A location that is a directory or lies inside it. -/
def Within (location directory : String) : Prop :=
  location = directory ∨ directory.toList ++ ['/'] <+: location.toList

/-- The location of a table and that of the history do not mix: neither the
files of the history nor its log is around the table. -/
def Apart (location history : String) : Prop :=
  ¬Within location history ∧ ¬Within location (history ++ "/_delta_log")

theorem Within.of_log {location history : String}
    (h : Within location (history ++ "/_delta_log")) : Within location history := by
  refine Or.inr ?_
  have hlog : history.toList ++ ['/'] <+: (history ++ "/_delta_log").toList :=
    ⟨"_delta_log".toList, by simp⟩
  obtain rfl | hinside := h
  · exact hlog
  · exact (hlog.trans (List.prefix_append _ _)).trans hinside

theorem apart_iff {location history : String} :
    Apart location history ↔ ¬Within location history :=
  ⟨And.left, fun h => ⟨h, fun hlog => h hlog.of_log⟩⟩

theorem tableUri_eq {pre : String} {name : TableName} {uri : String}
    (h : tableUri P pre name = .ok uri) :
    uri.toList = pre.toList.rdropWhile (· = '/') ++ '/' :: ['/'].intercalate (nameParts name) ∧
      ∀ part ∈ nameParts name, PlainComponent part := by
  unfold tableUri at h
  cases hpath : relativePath P name with
  | error e => simp [hpath] at h
  | ok rel =>
      simp only [hpath] at h
      obtain ⟨hrel, hparts⟩ := relativePath_spec hpath
      refine ⟨?_, hparts⟩
      rw [← Except.ok.inj h]
      simp [hrel]

/-- Locations under one prefix are within another as their paths are. -/
theorem within_iff {pre : String} {name other : TableName} {uri otherUri : String}
    (h : tableUri P pre name = .ok uri) (hother : tableUri P pre other = .ok otherUri) :
    Within uri otherUri ↔ nameParts other <+: nameParts name := by
  obtain ⟨huri, hparts⟩ := tableUri_eq h
  obtain ⟨hotherUri, hotherParts⟩ := tableUri_eq hother
  have hfree : ∀ part, PlainComponent part → '/' ∉ part :=
    fun part hpart hmem => (hpart.chars _ hmem).1 rfl
  rw [← intercalate_prefix_iff (fun part hpart => hfree part (hparts part hpart))
    (fun part hpart => hfree part (hotherParts part hpart)) (nameParts_ne_nil name)
    (nameParts_ne_nil other), Within, ← String.toList_inj, huri, hotherUri]
  apply or_congr
  · rw [List.append_cancel_left_eq, List.cons.injEq, and_iff_right rfl]
  · rw [List.append_assoc, List.prefix_append_right_inj, List.cons_append, List.prefix_cons_inj]

/-! ### The history and the tables -/

theorem manifestParts_prefix_iff {name : TableName} (hreserved : reservedCollision name = false) :
    nameParts manifestTable <+: nameParts name ↔ name.schema = some manifestName := by
  obtain ⟨schema, table⟩ := name
  cases schema with
  | none =>
      have hne : manifestName ≠ table := by
        rintro rfl
        simp [reservedCollision] at hreserved
      simpa [nameParts, manifestTable, String.toList_inj] using hne
  | some schema =>
      simp [nameParts, manifestTable, String.toList_inj, eq_comm]

/-- A table whose name passes both checks lies apart from the history exactly
when it is in another schema than the one of the history's name. -/
theorem table_apart_iff {pre : String} {name : TableName} {uri history : String}
    (huri : tableUri P pre name = .ok uri) (hhistory : tableUri P pre manifestTable = .ok history)
    (hreserved : reservedCollision name = false) :
    Apart uri history ↔ name.schema ≠ some manifestName := by
  rw [apart_iff, within_iff huri hhistory, manifestParts_prefix_iff hreserved]

theorem table_apart_public :
    Apart "/out/public/_pgdelta_loads" "/out/_pgdelta_loads"
      ↔ (⟨some "public", "_pgdelta_loads"⟩ : TableName).schema ≠ some manifestName :=
  @table_apart_iff .plain "/out/" ⟨some "public", "_pgdelta_loads"⟩ "/out/public/_pgdelta_loads"
    "/out/_pgdelta_loads" (by decide +kernel) (by decide +kernel) (by decide +kernel)

/-- The tables of a schema with the history's name lie inside the history, and
one of them in the place of its log. -/
theorem table_apart_counterexample :
    tableUri .plain "/out" ⟨some "_pgdelta_loads", "users"⟩ = .ok "/out/_pgdelta_loads/users" ∧
      tableUri .plain "/out" ⟨some "_pgdelta_loads", "_delta_log"⟩
        = .ok "/out/_pgdelta_loads/_delta_log" ∧
      tableUri .plain "/out" manifestTable = .ok "/out/_pgdelta_loads" ∧
      reservedCollision ⟨some "_pgdelta_loads", "users"⟩ = false ∧
      reservedCollision ⟨some "_pgdelta_loads", "_delta_log"⟩ = false ∧
      Within "/out/_pgdelta_loads/users" "/out/_pgdelta_loads" ∧
      Within "/out/_pgdelta_loads/_delta_log" ("/out/_pgdelta_loads" ++ "/_delta_log") := by
  refine ⟨by decide +kernel, by decide +kernel, by decide +kernel, by decide +kernel,
    by decide +kernel, Or.inr ?_, Or.inl rfl⟩
  exact ⟨"users".toList, by decide +kernel⟩

end PgDelta.Manifest
