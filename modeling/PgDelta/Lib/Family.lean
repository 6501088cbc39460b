import Mathlib.Algebra.BigOperators.Fin
import Mathlib.Data.List.FinRange
import Mathlib.Data.List.Perm.Basic
import Mathlib.Data.List.Perm.Subperm
import Mathlib.Logic.Function.Basic

/-!
Finite families: what the members of a family hold together, and the roster of
the members with a property, with what becomes of both when one member changes.
-/

namespace PgDelta.Lib

variable {α : Type*} {n : ℕ}

/-- Everything that the members hold. -/
def gather (f : Fin n → List α) : List α := (List.finRange n).flatMap f

/-- The members with a property, in order. -/
def roster (p : Fin n → Bool) : List (Fin n) := (List.finRange n).filter p

theorem mem_roster {p : Fin n → Bool} {i : Fin n} : i ∈ roster p ↔ p i = true := by
  simp [roster]

theorem length_roster_le (p : Fin n → Bool) : (roster p).length ≤ n := by
  simpa [roster] using (List.finRange n).length_filter_le p

@[simp] theorem gather_nil : gather (fun _ : Fin n => ([] : List α)) = [] := by
  simp [gather]

theorem all_of_length_roster {p : Fin n → Bool} (h : n ≤ (roster p).length) (i : Fin n) :
    p i = true := by
  have hall : (List.finRange n).filter p = List.finRange n :=
    (List.filter_sublist ..).eq_of_length_le (by simpa [roster] using h)
  exact (List.filter_eq_self.mp hall) i (List.mem_finRange i)

/-- A property that some members have, as a family of lists. -/
theorem gather_ite {p : Fin n → Bool} (f : Fin n → α) :
    (gather fun i => if p i then [f i] else []) = (roster p).map f := by
  unfold gather roster
  induction List.finRange n with
  | nil => rfl
  | cons i is ih => cases h : p i <;> simp [h, ih]

/-- What one member gets more, the family has more. -/
theorem gather_perm_append {f g : Fin n → List α} (i : Fin n) {xs : List α}
    (hi : (g i).Perm (f i ++ xs)) (h : ∀ j, j ≠ i → g j = f j) :
    (gather g).Perm (gather f ++ xs) := by
  obtain ⟨as, bs, hsplit⟩ := List.append_of_mem (List.mem_finRange i)
  have hnodup := List.nodup_finRange n
  rw [hsplit, List.nodup_middle, List.nodup_cons, List.mem_append, not_or] at hnodup
  obtain ⟨⟨has, hbs⟩, -⟩ := hnodup
  have hother : ∀ js : List (Fin n), i ∉ js → js.flatMap g = js.flatMap f := by
    intro js hjs
    apply List.flatMap_congr
    intro j hj
    apply h
    rintro rfl
    exact hjs hj
  unfold gather
  rw [hsplit]
  simp only [List.flatMap_append, List.flatMap_cons, hother as has, hother bs hbs,
    List.append_assoc]
  apply List.Perm.append_left
  calc
    (g i ++ bs.flatMap f).Perm ((f i ++ xs) ++ bs.flatMap f) := hi.append_right _
    _ = f i ++ (xs ++ bs.flatMap f) := List.append_assoc ..
    (f i ++ (xs ++ bs.flatMap f)).Perm (f i ++ (bs.flatMap f ++ xs)) :=
      List.Perm.append_left _ List.perm_append_comm

theorem length_gather_eq_sum (f : Fin n → List α) :
    (gather f).length = ∑ i, (f i).length := by
  rw [gather, List.length_flatMap, ← List.ofFn_eq_map, List.sum_ofFn]

/-- What is computed of everything held can be computed member by member. -/
theorem gather_map {β : Type*} (g : α → β) (f : Fin n → List α) :
    (gather f).map g = gather fun i => (f i).map g := by
  simp [gather, List.map_flatMap]

theorem sum_update (f : α → ℕ) (w : Fin n → α) (i : Fin n) (x : α) :
    (∑ j, f (Function.update w i x j)) + f (w i) = (∑ j, f (w j)) + f x := by
  have hother : ∀ j ∈ Finset.univ.erase i, f (Function.update w i x j) = f (w j) := by
    intro j hj
    rw [Function.update_of_ne (Finset.ne_of_mem_erase hj)]
  rw [← Finset.add_sum_erase _ _ (Finset.mem_univ i),
    ← Finset.add_sum_erase _ (fun j => f (w j)) (Finset.mem_univ i), Finset.sum_congr rfl hother,
    Function.update_self]
  omega
end PgDelta.Lib
