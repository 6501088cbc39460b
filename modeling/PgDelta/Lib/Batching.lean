import Mathlib.Data.List.Basic

/-!
Elements collected into groups.

An element joins the group that is being filled, and a group that has become
full is handed out. `batches full pending xs` are the groups handed out while
`xs` are added behind `pending`, and the group that is left.
-/

namespace PgDelta.Lib

variable {α : Type*}

def batches (full : List α → Bool) : List α → List α → List (List α) × List α
  | pending, [] => ([], pending)
  | pending, x :: xs =>
    if full (pending ++ [x]) then
      ((pending ++ [x]) :: (batches full [] xs).1, (batches full [] xs).2)
    else batches full (pending ++ [x]) xs

/-- The group that is left, unless it is empty. -/
def lastGroup (pending : List α) : List (List α) := if pending = [] then [] else [pending]

variable {full : List α → Bool}

@[simp] theorem batches_nil (pending : List α) : batches full pending [] = ([], pending) := rfl

theorem batches_cons_of_full {pending : List α} {x : α} (h : full (pending ++ [x]) = true)
    (xs : List α) :
    batches full pending (x :: xs)
      = ((pending ++ [x]) :: (batches full [] xs).1, (batches full [] xs).2) := if_pos h

theorem batches_cons_of_not_full {pending : List α} {x : α} (h : full (pending ++ [x]) = false)
    (xs : List α) : batches full pending (x :: xs) = batches full (pending ++ [x]) xs :=
  if_neg (by simp [h])

/-- Adding elements in two goes. -/
theorem batches_append (pending xs ys : List α) :
    batches full pending (xs ++ ys)
      = ((batches full pending xs).1 ++ (batches full (batches full pending xs).2 ys).1,
        (batches full (batches full pending xs).2 ys).2) := by
  induction xs generalizing pending with
  | nil => rfl
  | cons x xs ih =>
      cases h : full (pending ++ [x]) with
      | false =>
          rw [List.cons_append, batches_cons_of_not_full h, batches_cons_of_not_full h]
          exact ih _
      | true =>
          rw [List.cons_append, batches_cons_of_full h, batches_cons_of_full h, ih]
          rfl

@[simp] theorem flatten_lastGroup (pending : List α) : (lastGroup pending).flatten = pending := by
  unfold lastGroup
  split_ifs with h
  · exact h.symm
  · simp

/-- Every element is in exactly one group, in order. -/
theorem batches_flatten (pending xs : List α) :
    (batches full pending xs).1.flatten ++ (batches full pending xs).2 = pending ++ xs := by
  induction xs generalizing pending with
  | nil => simp
  | cons x xs ih =>
      cases h : full (pending ++ [x]) with
      | false => rw [batches_cons_of_not_full h, ih, List.append_assoc, List.singleton_append]
      | true =>
          rw [batches_cons_of_full h, List.flatten_cons, List.append_assoc, ih]
          simp

/-- A group that became full with its last element at the earliest. -/
structure IsGroup (full : List α → Bool) (group : List α) : Prop where
  ne_nil : group ≠ []
  before : group.dropLast = [] ∨ full group.dropLast = false

theorem IsGroup.snoc {pending : List α} (h : pending = [] ∨ full pending = false) (x : α) :
    IsGroup full (pending ++ [x]) := ⟨by simp, by simpa using h⟩

theorem batches_isGroup {pending xs : List α} (h : pending = [] ∨ full pending = false) :
    (∀ g ∈ (batches full pending xs).1, IsGroup full g) ∧
      ((batches full pending xs).2 = [] ∨ full (batches full pending xs).2 = false) := by
  induction xs generalizing pending with
  | nil => exact ⟨by simp, h⟩
  | cons x xs ih =>
      cases hfull : full (pending ++ [x]) with
      | false =>
          rw [batches_cons_of_not_full hfull]
          exact ih (Or.inr hfull)
      | true =>
          obtain ⟨hgroups, hleft⟩ := @ih [] (Or.inl rfl)
          rw [batches_cons_of_full hfull]
          exact ⟨List.forall_mem_cons.mpr ⟨.snoc h x, hgroups⟩, hleft⟩

end PgDelta.Lib
