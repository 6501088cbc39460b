import Mathlib.Algebra.BigOperators.Group.Finset.Piecewise
import Mathlib.Data.List.Perm.Basic
import Mathlib.Logic.Function.Basic

/-!
Families of histories, and logs that are replayed on them.

Under each key stands the list of the versions that something has had. An entry
of a log makes a new version of the latest one under its key, and does nothing
where there is none. What a log does to one key depends on the entries under
that key alone.
-/

namespace PgDelta.Lib

variable {ι α β : Type*} [DecidableEq ι] (apply : β → α → β)

/-- The versions that come behind one when edits are made to it in turn. -/
def chain : β → List α → List β
  | _, [] => []
  | v, a :: as => apply v a :: chain (apply v a) as

/-- Put a new version on top of the latest one under a key. -/
def bump (σ : ι → List β) (entry : ι × α) : ι → List β :=
  match (σ entry.1).getLast? with
  | none => σ
  | some v => Function.update σ entry.1 (σ entry.1 ++ [apply v entry.2])

def replay (σ : ι → List β) (log : List (ι × α)) : ι → List β := log.foldl (bump apply) σ

/-- The edits of a log under one key. -/
def editsOf (log : List (ι × α)) (key : ι) : List α := (log.filter fun e => e.1 = key).map Prod.snd

variable {apply}

/-! ### Chains -/

@[simp] theorem chain_nil (v : β) : chain apply v [] = [] := rfl

@[simp] theorem chain_cons (v : β) (a : α) (as : List α) :
    chain apply v (a :: as) = apply v a :: chain apply (apply v a) as := rfl

@[simp] theorem length_chain (v : β) (as : List α) : (chain apply v as).length = as.length := by
  induction as generalizing v with
  | nil => rfl
  | cons a as ih => simp [ih]

/-- The latest version behind some edits. -/
theorem getLast?_append_chain (vs : List β) (v : β) (as : List α) (h : vs.getLast? = some v) :
    (vs ++ chain apply v as).getLast? = some (as.foldl apply v) := by
  induction as generalizing vs v with
  | nil => simpa using h
  | cons a as ih =>
    have hstep := ih (vs ++ [apply v a]) (apply v a) (by simp)
    simpa using hstep

/-- What every edit makes of the first version, and of the versions it makes,
holds of all versions behind the first one. -/
theorem forall_mem_chain {good : β → Prop} {v : β} {as : List α}
    (h : ∀ w, w = v ∨ good w → ∀ a ∈ as, good (apply w a)) : ∀ w ∈ chain apply v as, good w := by
  have hchain : ∀ (as : List α) w, w = v ∨ good w →
      (∀ w, w = v ∨ good w → ∀ a ∈ as, good (apply w a)) → ∀ u ∈ chain apply w as, good u := by
    intro as
    induction as with
    | nil => simp
    | cons a as ih =>
      intro w hw h u hu
      have hnext := h w hw a List.mem_cons_self
      rcases List.mem_cons.mp hu with rfl | hu
      · exact hnext
      · exact ih _ (.inr hnext) (fun w hw b hb => h w hw b (List.mem_cons_of_mem _ hb)) u hu
  exact hchain as v (.inl rfl) h

/-! ### Replaying -/

@[simp] theorem replay_nil (σ : ι → List β) : replay apply σ [] = σ := rfl

theorem replay_cons (σ : ι → List β) (e : ι × α) (log : List (ι × α)) :
    replay apply σ (e :: log) = replay apply (bump apply σ e) log := rfl

theorem replay_concat (σ : ι → List β) (log : List (ι × α)) (e : ι × α) :
    replay apply σ (log ++ [e]) = bump apply (replay apply σ log) e := by
  simp [replay]

theorem bump_of_some {σ : ι → List β} {e : ι × α} {v : β} (h : (σ e.1).getLast? = some v) :
    bump apply σ e = Function.update σ e.1 (σ e.1 ++ [apply v e.2]) := by
  rw [bump, h]

theorem bump_of_ne (σ : ι → List β) {e : ι × α} {key : ι} (h : key ≠ e.1) :
    bump apply σ e key = σ key := by
  unfold bump
  cases (σ e.1).getLast? with
  | none => rfl
  | some v => exact Function.update_of_ne h _ _

theorem editsOf_cons (e : ι × α) (log : List (ι × α)) (key : ι) :
    editsOf (e :: log) key = if e.1 = key then e.2 :: editsOf log key else editsOf log key := by
  unfold editsOf
  by_cases h : e.1 = key <;> simp [h]

theorem length_editsOf (log : List (ι × α)) (key : ι) :
    (editsOf log key).length = log.countP fun e => e.1 = key := by
  simp [editsOf, List.countP_eq_length_filter]

theorem mem_editsOf {log : List (ι × α)} {key : ι} {a : α} :
    a ∈ editsOf log key ↔ (key, a) ∈ log := by
  simp [editsOf]

/-- A log does to one key what its edits under that key do. -/
theorem replay_apply {σ : ι → List β} {key : ι} {v : β} (h : (σ key).getLast? = some v)
    (log : List (ι × α)) :
    replay apply σ log key = σ key ++ chain apply v (editsOf log key) := by
  induction log generalizing σ v with
  | nil => simp [editsOf]
  | cons e log ih =>
    rw [replay_cons, editsOf_cons]
    by_cases hkey : e.1 = key
    · subst hkey
      have hbump : bump apply σ e e.1 = σ e.1 ++ [apply v e.2] := by
        rw [bump_of_some h, Function.update_self]
      rw [if_pos rfl, ih (v := apply v e.2) (by simp [hbump]), hbump]
      simp
    · have hbump : bump apply σ e key = σ key := bump_of_ne σ (Ne.symm hkey)
      rw [if_neg hkey, ih (v := v) (by rw [hbump]; exact h), hbump]

/-- Where there is no version, none comes. -/
theorem replay_of_nil {σ : ι → List β} {key : ι} (h : σ key = []) (log : List (ι × α)) :
    replay apply σ log key = [] := by
  induction log generalizing σ with
  | nil => exact h
  | cons e log ih =>
    rw [replay_cons]
    apply ih
    by_cases hkey : key = e.1
    · subst hkey
      simp [bump, h]
    · rw [bump_of_ne σ hkey, h]

/-- A log leaves the keys alone under which it has no entry. -/
theorem replay_of_notMem {σ : ι → List β} {key : ι} {log : List (ι × α)}
    (h : key ∉ log.map Prod.fst) : replay apply σ log key = σ key := by
  induction log generalizing σ with
  | nil => rfl
  | cons e log ih =>
    rw [List.map_cons, List.mem_cons, not_or] at h
    rw [replay_cons, ih h.2, bump_of_ne σ h.1]

theorem length_replay {σ : ι → List β} {key : ι} (h : σ key ≠ []) (log : List (ι × α)) :
    (replay apply σ log key).length = (σ key).length + log.countP fun e => e.1 = key := by
  rw [replay_apply (List.getLast?_eq_some_getLast h), List.length_append, length_chain,
    length_editsOf]

end PgDelta.Lib
