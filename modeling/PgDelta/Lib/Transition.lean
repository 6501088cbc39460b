import Mathlib.Logic.Relation
import Mathlib.Order.WellFounded

/-!
Transition systems given by a partial step function: runs, invariants of runs,
and what every run arrives at.

A label says which step is taken, and carries everything the step takes from
outside. A step that is not enabled has no successor.
-/

namespace PgDelta.Lib

variable {σ α : Type*} (step : σ → α → Option σ)

/-- The state that a run along some labels ends in, if every step of it is
enabled. -/
def runFrom : σ → List α → Option σ
  | s, [] => some s
  | s, a :: as => (step s a).bind fun t => runFrom t as

/-- Every step of a run from `s` meets a condition. -/
def Along (cond : σ → α → Prop) : σ → List α → Prop
  | _, [] => True
  | s, a :: as => cond s a ∧ ∀ t, step s a = some t → Along cond t as

variable {step}

@[simp] theorem runFrom_nil (s : σ) : runFrom step s [] = some s := rfl

theorem runFrom_cons {s u : σ} {a : α} {as : List α} :
    runFrom step s (a :: as) = some u ↔ ∃ t, step s a = some t ∧ runFrom step t as = some u := by
  simp [runFrom, Option.bind_eq_some_iff]

theorem runFrom_append {s u : σ} {as bs : List α} :
    runFrom step s (as ++ bs) = some u ↔
      ∃ t, runFrom step s as = some t ∧ runFrom step t bs = some u := by
  induction as generalizing s with
  | nil => simp
  | cons a as ih =>
    simp only [List.cons_append, runFrom_cons, ih]
    constructor
    · rintro ⟨t, hs, v, has, hbs⟩
      exact ⟨v, ⟨t, hs, has⟩, hbs⟩
    · rintro ⟨v, ⟨t, hs, has⟩, hbs⟩
      exact ⟨t, hs, v, has, hbs⟩

/-- What every step keeps, under a condition on the steps, a run keeps whose
steps all meet the condition. -/
theorem runFrom_invariant_along {cond : σ → α → Prop} {inv : σ → Prop}
    (keep : ∀ s a t, inv s → cond s a → step s a = some t → inv t) {s t : σ} {as : List α}
    (hs : inv s) (hcond : Along step cond s as) (hrun : runFrom step s as = some t) : inv t := by
  induction as generalizing s with
  | nil =>
    simp only [runFrom_nil, Option.some.injEq] at hrun
    exact hrun ▸ hs
  | cons a as ih =>
    obtain ⟨u, hu, hrun⟩ := runFrom_cons.mp hrun
    exact ih (keep s a u hs hcond.1 hu) (hcond.2 u hu) hrun

theorem along_of_take {cond : σ → α → Prop} {s : σ} {as : List α}
    (h : ∀ i (hi : i < as.length) t, runFrom step s (as.take i) = some t → cond t as[i]) :
    Along step cond s as := by
  induction as generalizing s with
  | nil => trivial
  | cons a as ih =>
    refine ⟨h 0 (by simp) s rfl, fun t ht => ih fun i hi u hu => ?_⟩
    exact h (i + 1) (by simpa using hi) u (runFrom_cons.mpr ⟨t, ht, hu⟩)

def checkedAlong (step : σ → α → Option σ) (check : σ → α → Bool) : σ → List α → Bool
  | _, [] => true
  | s, a :: as => check s a && (step s a).all fun t => checkedAlong step check t as

theorem along_of_checkedAlong {cond : σ → α → Prop} {check : σ → α → Bool}
    (hcheck : ∀ s a, check s a = true → cond s a) {s : σ} {as : List α}
    (h : checkedAlong step check s as = true) : Along step cond s as := by
  induction as generalizing s with
  | nil => trivial
  | cons a as ih =>
    obtain ⟨hnow, hrest⟩ := Bool.and_eq_true_iff.mp h
    refine ⟨hcheck s a hnow, fun t ht => ih ?_⟩
    rwa [ht, Option.all_some] at hrest

/-- What holds of all labels may be asked of them along a run. -/
theorem Along.and_mem {cond : σ → α → Prop} {P : α → Prop} {s : σ} {as : List α}
    (h : Along step cond s as) (hmem : ∀ a ∈ as, P a) :
    Along step (fun s a => P a ∧ cond s a) s as := by
  induction as generalizing s with
  | nil => trivial
  | cons a as ih =>
    refine ⟨⟨hmem a List.mem_cons_self, h.1⟩, fun t ht => ?_⟩
    exact ih (h.2 t ht) fun b hb => hmem b (List.mem_cons_of_mem _ hb)

/-- Where each step under a condition is one of another system, between related
states, so is a run whose steps all meet the condition. -/
theorem runFrom_simulation_along {τ : Type*} {step' : τ → α → Option τ} {cond : σ → α → Prop}
    {rel : σ → τ → Prop}
    (simulate : ∀ s t u a, rel s u → cond s a → step s a = some t →
      ∃ v, step' u a = some v ∧ rel t v)
    {s t : σ} {u : τ} {as : List α} (hrel : rel s u) (hcond : Along step cond s as)
    (hrun : runFrom step s as = some t) : ∃ v, runFrom step' u as = some v ∧ rel t v := by
  induction as generalizing s u with
  | nil =>
    obtain rfl : s = t := by simpa using hrun
    exact ⟨u, rfl, hrel⟩
  | cons a as ih =>
    obtain ⟨s₁, hs₁, hrun⟩ := runFrom_cons.mp hrun
    obtain ⟨u₁, hu₁, hrel₁⟩ := simulate s s₁ u a hrel hcond.1 hs₁
    obtain ⟨v, hv, hrel'⟩ := ih hrel₁ (hcond.2 s₁ hs₁) hrun
    exact ⟨v, runFrom_cons.mpr ⟨u₁, hu₁, hv⟩, hrel'⟩

theorem runFrom_invariant {inv : σ → Prop} (keep : ∀ s a t, inv s → step s a = some t → inv t)
    {s t : σ} {as : List α} (hs : inv s) (hrun : runFrom step s as = some t) : inv t := by
  induction as generalizing s with
  | nil =>
    simp only [runFrom_nil, Option.some.injEq] at hrun
    exact hrun ▸ hs
  | cons a as ih =>
    obtain ⟨u, hu, hrun⟩ := runFrom_cons.mp hrun
    exact ih (keep s a u hs hu) hrun

variable (step)

/-- Whatever steps are taken, a state with the property comes: no run ends, and
none goes on for ever, before it. -/
inductive Inevitably (goal : σ → Prop) : σ → Prop
  | now {s : σ} (h : goal s) : Inevitably goal s
  | later {s : σ} (enabled : ∃ a t, step s a = some t)
      (next : ∀ a t, step s a = some t → Inevitably goal t) : Inevitably goal s

variable {step}

/-- A property is inevitable where some step is enabled until it holds and
every step before that decreases a well-founded measure. -/
theorem inevitably_of_measure {β : Type*} {goal inv : σ → Prop} {lt : β → β → Prop}
    (wf : WellFounded lt) (measure : σ → β)
    (keep : ∀ s a t, inv s → step s a = some t → inv t)
    (enabled : ∀ s, inv s → ¬ goal s → ∃ a t, step s a = some t)
    (decrease : ∀ s a t, inv s → ¬ goal s → step s a = some t → lt (measure t) (measure s))
    {s : σ} (hs : inv s) : Inevitably step goal s := by
  induction h : measure s using wf.induction generalizing s with
  | _ m ih =>
    by_cases hgoal : goal s
    · exact .now hgoal
    · refine .later (enabled s hs hgoal) fun a t ht => ?_
      exact ih (measure t) (h ▸ decrease s a t hs hgoal ht) (keep s a t hs ht) rfl

theorem Inevitably.with_invariant {goal inv : σ → Prop}
    (keep : ∀ s a t, inv s → step s a = some t → inv t) {s : σ} (h : Inevitably step goal s)
    (hs : inv s) : Inevitably step (fun t => goal t ∧ inv t) s := by
  induction h with
  | now hgoal => exact .now ⟨hgoal, hs⟩
  | later enabled _ ih =>
    exact .later enabled fun a t ht => ih a t ht (keep _ a t hs ht)

theorem Inevitably.mono {goal goal' : σ → Prop} (himp : ∀ s, goal s → goal' s) {s : σ}
    (h : Inevitably step goal s) : Inevitably step goal' s := by
  induction h with
  | now hgoal => exact .now (himp _ hgoal)
  | later enabled _ ih => exact .later enabled ih

end PgDelta.Lib
