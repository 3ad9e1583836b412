import Mathlib.Data.List.Basic

/-!
# Runs of a labelled transition system

A system moves by `step s a`, where the label `a` carries everything the environment
decides; `none` means that `a` cannot happen in `s`. `Reaches` collects the states of
all runs whose steps meet a condition on the state before the step and its label.
-/

namespace Library.Runs

variable {σ α : Type*} {step : σ → α → Option σ} {ok ok' : σ → α → Prop} {s t u : σ}

/-- A step with a guard happens when the guard holds, and in one way. -/
theorem guarded_eq_some {guard : Prop} [Decidable guard] :
    (if guard then some t else none) = some u ↔ guard ∧ t = u := by
  rw [Option.ite_none_right_eq_some, Option.some_inj]

/-- `t` ends a run from `s` all of whose steps meet `ok`. -/
inductive Reaches (step : σ → α → Option σ) (ok : σ → α → Prop) (s : σ) : σ → Prop
  | refl : Reaches step ok s s
  | tail {t u : σ} {a : α} : Reaches step ok s t → ok t a → step t a = some u →
      Reaches step ok s u

/-- What holds at the start and is kept by each admitted step holds in every state reached. -/
theorem Reaches.invariant {P : σ → Prop} (keep : ∀ t a u, P t → ok t a → step t a = some u → P u)
    (h : Reaches step ok s t) (start : P s) : P t := by
  induction h with
  | refl => exact start
  | tail _ admitted moved ih => exact keep _ _ _ ih admitted moved

theorem Reaches.trans (h : Reaches step ok s t) (g : Reaches step ok t u) :
    Reaches step ok s u := by
  induction g with
  | refl => exact h
  | tail _ admitted moved ih => exact ih.tail admitted moved

theorem Reaches.mono (weaker : ∀ t a, ok t a → ok' t a) (h : Reaches step ok s t) :
    Reaches step ok' s t := by
  induction h with
  | refl => exact .refl
  | tail _ admitted moved ih => exact ih.tail (weaker _ _ admitted) moved

/-- When every state that is not done has a step that decreases a measure, some run ends in a
state that is done. -/
theorem exists_reaches_of_decreasing {done : σ → Prop} (μ : σ → ℕ)
    (progress : ∀ s, ¬ done s → ∃ a u, ok s a ∧ step s a = some u ∧ μ u < μ s) (s : σ) :
    ∃ t, Reaches step ok s t ∧ done t := by
  induction hn : μ s using Nat.strongRecOn generalizing s with
  | _ n ih =>
    by_cases hdone : done s
    · exact ⟨s, .refl, hdone⟩
    · obtain ⟨a, u, admitted, moved, hlt⟩ := progress s hdone
      obtain ⟨t, hreach, ht⟩ := ih (μ u) (hn ▸ hlt) u rfl
      exact ⟨t, (Reaches.refl.tail admitted moved).trans hreach, ht⟩

/-- A run given by its labels. -/
def run (step : σ → α → Option σ) : σ → List α → Option σ
  | s, [] => some s
  | s, a :: as => (step s a).bind fun t => run step t as

/-- A run given by its labels reaches its last state, when every label is admitted in
every state. -/
theorem reaches_of_run {as : List α} (h : run step s as = some t)
    (admitted : ∀ s, ∀ a ∈ as, ok s a) : Reaches step ok s t := by
  induction as generalizing s with
  | nil => exact Option.some.inj h ▸ .refl
  | cons a as ih =>
    obtain ⟨u, hu, hrun⟩ := Option.bind_eq_some_iff.mp h
    have first : Reaches step ok s u := Reaches.refl.tail (admitted s a (by simp)) hu
    exact first.trans (ih hrun fun s b hb => admitted s b (by simp [hb]))

end Library.Runs
