import Mathlib.Logic.Basic

/-!
Runs of a labelled transition relation: the labels of a run in order, composing runs,
what every step preserves, and carrying a run over to another relation.
-/
namespace MatrixSdk.Traces

/-- What a run leads to may rest on the run itself. -/
theorem and_of_imp {p q : Prop} (hp : p) (hq : p → q) : p ∧ q := ⟨hp, hq hp⟩

variable {σ ℓ : Type}

inductive Trace (step : σ → ℓ → σ → Prop) : σ → List ℓ → σ → Prop
  | nil (s : σ) : Trace step s [] s
  | cons {s t u : σ} {a : ℓ} {as : List ℓ} (head : step s a t) (tail : Trace step t as u) :
      Trace step s (a :: as) u

namespace Trace

variable {step : σ → ℓ → σ → Prop} {s t u : σ} {as bs : List ℓ} {a : ℓ}

theorem single (h : step s a t) : Trace step s [a] t := .cons h (.nil t)

theorem append (h₁ : Trace step s as t) (h₂ : Trace step t bs u) : Trace step s (as ++ bs) u := by
  induction h₁ with
  | nil s => exact h₂
  | cons head _ ih => exact .cons head (ih h₂)

theorem of_append (h : Trace step s (as ++ bs) u) :
    ∃ t, Trace step s as t ∧ Trace step t bs u := by
  induction as generalizing s with
  | nil => exact ⟨s, .nil s, h⟩
  | cons a as ih =>
    cases h with
    | cons head tail =>
      obtain ⟨t, h₁, h₂⟩ := ih tail
      exact ⟨t, .cons head h₁, h₂⟩

/-- What every step preserves holds at the end of a run. -/
theorem preserves {inv : σ → Prop} (hstep : ∀ s a t, inv s → step s a t → inv t)
    (h : Trace step s as t) (hs : inv s) : inv t := by
  induction h with
  | nil s => exact hs
  | cons head _ ih => exact ih (hstep _ _ _ hs head)

theorem mono {step' : σ → ℓ → σ → Prop} (hstep : ∀ s a t, step s a t → step' s a t)
    (h : Trace step s as t) : Trace step' s as t := by
  induction h with
  | nil s => exact .nil s
  | cons head _ ih => exact .cons (hstep _ _ _ head) ih

end Trace

end MatrixSdk.Traces
