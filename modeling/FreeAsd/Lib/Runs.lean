import Mathlib.Logic.Relation

/-!
# Invariants of runs

A run of a transition relation is `Relation.ReflTransGen`. A property that one step preserves holds
in every state that a run reaches.
-/

namespace FreeAsd

variable {σ : Type*} {step : σ → σ → Prop}

/-- A property of the first state that every step preserves holds at the end of every run. -/
theorem Runs.invariant {P : σ → Prop} {s t : σ} (h : Relation.ReflTransGen step s t) (h0 : P s)
    (hs : ∀ a b, P a → step a b → P b) : P t := by
  induction h with
  | refl => exact h0
  | tail _ hab ih => exact hs _ _ ih hab

end FreeAsd
