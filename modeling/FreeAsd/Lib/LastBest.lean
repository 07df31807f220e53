import Mathlib.Data.List.Basic
import Mathlib.Data.List.Induction

/-!
# The last of the best

A search through a list that keeps the best element so far, where an element that is as good as the best
one replaces it. `lastBest_spec`: it ends with the best element, and of several with the last.
-/

namespace FreeAsd

open List

variable {α : Type} (key : α → Option ℕ)

/-- One element, after the best one so far and its key. Elements without a key do not count. -/
def bestStep (best : Option α × ℕ) (x : α) : Option α × ℕ :=
  match key x with
  | none => best
  | some k => if k ≥ best.2 then (some x, k) else best

/-- The search through a list. -/
def lastBest (l : List α) : Option α × ℕ := l.foldl (bestStep key) (none, 0)

/-- What the search has found in a list: nothing if no element has a key, and otherwise an element with
no better one before it and none as good after it. -/
def IsLastBest (l : List α) (best : Option α × ℕ) : Prop :=
  match best.1 with
  | none => best.2 = 0 ∧ ∀ y ∈ l, key y = none
  | some x => key x = some best.2 ∧ ∃ before after, l = before ++ x :: after ∧
      (∀ y ∈ before, ∀ k, key y = some k → k ≤ best.2) ∧
      ∀ y ∈ after, ∀ k, key y = some k → k < best.2

variable {key}

/-- An element that is not as good changes nothing. -/
theorem IsLastBest.skip {l : List α} {x z : α} {len : ℕ} (h : IsLastBest key l (some z, len))
    (hx : ∀ k, key x = some k → k < len) : IsLastBest key (l ++ [x]) (some z, len) := by
  obtain ⟨hz, before, after, rfl, hbefore, hafter⟩ := h
  refine ⟨hz, before, after ++ [x], by simp, hbefore, fun y hy k hk => ?_⟩
  rcases mem_append.mp hy with hy | hy
  · exact hafter y hy k hk
  · exact hx k (mem_singleton.mp hy ▸ hk)

theorem IsLastBest.step {l : List α} {best : Option α × ℕ} (h : IsLastBest key l best) (x : α) :
    IsLastBest key (l ++ [x]) (bestStep key best x) := by
  obtain ⟨best, len⟩ := best
  unfold bestStep
  cases hkey : key x with
  | none =>
    -- An element without a key changes nothing.
    cases best with
    | none =>
      refine ⟨h.1, fun y hy => ?_⟩
      rcases mem_append.mp hy with hy | hy
      · exact h.2 y hy
      · rwa [mem_singleton.mp hy]
    | some z => exact h.skip fun k hk => by cases hkey.symm.trans hk
  | some k =>
    dsimp only
    split_ifs with hk
    · -- It is the best one now, and all others are before it.
      refine ⟨hkey, l, [], rfl, fun y hy k' hk' => ?_, by simp⟩
      cases best with
      | none => exact absurd ((h.2 y hy).symm.trans hk') (by simp)
      | some z =>
        obtain ⟨hz, before, after, rfl, hbefore, hafter⟩ := h
        rcases mem_append.mp hy with hy | hy
        · exact Nat.le_trans (hbefore y hy k' hk') hk
        · rcases mem_cons.mp hy with rfl | hy
          · exact (Option.some.inj (hz.symm.trans hk')) ▸ hk
          · exact Nat.le_trans (Nat.le_of_lt (hafter y hy k' hk')) hk
    · cases best with
      | none =>
        have hzero : len = 0 := h.1
        exact absurd (hzero ▸ Nat.zero_le k) hk
      | some z =>
        exact h.skip fun k' hk' => Option.some.inj (hkey.symm.trans hk') ▸ Nat.lt_of_not_le hk

theorem lastBest_spec (key : α → Option ℕ) (l : List α) : IsLastBest key l (lastBest key l) := by
  induction l using reverseRecOn with
  | nil => exact ⟨rfl, fun _ hy => absurd hy not_mem_nil⟩
  | append_singleton l x ih =>
    rw [lastBest, foldl_append]
    exact ih.step x

end FreeAsd
