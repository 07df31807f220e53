import FreeAsd.Lib.Lists
import Mathlib.Data.List.Nodup
import Mathlib.Logic.Equiv.Basic

/-!
# Files that are closed once

Files are numbered in the order in which they are opened. Each is in at most one place, and `closed` has
the numbers of those that were closed. `Filed` is kept by opening a file into a free place, by closing
the one in a place, and by moving files around.
-/

namespace FreeAsd

open Function List

variable {K ι α : Type*} (number : α → ℕ) (kind : α → ι) (hasClose : ι → Prop)

/-- The files that were opened are each in at most one place, and those that are in none were closed
once if their kind is closed at all. -/
structure Filed (place : K → Option α) (opened : List ι) (closed : List ℕ) : Prop where
  backend : ∀ k f, place k = some f → opened[number f]? = some (kind f)
  unique : ∀ k l f g, place k = some f → place l = some g → number f = number g → k = l
  not_closed : ∀ k f, place k = some f → number f ∉ closed
  nodup : closed.Nodup
  closed_lt : ∀ h ∈ closed, h < opened.length
  closed_of : ∀ h b, opened[h]? = some b → hasClose b → h ∉ closed →
    ∃ k f, place k = some f ∧ number f = h

namespace Filed

variable {number kind hasClose} {place : K → Option α} {opened : List ι} {closed : List ℕ}
  (h : Filed number kind hasClose place opened closed)

include h

/-- A file is opened and put into a free place. -/
theorem «open» [DecidableEq K] {k : K} (hk : place k = none) {a : α} (ha : number a = opened.length) :
    Filed number kind hasClose (update place k (some a)) (opened ++ [kind a]) closed := by
  have hlt : ∀ l f, place l = some f → number f < opened.length := fun l f hf =>
    (List.getElem?_eq_some_iff.mp (h.backend l f hf)).1
  have hcases : ∀ l f, update place k (some a) l = some f → l = k ∧ a = f ∨ place l = some f := by
    intro l f hf
    by_cases hl : l = k
    · rw [hl, update_self, Option.some.injEq] at hf
      exact .inl ⟨hl, hf⟩
    · rw [update_of_ne hl] at hf
      exact .inr hf
  constructor
  · intro l f hf
    rw [getElem?_concat_eq_some]
    rcases hcases l f hf with ⟨-, rfl⟩ | hf
    · exact .inr ⟨ha, rfl⟩
    · exact .inl (h.backend l f hf)
  · intro l m f g hf hg hfg
    rcases hcases l f hf with ⟨rfl, rfl⟩ | hf' <;> rcases hcases m g hg with ⟨rfl, rfl⟩ | hg'
    · rfl
    · have := hlt m g hg'
      omega
    · have := hlt l f hf'
      omega
    · exact h.unique l m f g hf' hg' hfg
  · intro l f hf hclosed
    rcases hcases l f hf with ⟨-, rfl⟩ | hf
    · have := h.closed_lt _ hclosed
      omega
    · exact h.not_closed l f hf hclosed
  · exact h.nodup
  · intro x hx
    rw [length_append]
    exact Nat.lt_add_right _ (h.closed_lt x hx)
  · intro x b' hx hb hclosed
    rcases getElem?_concat_eq_some.mp hx with hx | ⟨heq, -⟩
    · obtain ⟨l, f, hf, hfx⟩ := h.closed_of x b' hx hb hclosed
      refine ⟨l, f, ?_, hfx⟩
      rw [update_of_ne _, hf]
      rintro rfl
      exact nomatch hk.symm.trans hf
    · exact ⟨k, a, update_self .., ha.trans heq.symm⟩

/-- The file in a place is closed, if its backend can close, and the place is free. -/
theorem close [DecidableEq K] {k : K} {f : α} (hk : place k = some f) {closed' : List ℕ}
    (hclose : hasClose (kind f) → closed' = closed ++ [number f])
    (hkeep : ¬ hasClose (kind f) → closed' = closed) :
    Filed number kind hasClose (update place k none) opened closed' := by
  have hother : ∀ l g, update place k none l = some g → l ≠ k ∧ place l = some g := by
    intro l g hg
    have hl : l ≠ k := by
      rintro rfl
      rw [update_self] at hg
      exact nomatch hg
    exact ⟨hl, by rwa [update_of_ne hl] at hg⟩
  have hmem : ∀ x, x ∈ closed' → x ∈ closed ∨ x = number f := by
    intro x hx
    by_cases hb : hasClose (kind f)
    · rw [hclose hb, mem_append, mem_singleton] at hx
      exact hx
    · rw [hkeep hb] at hx
      exact .inl hx
  constructor
  · intro l g hg
    exact h.backend l g (hother l g hg).2
  · intro l m g g' hg hg' heq
    exact h.unique l m g g' (hother l g hg).2 (hother m g' hg').2 heq
  · intro l g hg hclosed
    obtain ⟨hl, hg⟩ := hother l g hg
    rcases hmem _ hclosed with hclosed | heq
    · exact h.not_closed l g hg hclosed
    · exact hl (h.unique l k g f hg hk heq)
  · by_cases hb : hasClose (kind f)
    · rw [hclose hb]
      exact nodup_append.mpr ⟨h.nodup, nodup_singleton _, fun x hx y hy => by
        rw [mem_singleton.mp hy]
        rintro rfl
        exact h.not_closed k f hk hx⟩
    · rw [hkeep hb]
      exact h.nodup
  · intro x hx
    rcases hmem x hx with hx | rfl
    · exact h.closed_lt x hx
    · exact (List.getElem?_eq_some_iff.mp (h.backend k f hk)).1
  · intro x b hx hb hclosed
    -- If the place was the one of `x`, then `x` was closed just now.
    have hsub : x ∉ closed := by
      intro hx'
      apply hclosed
      by_cases hb' : hasClose (kind f)
      · rw [hclose hb']
        exact mem_append_left _ hx'
      · rwa [hkeep hb']
    obtain ⟨l, g, hg, hgx⟩ := h.closed_of x b hx hb hsub
    refine ⟨l, g, ?_, hgx⟩
    rw [update_of_ne _, hg]
    rintro rfl
    obtain rfl : g = f := Option.some.inj (hg.symm.trans hk)
    obtain rfl : b = kind g := Option.some.inj (hx.symm.trans (hgx ▸ h.backend l g hg))
    rw [hclose hb, hgx] at hclosed
    exact hclosed (mem_append_right _ (mem_singleton.mpr rfl))

/-- The places are renamed. -/
theorem rename {place' : K → Option α} (e : K ≃ K) (he : ∀ k, place' (e k) = place k) :
    Filed number kind hasClose place' opened closed := by
  obtain rfl : place' = place ∘ e.symm := funext fun k => by rw [comp_apply, ← he, e.apply_symm_apply]
  refine { h with
    backend := fun k => h.backend (e.symm k)
    unique := fun k l f g hf hg hfg => e.symm.injective (h.unique _ _ f g hf hg hfg)
    not_closed := fun k => h.not_closed (e.symm k)
    closed_of := fun x b hx hb hclosed => ?_ }
  obtain ⟨k, f, hf, hfx⟩ := h.closed_of x b hx hb hclosed
  exact ⟨e k, f, (he k).trans hf, hfx⟩

end Filed

end FreeAsd
