import Mathlib.Data.Set.Card
import Mathlib.Algebra.Order.BigOperators.Group.Finset

/-!
# Custody

Finitely many holders, each with a list of objects, and a set of live objects, each of which is in the
custody of one holder, once (`Custody`). Objects come to life with a holder (`Custody.give`) and end with
one (`Custody.take`).
-/

namespace FreeAsd

open Function List

variable {ι α : Type*}

/-- Every live object is held, by one holder and once. -/
structure Custody (S : Finset ι) (held : ι → List α) (live : Set α) : Prop where
  nodup : ∀ i ∈ S, (held i).Nodup
  apart : ∀ i ∈ S, ∀ j ∈ S, i ≠ j → List.Disjoint (held i) (held j)
  live_iff : ∀ a, a ∈ live ↔ ∃ i ∈ S, a ∈ held i

namespace Custody

variable {S : Finset ι} {held : ι → List α} {live : Set α} {i : ι} {a : α}
  (h : Custody S held live)

include h

theorem finite : live.Finite := by
  classical
  refine Set.Finite.subset (S.biUnion fun i => (held i).toFinset).finite_toSet fun a ha => ?_
  obtain ⟨i, hi, hai⟩ := (h.live_iff a).mp ha
  rw [Finset.mem_coe, Finset.mem_biUnion]
  exact ⟨i, hi, mem_toFinset.mpr hai⟩

/-- As many objects are live as are held. -/
theorem ncard : live.ncard = ∑ i ∈ S, (held i).length := by
  classical
  have hlive : live = ↑(S.biUnion fun i => (held i).toFinset) := by
    ext a
    rw [h.live_iff, Finset.mem_coe, Finset.mem_biUnion]
    simp only [mem_toFinset]
  have hdisj : (S : Set ι).PairwiseDisjoint fun i => (held i).toFinset := by
    intro i hi j hj hij
    change Disjoint (held i).toFinset (held j).toFinset
    rw [Finset.disjoint_left]
    intro a hai haj
    exact h.apart i hi j hj hij (mem_toFinset.mp hai) (mem_toFinset.mp haj)
  rw [hlive, Set.ncard_coe_finset, Finset.card_biUnion hdisj]
  exact Finset.sum_congr rfl fun i hi => toFinset_card_of_nodup (h.nodup i hi)

theorem mem_live (hi : i ∈ S) (ha : a ∈ held i) : a ∈ live := (h.live_iff a).mpr ⟨i, hi, ha⟩

/-- A new object is given to a holder. -/
theorem give [DecidableEq ι] (hi : i ∈ S) (ha : a ∉ live) :
    Custody S (update held i (held i ++ [a])) (insert a live) := by
  have hnew (j : ι) (hj : j ∈ S) : a ∉ held j := fun hmem => ha (h.mem_live hj hmem)
  refine ⟨fun j hj => ?_, fun j hj k hk hjk => ?_, fun b => ?_⟩
  · by_cases hji : j = i
    · rw [hji, update_self, nodup_append_comm, singleton_append, nodup_cons]
      exact ⟨hnew i hi, h.nodup i hi⟩
    · rw [update_of_ne hji]
      exact h.nodup j hj
  · -- Only one of two different holders can be the one with the new object.
    by_cases hji : j = i <;> by_cases hki : k = i
    · exact absurd (hji.trans hki.symm) hjk
    · rw [hji, update_self, update_of_ne hki, disjoint_append_left, singleton_disjoint]
      exact ⟨h.apart i hi k hk (Ne.symm hki), hnew k hk⟩
    · rw [hki, update_self, update_of_ne hji, disjoint_append_right, disjoint_singleton]
      exact ⟨h.apart j hj i hi hji, hnew j hj⟩
    · rw [update_of_ne hji, update_of_ne hki]
      exact h.apart j hj k hk hjk
  · rw [Set.mem_insert_iff, h.live_iff]
    constructor
    · rintro (rfl | ⟨j, hj, hb⟩)
      · exact ⟨i, hi, by rw [update_self]; simp⟩
      refine ⟨j, hj, ?_⟩
      by_cases hji : j = i
      · rw [hji, update_self]
        exact mem_append_left _ (hji ▸ hb)
      · rwa [update_of_ne hji]
    · rintro ⟨j, hj, hb⟩
      by_cases hji : j = i
      · rw [hji, update_self, mem_append, mem_singleton] at hb
        exact hb.symm.imp_right fun hb => ⟨i, hi, hb⟩
      · rw [update_of_ne hji] at hb
        exact .inr ⟨j, hj, hb⟩

/-- A holder lets go of its first object. -/
theorem take [DecidableEq ι] (hi : i ∈ S) {rest : List α} (ha : held i = a :: rest) :
    Custody S (update held i rest) (live \ {a}) := by
  have hsub (j : ι) : ∀ b ∈ update held i rest j, b ∈ held j := by
    intro b hb
    by_cases hji : j = i
    · rw [hji, update_self] at hb
      rw [hji, ha]
      exact mem_cons_of_mem _ hb
    · rwa [update_of_ne hji] at hb
  have hnodup := h.nodup i hi
  rw [ha, nodup_cons] at hnodup
  refine ⟨fun j hj => ?_, fun j hj k hk hjk b hbj hbk => ?_, fun b => ?_⟩
  · by_cases hji : j = i
    · rw [hji, update_self]
      exact hnodup.2
    · rw [update_of_ne hji]
      exact h.nodup j hj
  · exact h.apart j hj k hk hjk (hsub j b hbj) (hsub k b hbk)
  · rw [Set.mem_sdiff, Set.mem_singleton_iff, h.live_iff]
    constructor
    · rintro ⟨⟨j, hj, hb⟩, hne⟩
      refine ⟨j, hj, ?_⟩
      by_cases hji : j = i
      · rw [hji, ha] at hb
        rw [hji, update_self]
        exact (mem_cons.mp hb).resolve_left hne
      · rwa [update_of_ne hji]
    · rintro ⟨j, hj, hb⟩
      refine ⟨⟨j, hj, hsub j b hb⟩, ?_⟩
      rintro rfl
      by_cases hji : j = i
      · rw [hji, update_self] at hb
        exact hnodup.1 hb
      · rw [update_of_ne hji] at hb
        exact h.apart j hj i hi hji hb (ha ▸ mem_cons_self)

end Custody

end FreeAsd
