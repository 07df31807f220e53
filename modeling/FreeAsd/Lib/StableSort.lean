import Mathlib.Data.List.Sort

/-!
# Stable sorting

A list is the stable sort of another if it is sorted by key and has, for each key, the same items in the same
order (`eq_stableSort`).
-/

namespace FreeAsd

open List

variable {ι κ : Type*} [LinearOrder κ] (key : ι → κ)

/-- The items in the order of their keys, those with the same key in the order of the list. -/
abbrev stableSort (l : List ι) : List ι := l.insertionSort fun a b => key a ≤ key b

variable {key} {l l' L : List ι} {z : ι}

/-- A sorted list is determined by its items for each key. -/
theorem eq_of_filter_eq (hl : l.Pairwise fun a b => key a ≤ key b) (hl' : l'.Pairwise fun a b => key a ≤ key b)
    (h : ∀ k, l.filter (key · = k) = l'.filter (key · = k)) : l = l' := by
  have hmem : ∀ {l₁ l₂ : List ι}, (∀ k, l₁.filter (key · = k) = l₂.filter (key · = k)) →
      ∀ x ∈ l₁, x ∈ l₂ := fun h x hx =>
    (mem_filter.mp (h (key x) ▸ mem_filter.mpr ⟨hx, by simp⟩)).1
  induction l generalizing l' with
  | nil =>
    cases l' with
    | nil => rfl
    | cons b l' => exact absurd (hmem (fun k => (h k).symm) b mem_cons_self) not_mem_nil
  | cons a l ih =>
    cases l' with
    | nil => exact absurd (hmem h a mem_cons_self) not_mem_nil
    | cons b l' =>
      obtain ⟨ha, hl⟩ := pairwise_cons.mp hl
      obtain ⟨hb, hl'⟩ := pairwise_cons.mp hl'
      -- The two first items have the smallest key, so they are the first with that key.
      have hkey : key a = key b := by
        apply le_antisymm
        · rcases mem_cons.mp (hmem (fun k => (h k).symm) b mem_cons_self) with e | hm
          · rw [e]
          · exact ha b hm
        · rcases mem_cons.mp (hmem h a mem_cons_self) with e | hm
          · rw [e]
          · exact hb a hm
      have hab : a = b := by
        have hfirst := h (key a)
        rw [filter_cons_of_pos (by simp), filter_cons_of_pos (by simp [hkey])] at hfirst
        exact (List.cons.inj hfirst).1
      rw [hab] at h ⊢
      refine congrArg (b :: ·) (ih hl hl' fun k => ?_)
      have hk := h k
      by_cases e : key b = k
      · rw [filter_cons_of_pos (by simp [e]), filter_cons_of_pos (by simp [e])] at hk
        exact (List.cons.inj hk).2
      · rwa [filter_cons_of_neg (by simp [e]), filter_cons_of_neg (by simp [e])] at hk

theorem stableSort_perm (key : ι → κ) (L : List ι) : (stableSort key L).Perm L := perm_insertionSort _ L

theorem pairwise_stableSort (key : ι → κ) (L : List ι) :
    (stableSort key L).Pairwise fun a b => key a ≤ key b := by
  have : Std.Total fun a b => key a ≤ key b := ⟨fun a b => le_total _ _⟩
  have : IsTrans ι fun a b => key a ≤ key b := ⟨fun a b c => le_trans⟩
  exact pairwise_insertionSort _ _

/-- Stable sorting keeps the order of the items with the same key. -/
theorem filter_stableSort (key : ι → κ) (L : List ι) (k : κ) :
    (stableSort key L).filter (key · = k) = L.filter (key · = k) := by
  have : Std.Total fun a b => key a ≤ key b := ⟨fun a b => le_total _ _⟩
  have : IsTrans ι fun a b => key a ≤ key b := ⟨fun a b c => le_trans⟩
  have hsame : (L.filter (key · = k)).Pairwise fun a b => key a ≤ key b := by
    refine pairwise_of_forall_mem_list fun a ha b hb => ?_
    simp only [mem_filter, decide_eq_true_eq] at ha hb
    rw [ha.2, hb.2]
  have hsub : (L.filter (key · = k)).Sublist ((stableSort key L).filter (key · = k)) := by
    have hfilter := (sublist_insertionSort hsame filter_sublist).filter (key · = k)
    rw [filter_filter] at hfilter
    simpa only [Bool.and_self] using hfilter
  exact (hsub.eq_of_length_le ((stableSort_perm key L).filter _).length_eq.le).symm

/-- A sorted list with the same items for each key, in the same order, is the stable sort. -/
theorem eq_stableSort (hl : l.Pairwise fun a b => key a ≤ key b)
    (h : ∀ k, l.filter (key · = k) = L.filter (key · = k)) : l = stableSort key L :=
  eq_of_filter_eq hl (pairwise_stableSort key L) fun k => (h k).trans (filter_stableSort key L k).symm

/-- Only the keys of the items of the list matter. -/
theorem stableSort_congr {key' : ι → κ} (h : ∀ x ∈ L, key' x = key x) :
    stableSort key L = stableSort key' L := by
  have hmem : ∀ x ∈ stableSort key L, key' x = key x := fun x hx =>
    h x ((stableSort_perm key L).mem_iff.mp hx)
  apply eq_stableSort
  · refine (pairwise_stableSort key L).imp_of_mem fun {a b} ha hb hab => ?_
    rwa [hmem a ha, hmem b hb]
  · intro k
    rw [filter_congr fun x hx => by rw [hmem x hx], filter_stableSort]
    exact filter_congr fun x hx => by rw [h x hx]

/-- A new item belongs behind those with a key up to its own. -/
theorem stableSort_concat {A B : List ι} (h : stableSort key L = A ++ B) (hA : ∀ a ∈ A, key a ≤ key z)
    (hB : ∀ b ∈ B, key z < key b) : A ++ z :: B = stableSort key (L ++ [z]) := by
  have hsorted := pairwise_stableSort key L
  rw [h] at hsorted
  obtain ⟨hsA, hsB, hAB⟩ := pairwise_append.mp hsorted
  apply eq_stableSort
  · refine pairwise_append.mpr ⟨hsA, pairwise_cons.mpr ⟨fun b hb => (hB b hb).le, hsB⟩, ?_⟩
    intro a ha b hb
    rcases mem_cons.mp hb with rfl | hb
    · exact hA a ha
    · exact hAB a ha b hb
  · intro k
    have hk := filter_stableSort key L k
    rw [h, filter_append] at hk
    rw [filter_append, filter_append, ← hk]
    by_cases e : key z = k
    · have hBk : B.filter (key · = k) = [] := by
        refine filter_eq_nil_iff.mpr fun b hb => ?_
        simpa [← e] using (hB b hb).ne'
      rw [filter_cons_of_pos (by simp [e]), hBk]
      simp [e]
    · rw [filter_cons_of_neg (by simp [e])]
      simp [e]

/-- A removal keeps the order of the rest. -/
theorem stableSort_erase [DecidableEq ι] {A B : List ι} (h : stableSort key L = A ++ z :: B)
    (hL : L.Nodup) : A ++ B = stableSort key (L.erase z) := by
  have hnodup : (A ++ z :: B).Nodup := h ▸ (stableSort_perm key L).nodup_iff.mpr hL
  have hz : z ∉ A := fun hz => (nodup_append.mp hnodup).2.2 z hz z mem_cons_self rfl
  have herase : A ++ B = (A ++ z :: B).filter (· != z) := by
    rw [← hnodup.erase_eq_filter z, erase_append_right _ hz, erase_cons_head]
  apply eq_stableSort
  · have hsorted := pairwise_stableSort key L
    rw [h] at hsorted
    exact hsorted.sublist ((sublist_cons_self z B).append_left A)
  · intro k
    have hk := congrArg (List.filter (· != z)) (filter_stableSort key L k)
    rw [h, filter_comm, ← herase] at hk
    rw [hk, hL.erase_eq_filter z, filter_comm]

/-- The first item of the stable sort is the first of those with the smallest key. -/
theorem head_stableSort (h : (stableSort key L).head? = some z) :
    ∃ A B, L = A ++ z :: B ∧ (∀ a ∈ A, key z < key a) ∧ ∀ b ∈ B, key z ≤ key b := by
  induction L generalizing z with
  | nil => exact absurd h nofun
  | cons a L ih =>
    have hcons : stableSort key (a :: L) = (stableSort key L).orderedInsert (key · ≤ key ·) a := rfl
    cases hS : stableSort key L with
    | nil =>
      have hL : L = [] := (hS ▸ stableSort_perm key L).nil_eq.symm
      rw [hcons, hS] at h
      cases h
      exact ⟨[], [], by rw [hL]; rfl, nofun, nofun⟩
    | cons b S =>
      have hmin : ∀ x ∈ L, key b ≤ key x := by
        intro x hx
        have hsorted := pairwise_stableSort key L
        rw [← (stableSort_perm key L).mem_iff, hS] at hx
        rw [hS] at hsorted
        rcases mem_cons.mp hx with rfl | hx
        · exact le_rfl
        · exact (pairwise_cons.mp hsorted).1 x hx
      rw [hcons, hS, orderedInsert_cons] at h
      by_cases hab : key a ≤ key b
      · rw [if_pos hab] at h
        cases h
        exact ⟨[], L, rfl, nofun, fun x hx => hab.trans (hmin x hx)⟩
      · rw [if_neg hab] at h
        cases h
        obtain ⟨A, B, rfl, hA, hB⟩ := ih (by rw [hS]; rfl)
        refine ⟨a :: A, B, rfl, fun x hx => ?_, hB⟩
        rcases mem_cons.mp hx with rfl | hx
        · exact not_le.mp hab
        · exact hA x hx

end FreeAsd
