import Mathlib.Data.Nat.Bitwise
import Mathlib.Data.Set.Card
import Mathlib.Order.Interval.Finset.Nat
import Mathlib.Tactic.Positivity
import Mathlib.Tactic.Ring

/-!
# Dyadic blocks and tilings

Blocks `[p, p + 2^k)` whose base is a multiple of their size are nested or disjoint
(`Block.apart_or_subset`). `Tiles L S` says that blocks cover a set of addresses without overlap; splitting
a block and merging two buddies keep a tiling (`Tiles.split`, `Tiles.merge`).
-/

namespace FreeAsd

open Nat List

/-- The addresses `[base, base + 2^order)`. -/
structure Block where
  /-- The lowest address. -/
  base : ℕ
  /-- The binary logarithm of the number of addresses. -/
  order : ℕ
deriving DecidableEq, Repr

namespace Block

variable {b c : Block}

instance : Membership ℕ Block := ⟨fun b a => b.base ≤ a ∧ a < b.base + 2^b.order⟩

theorem mem_def {a : ℕ} : a ∈ b ↔ b.base ≤ a ∧ a < b.base + 2^b.order := Iff.rfl

instance (a : ℕ) (b : Block) : Decidable (a ∈ b) :=
  inferInstanceAs (Decidable (b.base ≤ a ∧ a < b.base + 2^b.order))

/-- The base is a multiple of the size. -/
def Aligned (b : Block) : Prop := 2^b.order ∣ b.base

/-- No address is in both blocks. -/
def Apart (b c : Block) : Prop := b.base + 2^b.order ≤ c.base ∨ c.base + 2^c.order ≤ b.base

theorem Apart.symm (h : b.Apart c) : c.Apart b := Or.symm h

theorem base_mem (b : Block) : b.base ∈ b := ⟨le_rfl, Nat.lt_add_of_pos_right (by positivity)⟩

/-- Blocks are apart exactly when they share no address. -/
theorem apart_iff : b.Apart c ↔ ∀ a, a ∈ b → a ∉ c := by
  constructor
  · intro h a hb hc
    rw [mem_def] at hb hc
    rcases h with h | h <;> omega
  · intro h
    by_contra hn
    unfold Apart at hn
    -- The larger of the two bases would be in both blocks.
    rcases le_total b.base c.base with hle | hle
    · exact h c.base ⟨hle, by omega⟩ c.base_mem
    · exact h b.base b.base_mem ⟨hle, by omega⟩

/-- An aligned block meets a larger aligned one only by lying inside it. -/
theorem apart_or_subset (hb : b.Aligned) (hc : c.Aligned) (hle : b.order ≤ c.order) :
    b.Apart c ∨ ∀ a, a ∈ b → a ∈ c := by
  obtain ⟨i, hi⟩ := hb
  obtain ⟨j, hj⟩ := (pow_dvd_pow 2 hle).trans hc
  obtain ⟨n, hn⟩ : 2^b.order ∣ 2^c.order := pow_dvd_pow 2 hle
  -- In units of the smaller size, `b` is `[i, i + 1)` and `c` is `[j, j + n)`.
  simp only [Apart, mem_def, hi, hj, hn, ← mul_add, ← Nat.mul_succ]
  rcases lt_or_ge i j with h | h
  · exact .inl (.inl (mul_le_mul_left _ h))
  rcases lt_or_ge i (j + n) with h' | h'
  · exact .inr fun a ha =>
      ⟨(mul_le_mul_left _ h).trans ha.1, ha.2.trans_le (mul_le_mul_left _ h')⟩
  · exact .inl (.inr (mul_le_mul_left _ h'))

/-! ## Buddies -/

/-- The block of the same size whose base differs in the bit of that size. -/
def buddy (b : Block) : Block := ⟨b.base ^^^ 2^b.order, b.order⟩

/-- A block together with its buddy. -/
def parent (b : Block) : Block := ⟨min b.base (b.base ^^^ 2^b.order), b.order + 1⟩

@[simp] theorem buddy_order (b : Block) : b.buddy.order = b.order := rfl

@[simp] theorem parent_order (b : Block) : b.parent.order = b.order + 1 := rfl

/-- Flipping bit `k` of a multiple of `2^k` flips the lowest bit of the factor. -/
theorem mul_xor_two_pow (k n : ℕ) : 2^k * n ^^^ 2^k = 2^k * (n ^^^ 1) := by
  rw [mul_comm, ← shiftLeft_eq, mul_comm, ← shiftLeft_eq, shiftLeft_xor_distrib, one_shiftLeft]

section

variable (h : b.Aligned)

include h

/-- The two positions of an aligned block below its parent: the lower half or the upper half. -/
theorem Aligned.cases :
    (2^(b.order + 1) ∣ b.base ∧ b.base ^^^ 2^b.order = b.base + 2^b.order) ∨
      (2^(b.order + 1) ∣ b.base - 2^b.order ∧ 2^b.order ≤ b.base ∧
        b.base ^^^ 2^b.order = b.base - 2^b.order) := by
  obtain ⟨n, hn⟩ := h
  have hx : b.base ^^^ 2^b.order = 2^b.order * (n ^^^ 1) := by rw [hn, mul_xor_two_pow]
  rcases even_or_odd n with he | ho
  · rw [xor_one_of_even he, Nat.mul_succ, ← hn] at hx
    obtain ⟨m, rfl⟩ := he
    exact .inl ⟨⟨m, by rw [hn, pow_succ]; ring⟩, hx⟩
  · rw [xor_one_of_odd ho, Nat.mul_sub, mul_one, ← hn] at hx
    obtain ⟨m, rfl⟩ := ho
    have hb : b.base = 2^(b.order + 1) * m + 2^b.order := by rw [hn, pow_succ]; ring
    exact .inr ⟨⟨m, by rw [hb, Nat.add_sub_cancel]⟩, by rw [hb]; exact Nat.le_add_left _ _, hx⟩

theorem Aligned.buddy : b.buddy.Aligned := by
  have hd : 2^b.order ∣ 2^(b.order + 1) := pow_dvd_pow 2 (le_succ _)
  rcases h.cases with ⟨h1, h2⟩ | ⟨h1, -, h2⟩
  · show 2^b.order ∣ b.base ^^^ 2^b.order
    rw [h2]; exact dvd_add (hd.trans h1) (dvd_refl _)
  · show 2^b.order ∣ b.base ^^^ 2^b.order
    rw [h2]; exact hd.trans h1

theorem Aligned.parent : b.parent.Aligned := by
  show 2^(b.order + 1) ∣ min b.base (b.base ^^^ 2^b.order)
  rcases h.cases with ⟨h1, h2⟩ | ⟨h1, h3, h2⟩
  · rw [h2, min_eq_left (le_add_right _ _)]; exact h1
  · rw [h2, min_eq_right (sub_le _ _)]; exact h1

/-- An address is in the parent exactly when it is in the block or in its buddy. -/
theorem mem_parent (a : ℕ) : a ∈ b.parent ↔ a ∈ b ∨ a ∈ b.buddy := by
  have hs : 2^(b.order + 1) = 2^b.order + 2^b.order := by rw [pow_succ]; ring
  simp only [mem_def, Block.parent, Block.buddy, hs]
  rcases h.cases with ⟨-, h2⟩ | ⟨-, h3, h2⟩
  · rw [h2, min_eq_left (le_add_right _ _)]; omega
  · rw [h2, min_eq_right (sub_le _ _)]; omega

theorem apart_buddy : b.Apart b.buddy := by
  unfold Apart Block.buddy
  rcases h.cases with ⟨-, h2⟩ | ⟨-, h3, h2⟩
  · rw [h2]; left; exact le_rfl
  · rw [h2]; right; show b.base - 2^b.order + 2^b.order ≤ b.base; omega

end

/-- A block with a base aligned to its parent's size is the lower half of its parent. -/
theorem parent_base_of_dvd (h : 2^(b.order + 1) ∣ b.base) :
    b.parent = ⟨b.base, b.order + 1⟩ ∧ b.buddy.base = b.base + 2^b.order := by
  obtain ⟨n, hn⟩ := h
  have hb : b.base = 2^b.order * (2 * n) := by rw [hn, pow_succ]; ring
  have hx : b.base ^^^ 2^b.order = b.base + 2^b.order := by
    rw [hb, mul_xor_two_pow, xor_one_of_even (even_two_mul n), Nat.mul_succ]
  refine ⟨?_, hx⟩
  unfold Block.parent
  rw [hx, min_eq_left (le_add_right _ _)]

end Block

/-! ## Tilings -/

/-- The blocks of `L` are pairwise apart and cover exactly the addresses of `S`. -/
structure Tiles (L : List Block) (S : Set ℕ) : Prop where
  /-- No address is in two of the blocks. -/
  apart : L.Pairwise Block.Apart
  /-- The covered addresses are those of `S`. -/
  cover : ∀ a, a ∈ S ↔ ∃ b ∈ L, a ∈ b

namespace Tiles

variable {L L' : List Block} {S : Set ℕ} {b c : Block}

theorem nil : Tiles [] ∅ := ⟨List.Pairwise.nil, by simp⟩

theorem perm (h : Tiles L S) (hp : L.Perm L') : Tiles L' S :=
  ⟨(hp.pairwise_iff Block.Apart.symm).mp h.apart, fun a => by
    rw [h.cover a]
    exact exists_congr fun _ => and_congr_left fun _ => hp.mem_iff⟩

/-- A block in front of a tiling and one further back that share an address are the same entry. -/
theorem not_mem_of_mem_head (h : Tiles (b :: L) S) (hc : c ∈ L) {a : ℕ} (ha : a ∈ b) : a ∉ c :=
  Block.apart_iff.mp ((pairwise_cons.mp h.apart).1 c hc) a ha

/-- Splitting a parent into a block and its buddy keeps the tiling. -/
theorem split (hb : b.Aligned) (h : Tiles (b.parent :: L) S) : Tiles (b :: b.buddy :: L) S := by
  have hm := Block.mem_parent hb
  have hsub : ∀ c ∈ L, b.Apart c ∧ b.buddy.Apart c := fun c hc =>
    ⟨Block.apart_iff.mpr fun a ha => h.not_mem_of_mem_head hc ((hm a).mpr (.inl ha)),
      Block.apart_iff.mpr fun a ha => h.not_mem_of_mem_head hc ((hm a).mpr (.inr ha))⟩
  refine ⟨pairwise_cons.mpr ⟨?_, pairwise_cons.mpr
    ⟨fun c hc => (hsub c hc).2, (pairwise_cons.mp h.apart).2⟩⟩, fun a => ?_⟩
  · intro c hc
    rcases mem_cons.mp hc with rfl | hc
    · exact Block.apart_buddy hb
    · exact (hsub c hc).1
  · rw [h.cover a]
    simp [hm a, or_assoc]

/-- Merging a block and its buddy keeps the tiling. -/
theorem merge (hb : b.Aligned) (h : Tiles (b :: b.buddy :: L) S) : Tiles (b.parent :: L) S := by
  have hm := Block.mem_parent hb
  have h2 := pairwise_cons.mp (pairwise_cons.mp h.apart).2
  refine ⟨pairwise_cons.mpr ⟨fun c hc => ?_, h2.2⟩, fun a => ?_⟩
  · refine Block.apart_iff.mpr fun a ha => ?_
    rcases (hm a).mp ha with ha | ha
    · exact h.not_mem_of_mem_head (mem_cons_of_mem _ hc) ha
    · exact Block.apart_iff.mp (h2.1 c hc) a ha
  · rw [h.cover a]
    simp [hm a, or_assoc]

/-- Adding a block of new addresses. -/
theorem add (h : Tiles L S) (hb : ∀ a ∈ b, a ∉ S) : Tiles (b :: L) (S ∪ {a | a ∈ b}) := by
  refine ⟨pairwise_cons.mpr ⟨fun c hc => Block.apart_iff.mpr fun a ha hac => ?_, h.apart⟩, fun a => ?_⟩
  · exact hb a ha ((h.cover a).mpr ⟨c, hc, hac⟩)
  · rw [Set.mem_union, h.cover a]
    simp [or_comm]

/-- A tiling counts the addresses. -/
theorem ncard (h : Tiles L S) : S.Finite ∧ S.ncard = (L.map fun b => 2^b.order).sum := by
  induction L generalizing S with
  | nil =>
    have hS : S = ∅ := by
      ext a
      simp [h.cover a]
    rw [hS]
    exact ⟨Set.finite_empty, Set.ncard_empty ℕ⟩
  | cons b L ih =>
    have hrest : Tiles L {a | ∃ c ∈ L, a ∈ c} := ⟨(pairwise_cons.mp h.apart).2, fun _ => Iff.rfl⟩
    have hblock : {a | a ∈ b} = Set.Ico b.base (b.base + 2^b.order) := rfl
    have hS : S = {a | a ∈ b} ∪ {a | ∃ c ∈ L, a ∈ c} := by
      ext a
      simp [h.cover a]
    have hdisj : Disjoint {a | a ∈ b} {a | ∃ c ∈ L, a ∈ c} :=
      Set.disjoint_left.mpr fun a ha ⟨c, hc, hac⟩ => h.not_mem_of_mem_head hc ha hac
    have hcard : {a | a ∈ b}.ncard = 2^b.order := by
      rw [hblock, ← Finset.coe_Ico, Set.ncard_coe_finset, Nat.card_Ico, Nat.add_sub_cancel_left]
    have hfin : {a | a ∈ b}.Finite := hblock ▸ Set.finite_Ico _ _
    rw [hS]
    refine ⟨hfin.union (ih hrest).1, ?_⟩
    rw [Set.ncard_union_eq hdisj hfin (ih hrest).1, hcard, (ih hrest).2, map_cons, sum_cons]
end Tiles

end FreeAsd
