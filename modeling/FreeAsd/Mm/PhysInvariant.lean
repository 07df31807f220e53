import FreeAsd.Lib.Runs
import FreeAsd.Mm.Phys

/-!
# The buddy allocator's invariant

The free blocks and the outstanding allocations tile the memory handed over. A page recorded as free with
order `k` is on that list, or strictly inside a larger block (`PhysInv.info`), so the record that the merge
loop reads is never stale (`PhysInv.buddy_mem`). Between the halves of an operation one block is in hand.
-/

namespace FreeAsd.Mm

open Nat Function List Block

/-! ## Free blocks -/

/-- The block of order `o` at `p`. -/
def blk (p o : ℕ) : Block := ⟨p, o + pageShift⟩

@[simp] theorem blk_base (p o : ℕ) : (blk p o).base = p := rfl

@[simp] theorem blk_order (p o : ℕ) : (blk p o).order = o + pageShift := rfl

/-- The size of a block of order `o`, in bytes. -/
theorem pageSize_shiftLeft (o : ℕ) : pageSize <<< o = 2^(o + pageShift) := by
  rw [shiftLeft_eq, pow_add, mul_comm]; rfl

theorem blk_buddy (p o : ℕ) : (blk p o).buddy = blk (p ^^^ pageSize <<< o) o := by
  rw [pageSize_shiftLeft]; rfl

theorem blk_parent (p o : ℕ) : (blk p o).parent = blk (min p (p ^^^ pageSize <<< o)) (o + 1) := by
  rw [pageSize_shiftLeft]
  unfold parent blk
  rw [add_right_comm]

/-- The blocks on the free lists of the orders below `n`. -/
def freeBelow (lists : ℕ → List ℕ) : ℕ → List Block
  | 0 => []
  | n + 1 => (lists n).map (blk · n) ++ freeBelow lists n

/-- The blocks on the free lists. -/
def PhysState.freeBlocks (s : PhysState) : List Block := freeBelow s.lists (maxOrder + 1)

theorem mem_freeBelow {lists : ℕ → List ℕ} {n : ℕ} {b : Block} :
    b ∈ freeBelow lists n ↔ ∃ o < n, ∃ p ∈ lists o, b = blk p o := by
  induction n with
  | zero => simp [freeBelow]
  | succ n ih =>
    simp only [freeBelow, mem_append, mem_map, ih]
    constructor
    · rintro (⟨p, hp, rfl⟩ | ⟨o, ho, p, hp, rfl⟩)
      · exact ⟨n, lt_succ_self n, p, hp, rfl⟩
      · exact ⟨o, lt_succ_of_lt ho, p, hp, rfl⟩
    · rintro ⟨o, ho, p, hp, rfl⟩
      rcases Nat.lt_succ_iff_lt_or_eq.mp ho with ho | rfl
      · exact .inr ⟨o, ho, p, hp, rfl⟩
      · exact .inl ⟨p, hp, rfl⟩

theorem mem_freeBlocks {s : PhysState} {b : Block} :
    b ∈ s.freeBlocks ↔ ∃ o ≤ maxOrder, ∃ p ∈ s.lists o, b = blk p o := by
  unfold PhysState.freeBlocks
  rw [mem_freeBelow]
  exact exists_congr fun o => and_congr_left' Nat.lt_succ_iff

/-- A list that is not below `n` does not matter. -/
theorem freeBelow_update_of_le (lists : ℕ → List ℕ) (l : List ℕ) {n o : ℕ} (h : n ≤ o) :
    freeBelow (update lists o l) n = freeBelow lists n := by
  induction n with
  | zero => rfl
  | succ n ih =>
    have hne : n ≠ o := by omega
    rw [freeBelow, freeBelow, ih (by omega), update_of_ne hne]

/-- Taking one block off a list takes it out of the free blocks. -/
theorem freeBelow_perm {lists : ℕ → List ℕ} {l : List ℕ} {n o p : ℕ} (ho : o < n)
    (h : (lists o).Perm (p :: l)) :
    (freeBelow lists n).Perm (blk p o :: freeBelow (update lists o l) n) := by
  induction n with
  | zero => omega
  | succ n ih =>
    simp only [freeBelow]
    rcases Nat.lt_succ_iff_lt_or_eq.mp ho with ho' | rfl
    · have hne : n ≠ o := by omega
      rw [update_of_ne hne]
      exact ((ih ho').append_left _).trans perm_middle
    · rw [update_self, freeBelow_update_of_le _ _ le_rfl]
      exact (h.map (blk · o)).append_right _

/-! ## The records of pages -/

/-- The record of the page at `p` says that it heads a free block of order `k`. -/
def PhysState.IsFree (s : PhysState) (p k : ℕ) : Prop :=
  (s.pageInfo p).flags &&& pageFree ≠ 0 ∧ (s.pageInfo p).order = k

/-- Pages have one record each. -/
theorem eq_of_shiftRight_eq {p q : ℕ} (hp : pageSize ∣ p) (hq : pageSize ∣ q)
    (h : p >>> pageShift = q >>> pageShift) : p = q := by
  obtain ⟨i, rfl⟩ := hp
  obtain ⟨j, rfl⟩ := hq
  simp only [shiftRight_eq_div_pow, pageSize, pageShift] at h ⊢
  omega

/-- A block of at least a page starts on a page boundary. -/
theorem page_dvd_base {b : Block} (h : b.Aligned) (ho : pageShift ≤ b.order) : pageSize ∣ b.base :=
  (pow_dvd_pow 2 ho).trans h

/-- Blocks that are apart do not share the record of a first page. -/
theorem tiles_shiftRight_ne {b c : Block} {L : List Block} {S : Set ℕ}
    (h : Tiles (b :: L) S) (hc : c ∈ L) (hb : b.Aligned ∧ pageShift ≤ b.order)
    (hc' : c.Aligned ∧ pageShift ≤ c.order) : c.base >>> pageShift ≠ b.base >>> pageShift := by
  intro e
  have hbase : c.base = b.base := eq_of_shiftRight_eq (page_dvd_base hc'.1 hc'.2) (page_dvd_base hb.1 hb.2) e
  exact h.not_mem_of_mem_head hc (hbase ▸ b.base_mem) c.base_mem

theorem pageInfo_physFreeBlock_of_ne {p q : ℕ} (s : PhysState) (o : ℕ)
    (h : q >>> pageShift ≠ p >>> pageShift) : (physFreeBlock s p o).pageInfo q = s.pageInfo q :=
  update_of_ne h _ _

theorem pageInfo_markAlloc_of_ne {p q : ℕ} (s : PhysState) (o : ℕ)
    (h : q >>> pageShift ≠ p >>> pageShift) : (markAlloc s p o).pageInfo q = s.pageInfo q :=
  update_of_ne h _ _

/-- The number of pages in a list of blocks. -/
def pageCount (L : List Block) : ℕ := (L.map fun b => 2^(b.order - pageShift)).sum

theorem pageCount_cons (b : Block) (L : List Block) :
    pageCount (b :: L) = 2^(b.order - pageShift) + pageCount L := by
  simp [pageCount]

theorem pageCount_perm {L L' : List Block} (h : L.Perm L') : pageCount L = pageCount L' := (h.map _).sum_eq

theorem one_shiftLeft_eq (o : ℕ) (p : ℕ) : 1 <<< o = 2^((blk p o).order - pageShift) := by
  rw [Nat.one_shiftLeft, blk_order, Nat.add_sub_cancel]

/-- What every state of the allocator satisfies, where `hand` is the block that the operation in
progress has taken off the lists, if there is one. -/
structure PhysInv (s : PhysState) (hand : Option Block) (live : List Block) (S : Set ℕ) :
    Prop where
  /-- Blocks are naturally aligned and have at least a page. -/
  aligned : ∀ b ∈ hand.toList ++ (s.freeBlocks ++ live), b.Aligned ∧ pageShift ≤ b.order
  /-- Nothing is lost and nothing is in two blocks. -/
  tiles : Tiles (hand.toList ++ (s.freeBlocks ++ live)) S
  /-- A record that says free is true, or stale inside a larger block, or that of the block in
  hand. -/
  info : ∀ p k, pageSize ∣ p → (∀ b ∈ hand, p ≠ b.base) → s.IsFree p k → (blk p k).Aligned ∧
    ((k ≤ maxOrder ∧ p ∈ s.lists k) ∨
      ∃ c ∈ hand.toList ++ (s.freeBlocks ++ live), k + pageShift < c.order ∧ c.base < p ∧ p ∈ c)
  /-- `free_pages` is the number of pages on the lists. -/
  count : s.free_pages = pageCount s.freeBlocks
  /-- The record of an outstanding block says so, with its order. -/
  held : ∀ b ∈ live, s.pageInfo b.base = ⟨pageAlloc, (b.order - pageShift) % 256, 1⟩

variable {s : PhysState} {hand : Option Block} {live : List Block} {S : Set ℕ} {p o n order : ℕ}

/-- The order in which the outstanding blocks are listed does not matter. -/
theorem PhysInv.perm {live' : List Block} (h : PhysInv s hand live S) (hp : live.Perm live') :
    PhysInv s hand live' S := by
  have hperm := (hp.append_left s.freeBlocks).append_left hand.toList
  refine ⟨fun b hb => h.aligned b (hperm.mem_iff.mpr hb), h.tiles.perm hperm, ?_, h.count,
    fun b hb => h.held b (hp.mem_iff.mpr hb)⟩
  intro q k hq hne hf
  obtain ⟨hk, hm | ⟨c, hc, hin⟩⟩ := h.info q k hq hne hf
  · exact ⟨hk, .inl hm⟩
  · exact ⟨hk, .inr ⟨c, hperm.mem_iff.mp hc, hin⟩⟩

/-! ## `phys_free_block` -/

theorem freeBlocks_physFreeBlock (s : PhysState) (p : ℕ) (ho : o ≤ maxOrder) :
    (physFreeBlock s p o).freeBlocks.Perm (blk p o :: s.freeBlocks) := by
  have hl : ((physFreeBlock s p o).lists o).Perm (p :: s.lists o) := by simp [physFreeBlock]
  have h := freeBelow_perm (lt_succ_of_le ho) hl
  refine h.trans ?_
  simp [PhysState.freeBlocks, physFreeBlock]

/-- `phys_free_block` changes the record of the block's first page only, to free with its order. -/
theorem isFree_physFreeBlock {q k : ℕ} (ho : o ≤ maxOrder) (hp : pageSize ∣ p) (hq : pageSize ∣ q)
    (h : (physFreeBlock s p o).IsFree q k) : (q = p ∧ k = o) ∨ (q ≠ p ∧ s.IsFree q k) := by
  by_cases hqp : q = p
  · subst hqp
    left
    have h2 := h.2
    simp only [PhysState.pageInfo, physFreeBlock, update_self] at h2
    exact ⟨rfl, by rw [← h2, mod_eq_of_lt]; unfold maxOrder at ho; omega⟩
  · right
    refine ⟨hqp, ?_⟩
    have hne : q >>> pageShift ≠ p >>> pageShift := fun e => hqp (eq_of_shiftRight_eq hq hp e)
    unfold PhysState.IsFree at h
    rwa [pageInfo_physFreeBlock_of_ne s o hne] at h

theorem mem_lists_physFreeBlock {q k : ℕ} :
    q ∈ (physFreeBlock s p o).lists k ↔ (k = o ∧ q = p) ∨ q ∈ s.lists k := by
  simp only [physFreeBlock]
  by_cases h : k = o
  · subst h; simp
  · simp [h]

/-- Putting the block `blk p o`, which the tiling has in hand, on its free list; `hand'` is what is
left in hand. -/
theorem PhysInv.push (ho : o ≤ maxOrder) (hal : ∀ b ∈ blk p o :: (hand.toList ++ (s.freeBlocks ++ live)),
      b.Aligned ∧ pageShift ≤ b.order)
    (ht : Tiles (blk p o :: (hand.toList ++ (s.freeBlocks ++ live))) S)
    (hinfo : ∀ q k, pageSize ∣ q → q ≠ p → (∀ b ∈ hand, q ≠ b.base) → s.IsFree q k →
      (blk q k).Aligned ∧ ((k ≤ maxOrder ∧ q ∈ s.lists k) ∨
        ∃ c ∈ blk p o :: (hand.toList ++ (s.freeBlocks ++ live)),
          k + pageShift < c.order ∧ c.base < q ∧ q ∈ c))
    (hc : s.free_pages = pageCount s.freeBlocks)
    (hheld : ∀ b ∈ live, s.pageInfo b.base = ⟨pageAlloc, (b.order - pageShift) % 256, 1⟩) :
    PhysInv (physFreeBlock s p o) hand live S := by
  have hperm : (hand.toList ++ ((physFreeBlock s p o).freeBlocks ++ live)).Perm
      (blk p o :: (hand.toList ++ (s.freeBlocks ++ live))) :=
    (((freeBlocks_physFreeBlock s p ho).append_right live).append_left _).trans perm_middle
  obtain ⟨hp, hp'⟩ := hal _ mem_cons_self
  refine ⟨fun b hb => hal b (hperm.mem_iff.mp hb), ht.perm hperm.symm, ?_, ?_, ?_⟩
  · intro q k hq hne hf
    rcases isFree_physFreeBlock ho (page_dvd_base hp hp') hq hf with ⟨rfl, rfl⟩ | ⟨hqp, hf⟩
    · exact ⟨hp, .inl ⟨ho, mem_lists_physFreeBlock.mpr (.inl ⟨rfl, rfl⟩)⟩⟩
    · obtain ⟨hk, ⟨hle, hm⟩ | ⟨c, hcm, hin⟩⟩ := hinfo q k hq hqp hne hf
      · exact ⟨hk, .inl ⟨hle, mem_lists_physFreeBlock.mpr (.inr hm)⟩⟩
      · exact ⟨hk, .inr ⟨c, hperm.mem_iff.mpr hcm, hin⟩⟩
  · rw [pageCount_perm (freeBlocks_physFreeBlock s p ho), pageCount_cons, ← one_shiftLeft_eq, ← hc]
    show s.free_pages + 1 <<< o = _
    exact add_comm _ _
  · intro b hb
    have hmem : b ∈ hand.toList ++ (s.freeBlocks ++ live) := mem_append_right _ (mem_append_right _ hb)
    have hne := tiles_shiftRight_ne ht hmem (hal _ mem_cons_self) (hal b (mem_cons_of_mem _ hmem))
    rw [blk_base] at hne
    rw [pageInfo_physFreeBlock_of_ne s o hne, hheld b hb]

/-- Putting the block in hand on its free list. -/
theorem PhysInv.physFreeBlock (h : PhysInv s (some (blk p o)) live S) (ho : o ≤ maxOrder) :
    PhysInv (physFreeBlock s p o) none live S :=
  PhysInv.push ho h.aligned h.tiles
    (fun q k hq hne _ hf => h.info q k hq (by simpa using hne) hf) h.count h.held

/-! ## `amm_phys_alloc` -/

/-- Taking the first block of a list in hand. -/
theorem PhysInv.pop (h : PhysInv s none live S) (ho : o ≤ maxOrder) {next : List ℕ}
    (hl : s.lists o = p :: next) :
    PhysInv { s with lists := update s.lists o next,
                     free_pages := s.free_pages - 1 <<< o } (some (blk p o)) live S := by
  have hfree : s.freeBlocks.Perm (blk p o :: freeBelow (update s.lists o next)
      (maxOrder + 1)) := freeBelow_perm (lt_succ_of_le ho) (by rw [hl])
  have hperm := hfree.append_right live
  refine ⟨fun b hb => h.aligned b (hperm.mem_iff.mpr hb), h.tiles.perm hperm, ?_, ?_, h.held⟩
  · intro q k hq hne hf
    obtain ⟨hk, ⟨hle, hm⟩ | ⟨c, hc, hin⟩⟩ := h.info q k hq (by simp) hf
    · refine ⟨hk, .inl ⟨hle, ?_⟩⟩
      by_cases hko : k = o
      · subst hko
        rw [hl] at hm
        rcases mem_cons.mp hm with rfl | hm
        · exact absurd rfl (hne _ rfl)
        · simpa using hm
      · simpa [hko] using hm
    · exact ⟨hk, .inr ⟨c, hperm.mem_iff.mp hc, hin⟩⟩
  · have hc := h.count
    rw [pageCount_perm hfree, pageCount_cons, ← one_shiftLeft_eq] at hc
    show s.free_pages - 1 <<< o = _
    rw [hc, Nat.add_sub_cancel_left]
    rfl

/-- A multiple of the size of a half that is strictly inside a block is the start of the upper
half. -/
theorem eq_buddy_of_aligned {q : ℕ} (hb : 2^((blk p o).order + 1) ∣ p) (hq : (blk q o).Aligned)
    (hlt : p < q) (hin : q < p + 2^((blk p o).order + 1)) : q = p + 2^(blk p o).order := by
  have hw : 2^(blk p o).order ∣ p := (pow_dvd_pow 2 (le_succ _)).trans hb
  have hq : 2^(blk p o).order ∣ q := hq
  have hp : 2^(blk p o).order ∣ p + 2^(blk p o).order := hw.add (dvd_refl _)
  exact le_antisymm (Nat.le_of_lt_add_of_dvd (by omega) hq hp)
    (Nat.le_of_lt_add_of_dvd (Nat.add_lt_add_right hlt _) hp hq)

/-- One step of the split loop: the upper half goes to its list, the lower half stays in hand. -/
theorem PhysInv.split (h : PhysInv s (some (blk p (o + 1))) live S) (ho : o ≤ maxOrder) :
    PhysInv (Mm.physFreeBlock s (p ^^^ pageSize <<< o) o) (some (blk p o)) live S := by
  have hdvd : 2^((blk p o).order + 1) ∣ (blk p o).base := by
    have hal : (blk p (o + 1)).Aligned := (h.aligned _ mem_cons_self).1
    have he : (blk p o).order + 1 = (blk p (o + 1)).order := by simp only [blk_order]; omega
    rw [he]; exact hal
  have hlow : (blk p o).Aligned := (pow_dvd_pow 2 (le_succ _)).trans hdvd
  obtain ⟨hpar, hup⟩ := parent_base_of_dvd hdvd
  have hpar' : (blk p o).parent = blk p (o + 1) := by
    rw [hpar]; unfold blk; simp only [mk.injEq, true_and]; omega
  have hbud : (blk p o).buddy = blk (p ^^^ pageSize <<< o) o := blk_buddy p o
  have ht := h.tiles
  rw [← hpar'] at ht
  have ht' := (ht.split hlow).perm (List.Perm.swap _ _ _)
  rw [hbud] at hup ht'
  simp only [blk_base] at hup
  refine PhysInv.push ho ?_ ht' ?_ h.count h.held
  · intro b hb
    rcases mem_cons.mp hb with rfl | hb
    · rw [← hbud]; exact ⟨hlow.buddy, by simp⟩
    · rcases mem_cons.mp hb with rfl | hb
      · exact ⟨hlow, by simp⟩
      · exact h.aligned b (mem_cons_of_mem _ hb)
  · intro q k hq hqb hne hf
    have hqp : q ≠ p := by simpa using hne
    obtain ⟨hk, hm | ⟨c, hc, hlt, hlo, hin⟩⟩ := h.info q k hq (by simpa using hqp) hf
    · exact ⟨hk, .inl hm⟩
    rcases mem_cons.mp hc with rfl | hc
    · -- A stale record inside the block that is split. It is not at the base of a half, so its
      -- order is below that of the halves, and it is strictly inside one of them.
      have hko : k < o := by
        simp only [blk_order] at hlt
        by_contra hcon
        obtain rfl : k = o := by omega
        refine hqb ?_
        rw [hup]
        exact eq_buddy_of_aligned hdvd hk hlo (by
          have := hin.2
          rwa [blk_base, show (blk p (k + 1)).order = (blk p k).order + 1 by
            simp only [blk_order]; omega] at this)
      refine ⟨hk, .inr ?_⟩
      rcases (mem_parent hlow q).mp (hpar' ▸ hin) with hm | hm
      · exact ⟨blk p o, by simp, by simpa using hko, hlo, hm⟩
      · rw [hbud] at hm
        exact ⟨_, mem_cons_self, by simpa using hko, lt_of_le_of_ne hm.1 (Ne.symm hqb), hm⟩
    · exact ⟨hk, .inr ⟨c, mem_cons_of_mem _ (mem_cons_of_mem _ hc), hlt, hlo, hin⟩⟩

/-- The split loop leaves the block of the wanted order in hand. -/
theorem PhysInv.splitDown (h : PhysInv s (some (blk p (order + n))) live S)
    (hle : order + n ≤ maxOrder) : PhysInv (splitDown p order n s) (some (blk p order)) live S := by
  induction n generalizing s with
  | zero => exact h
  | succ n ih =>
    have hlt : order + n ≤ maxOrder := (le_succ _).trans hle
    exact ih (h.split hlt) hlt

/-- Recording the block in hand as allocated makes it an outstanding one. -/
theorem PhysInv.markAlloc (h : PhysInv s (some (blk p o)) live S) :
    PhysInv (markAlloc s p o) none (blk p o :: live) S := by
  have hperm : (s.freeBlocks ++ blk p o :: live).Perm (blk p o :: (s.freeBlocks ++ live)) := perm_middle
  obtain ⟨hp, hp'⟩ := h.aligned _ mem_cons_self
  refine ⟨fun b hb => h.aligned b (hperm.mem_iff.mp hb), h.tiles.perm hperm.symm, ?_, h.count, ?_⟩
  · intro q k hq _ hf
    by_cases hqp : q = p
    · subst hqp
      simp [PhysState.IsFree, PhysState.pageInfo, Mm.markAlloc, pageAlloc, pageFree] at hf
    have hne : q >>> pageShift ≠ p >>> pageShift := fun e =>
      hqp (eq_of_shiftRight_eq hq (page_dvd_base hp hp') e)
    unfold PhysState.IsFree at hf
    rw [pageInfo_markAlloc_of_ne s o hne] at hf
    obtain ⟨hk, hm | ⟨c, hc, hin⟩⟩ := h.info q k hq (by simpa using hqp) hf
    · exact ⟨hk, .inl hm⟩
    · exact ⟨hk, .inr ⟨c, hperm.mem_iff.mpr hc, hin⟩⟩
  · refine forall_mem_cons.mpr ⟨?_, fun b hb => ?_⟩
    · simp [PhysState.pageInfo, Mm.markAlloc]
    have hmem : b ∈ s.freeBlocks ++ live := mem_append_right _ hb
    have hne := tiles_shiftRight_ne h.tiles hmem (h.aligned _ mem_cons_self)
      (h.aligned b (mem_cons_of_mem _ hmem))
    rw [blk_base] at hne
    rw [pageInfo_markAlloc_of_ne s o hne, h.held b hb]

/-- The loop over the orders: either no list has a block, or the block is outstanding
afterwards. -/
theorem PhysInv.allocFrom (h : PhysInv s none live S) (hle : order ≤ o) (hn : o + n ≤ maxOrder + 1) :
    allocFrom order n o s = (0, s) ∨
      PhysInv (allocFrom order n o s).2 none (blk (allocFrom order n o s).1 order :: live) S := by
  induction n generalizing o with
  | zero => exact .inl rfl
  | succ n ih =>
    unfold Mm.allocFrom
    split
    · exact ih (by omega) (by omega)
    · rename_i paddr next hl
      obtain ⟨d, rfl⟩ := Nat.exists_eq_add_of_le hle
      rw [Nat.add_sub_cancel_left]
      exact .inr ((h.pop (by omega) hl).splitDown (by omega)).markAlloc

/-- `amm_phys_alloc` returns 0 and changes nothing, or makes the block it returns outstanding. -/
theorem PhysInv.ammPhysAlloc (h : PhysInv s none live S) (order : ℕ) (he : s.g_early_boot = false) :
    ammPhysAlloc order s = (0, s) ∨
      PhysInv (ammPhysAlloc order s).2 none (blk (ammPhysAlloc order s).1 order :: live) S := by
  unfold Mm.ammPhysAlloc
  rw [he, if_neg Bool.false_ne_true]
  split_ifs with ho
  · exact .inl rfl
  · exact h.allocFrom le_rfl (by omega)

/-! ## `amm_phys_free` -/

theorem page_info_unlink (s : PhysState) (buddy order : ℕ) :
    (unlink s buddy order).page_info = s.page_info := by
  unfold unlink
  split_ifs <;> rfl

section

variable (h : PhysInv s (some (blk p o)) live S)

include h

/-- The record of the buddy is not stale: a larger block that contained the buddy would contain the
block in hand as well. -/
theorem PhysInv.buddy_mem (hf : s.IsFree (p ^^^ pageSize <<< o) o) : p ^^^ pageSize <<< o ∈ s.lists o := by
  have hal : (blk p o).Aligned := (h.aligned _ mem_cons_self).1
  have hbud := blk_buddy p o
  have hpage : pageSize ∣ p ^^^ pageSize <<< o := by
    have := page_dvd_base hal.buddy (by simp)
    rwa [hbud] at this
  have hbase : p ^^^ pageSize <<< o ∈ (blk p o).buddy := by
    rw [hbud]; exact base_mem _
  have hne : p ^^^ pageSize <<< o ≠ p := by
    intro e
    rw [e] at hbase
    exact apart_iff.mp (apart_buddy hal) p (base_mem _) hbase
  obtain ⟨-, ⟨-, hm⟩ | ⟨c, hc, hlt, -, hin⟩⟩ := h.info _ o hpage (by simpa using hne) hf
  · exact hm
  exfalso
  rcases mem_cons.mp hc with rfl | hc'
  · exact lt_irrefl _ hlt
  have hcal := (h.aligned c hc).1
  have hle : (blk p o).parent.order ≤ c.order := hlt
  rcases apart_or_subset hal.parent hcal hle with hap | hsub
  · exact apart_iff.mp hap _ ((mem_parent hal _).mpr (.inr hbase)) hin
  · exact h.tiles.not_mem_of_mem_head hc' (base_mem _)
      (hsub p ((mem_parent hal p).mpr (.inl (base_mem _))))

/-- One step of the merge loop: the buddy leaves its list and the two blocks are in hand as one. The
record of the block in hand may be stale, of an order not above the block's. -/
theorem PhysInv.merge (ho : o ≤ maxOrder) (hp : ∀ k, s.IsFree p k → (blk p k).Aligned ∧ k ≤ o)
    (hf : s.IsFree (p ^^^ pageSize <<< o) o) :
    PhysInv (unlink s (p ^^^ pageSize <<< o) o)
      (some (blk (min p (p ^^^ pageSize <<< o)) (o + 1))) live S := by
  have hmem := h.buddy_mem hf
  have hal : (blk p o).Aligned := (h.aligned _ mem_cons_self).1
  have hbud := blk_buddy p o
  have hpar := blk_parent p o
  generalize p ^^^ pageSize <<< o = q at *
  have hfree : s.freeBlocks.Perm (blk q o :: freeBelow
      (update s.lists o ((s.lists o).erase q)) (maxOrder + 1)) :=
    freeBelow_perm (lt_succ_of_le ho) (perm_cons_erase hmem)
  unfold unlink
  rw [if_pos hmem]
  have hperm := hfree.append_right live
  have ht : Tiles ((blk p o).parent :: (freeBelow
      (update s.lists o ((s.lists o).erase q)) (maxOrder + 1) ++ live)) S := by
    refine Tiles.merge hal ?_
    rw [hbud]
    exact h.tiles.perm (hperm.cons _)
  rw [hpar] at ht
  have hsub : ∀ a, a ∈ blk p o ∨ a ∈ blk q o → a ∈ blk (min p q) (o + 1) := by
    intro a ha
    rw [← hpar, mem_parent hal, hbud]
    exact ha
  refine ⟨?_, ht, ?_, ?_, h.held⟩
  · intro b hb
    rcases mem_cons.mp hb with rfl | hb
    · exact ⟨hpar ▸ hal.parent, by simp⟩
    · exact h.aligned b (mem_cons_of_mem _ (hperm.mem_iff.mpr (mem_cons_of_mem _ hb)))
  · intro a k ha hne hfa
    have hne : a ≠ min p q := by simpa using hne
    -- A record of order at most `o` in one of the two halves is stale inside the merged block.
    have hstale : k ≤ o → a ∈ blk p o ∨ a ∈ blk q o → ∃ c ∈ blk (min p q) (o + 1) :: (freeBelow
        (update s.lists o ((s.lists o).erase q)) (maxOrder + 1) ++ live),
        k + pageShift < c.order ∧ c.base < a ∧ a ∈ c := fun hk hm =>
      ⟨_, mem_cons_self, by simp only [blk_order]; omega,
        lt_of_le_of_ne (hsub a hm).1 (Ne.symm hne), hsub a hm⟩
    by_cases hap : a = p
    · subst hap
      exact ⟨(hp k hfa).1, .inr (hstale (hp k hfa).2 (.inl (base_mem _)))⟩
    obtain ⟨hk, ⟨hle, hm⟩ | ⟨c, hc, hlt, hin⟩⟩ := h.info a k ha (by simpa using hap) hfa
    · by_cases haq : a = q
      · subst haq
        exact ⟨hk, .inr (hstale (le_of_eq (hfa.2.symm.trans hf.2)) (.inr (base_mem _)))⟩
      refine ⟨hk, .inl ⟨hle, ?_⟩⟩
      by_cases hko : k = o
      · subst hko
        simpa [mem_erase_of_ne haq] using hm
      · simpa [hko] using hm
    · refine ⟨hk, .inr ?_⟩
      rcases mem_cons.mp hc with rfl | hc
      · exact hstale (by simp only [blk_order] at hlt; omega) (.inl hin.2)
      · rcases mem_cons.mp (hperm.mem_iff.mp hc) with rfl | hc
        · exact hstale (by simp only [blk_order] at hlt; omega) (.inr hin.2)
        · exact ⟨c, mem_cons_of_mem _ hc, hlt, hin⟩
  · have hc := h.count
    rw [pageCount_perm hfree, pageCount_cons, ← one_shiftLeft_eq] at hc
    show s.free_pages - 1 <<< o = _
    rw [hc, Nat.add_sub_cancel_left]
    rfl

/-- The merge loop leaves the merged block in hand. -/
theorem PhysInv.mergeUp (hn : o + n ≤ maxOrder) (hp : ∀ k, s.IsFree p k → (blk p k).Aligned ∧ k ≤ o) :
    PhysInv (mergeUp n p o s).2.2 (some (blk (mergeUp n p o s).1 (mergeUp n p o s).2.1)) live S ∧
      (mergeUp n p o s).2.1 ≤ maxOrder := by
  induction n generalizing p o s with
  | zero => exact ⟨h, hn⟩
  | succ n ih =>
    unfold Mm.mergeUp
    dsimp only
    rw [← min_def_lt]
    split_ifs with hcond
    · exact ⟨h, (le_add_right o _).trans hn⟩
    have hf : s.IsFree (p ^^^ pageSize <<< o) o := by
      tauto
    refine ih (h.merge (by omega) hp hf) (by omega) ?_
    intro k hk
    have hk : s.IsFree (min p (p ^^^ pageSize <<< o)) k := by
      unfold PhysState.IsFree PhysState.pageInfo at hk ⊢
      rwa [page_info_unlink] at hk
    rcases min_choice p (p ^^^ pageSize <<< o) with e | e <;> rw [e] at hk ⊢
    · exact ⟨(hp k hk).1, (hp k hk).2.trans (le_succ o)⟩
    · obtain rfl : k = o := hk.2.symm.trans hf.2
      refine ⟨?_, le_succ _⟩
      rw [← blk_buddy]
      exact Block.Aligned.buddy (h.aligned _ mem_cons_self).1

end

/-- The record of an outstanding block does not say that it is free. -/
theorem PhysInv.not_isFree (h : PhysInv s none (blk p o :: live) S) (k : ℕ) : ¬ s.IsFree p k := by
  intro hf
  have hperm : (s.freeBlocks ++ blk p o :: live).Perm (blk p o :: (s.freeBlocks ++ live)) := perm_middle
  have ht : Tiles (blk p o :: (s.freeBlocks ++ live)) S := h.tiles.perm hperm
  obtain ⟨hal, hle⟩ := h.aligned (blk p o) (hperm.mem_iff.mpr mem_cons_self)
  obtain ⟨-, ⟨hk, hm⟩ | ⟨c, hc, hlt, hlo, hin⟩⟩ := h.info p k (page_dvd_base hal hle) (by simp) hf
  · have hfb : blk p k ∈ s.freeBlocks ++ live :=
      mem_append_left _ (mem_freeBlocks.mpr ⟨k, hk, p, hm, rfl⟩)
    exact ht.not_mem_of_mem_head hfb (base_mem _) (base_mem (blk p k))
  · rcases mem_cons.mp (hperm.mem_iff.mp hc) with rfl | hc
    · exact lt_irrefl _ hlo
    · exact ht.not_mem_of_mem_head hc (base_mem _) hin

/-- `amm_phys_free` of an outstanding block. -/
theorem PhysInv.ammPhysFree (h : PhysInv s none (blk p o :: live) S) (ho : o ≤ maxOrder) :
    PhysInv (ammPhysFree p o s) none live S := by
  have hperm : (s.freeBlocks ++ blk p o :: live).Perm (blk p o :: (s.freeBlocks ++ live)) := perm_middle
  have hhand : PhysInv s (some (blk p o)) live S := by
    refine ⟨fun b hb => h.aligned b (hperm.mem_iff.mpr hb), h.tiles.perm hperm, ?_, h.count,
      fun b hb => h.held b (mem_cons_of_mem _ hb)⟩
    intro q k hq _ hf
    obtain ⟨hk, hm | ⟨c, hc, hin⟩⟩ := h.info q k hq (by simp) hf
    · exact ⟨hk, .inl hm⟩
    · exact ⟨hk, .inr ⟨c, hperm.mem_iff.mp hc, hin⟩⟩
  obtain ⟨hm, hle⟩ := hhand.mergeUp (n := maxOrder - o) (by omega) (fun k hf => absurd hf (h.not_isFree k))
  exact hm.physFreeBlock hle

/-! ## Counting -/

section

variable (h : PhysInv s none live S) (h0 : 0 ∉ S)

include h

/-- Free and outstanding pages are together as many as the memory has. -/
theorem PhysInv.pages_eq : (s.free_pages + pageCount live) * pageSize = S.ncard := by
  have hsum : ∀ L : List Block, (∀ b ∈ L, pageShift ≤ b.order) →
      (L.map fun b => 2^b.order).sum = pageCount L * pageSize := by
    intro L hL
    induction L with
    | nil => rfl
    | cons b L ih =>
      rw [forall_mem_cons] at hL
      have hb : 2^b.order = 2^(b.order - pageShift) * pageSize := by
        rw [show pageSize = 2^pageShift from rfl, ← pow_add, Nat.sub_add_cancel hL.1]
      rw [map_cons, sum_cons, ih hL.2, pageCount_cons, hb, add_mul]
  rw [h.tiles.ncard.2, hsum _ fun b hb => (h.aligned b hb).2, h.count]
  simp [pageCount]

include h0

/-- A block is found while one of the lists is not empty. -/
theorem PhysInv.allocFrom_ne_zero (hn : o + n ≤ maxOrder + 1)
    (hfree : ∃ k, o ≤ k ∧ k < o + n ∧ s.lists k ≠ []) : (Mm.allocFrom order n o s).1 ≠ 0 := by
  induction n generalizing o with
  | zero => omega
  | succ n ih =>
    unfold Mm.allocFrom
    split
    · rename_i hnil
      obtain ⟨k, hk, hk', hne⟩ := hfree
      have hko : k ≠ o := fun e => hne (e ▸ hnil)
      exact ih (by omega) ⟨k, by omega, by omega, hne⟩
    · rename_i paddr next hl
      intro hz
      have hmem : blk paddr o ∈ s.freeBlocks ++ live :=
        mem_append_left _ (mem_freeBlocks.mpr ⟨o, by omega, paddr, by simp [hl], rfl⟩)
      have hz : paddr = 0 := hz
      exact h0 ((h.tiles.cover 0).mpr ⟨_, hmem, hz ▸ base_mem _⟩)

theorem PhysInv.ammPhysAlloc_ne_zero_of_list {k : ℕ} (he : s.g_early_boot = false) (hle : order ≤ k)
    (hk : k ≤ maxOrder) (hne : s.lists k ≠ []) : (Mm.ammPhysAlloc order s).1 ≠ 0 := by
  unfold Mm.ammPhysAlloc
  rw [he, if_neg Bool.false_ne_true, if_neg (by omega)]
  exact h.allocFrom_ne_zero h0 (by omega) ⟨k, hle, by omega, hne⟩

/-- A page is found while there are free pages. -/
theorem PhysInv.ammPhysAlloc_ne_zero (he : s.g_early_boot = false) (hfree : s.free_pages ≠ 0) :
    (Mm.ammPhysAlloc 0 s).1 ≠ 0 := by
  have hlists : ∃ k ≤ maxOrder, s.lists k ≠ [] := by
    by_contra hnone
    have hnil : s.freeBlocks = [] := by
      rw [eq_nil_iff_forall_not_mem]
      intro b hb
      obtain ⟨k, hk, p, hp, -⟩ := mem_freeBlocks.mp hb
      exact hnone ⟨k, hk, ne_nil_of_mem hp⟩
    rw [h.count, hnil] at hfree
    exact hfree rfl
  obtain ⟨k, hk, hne⟩ := hlists
  exact h.ammPhysAlloc_ne_zero_of_list h0 he (zero_le k) hk hne

end

end FreeAsd.Mm
