import FreeAsd.Mm.PhysInvariant

/-!
# Whole runs of the physical allocator

`amm_phys_init` hands over the free regions of the memory map without the bump pool (`PhysInv.ammPhysInit`),
and every later allocation and release keeps the invariant. A merge can cross the boundary of two regions;
the invariant does not mention regions.
-/

namespace FreeAsd.Mm

open Nat List PhysState

variable {s : PhysState} {m : AsdMmapEntry} {live : List Block} {S : Set ℕ} {p o base stop : ℕ}

/-! ## Handing over a range -/

/-- A block of new addresses joins the free blocks. -/
theorem PhysInv.add (h : PhysInv s none live S) (ho : o ≤ maxOrder) (hal : (blk p o).Aligned)
    (hnew : ∀ a ∈ blk p o, a ∉ S) :
    PhysInv (Mm.physFreeBlock s p o) none live (S ∪ {a | a ∈ blk p o}) := by
  refine PhysInv.push ho ?_ (h.tiles.add hnew) ?_ h.count h.held
  · intro b hb
    rcases mem_cons.mp hb with rfl | hb
    · exact ⟨hal, by simp⟩
    · exact h.aligned b hb
  · intro q k hq _ hne hf
    obtain ⟨hk, hm | ⟨c, hc, hin⟩⟩ := h.info q k hq hne hf
    · exact ⟨hk, .inl hm⟩
    · exact ⟨hk, .inr ⟨c, mem_cons_of_mem _ hc, hin⟩⟩

/-- The order that `phys_free_range` chooses fits the rest of the range and the alignment of its
next page. -/
theorem fitOrder_spec {pages i : ℕ} (hb : pageSize ∣ base) (hi : i < pages) (n : ℕ) :
    i + 1 <<< fitOrder base pages i n ≤ pages ∧
      (blk (base + i * pageSize) (fitOrder base pages i n)).Aligned ∧
      fitOrder base pages i n ≤ n := by
  induction n with
  | zero =>
    refine ⟨hi, ?_, le_rfl⟩
    show 2^(0 + pageShift) ∣ base + i * pageSize
    exact hb.add (dvd_mul_left _ _)
  | succ n ih =>
    unfold fitOrder
    dsimp only
    split_ifs with h1 h2
    · exact ⟨ih.1, ih.2.1, ih.2.2.trans (le_succ n)⟩
    · exact ⟨ih.1, ih.2.1, ih.2.2.trans (le_succ n)⟩
    refine ⟨Nat.le_of_not_lt h1, ?_, le_rfl⟩
    -- The mask test is the remainder by the size of the block.
    have hsize : 1 <<< (n + 1) * pageSize = 2^(n + 1 + pageShift) := by
      rw [one_shiftLeft, pow_add _ (n + 1)]; rfl
    rw [not_not, hsize, and_two_pow_sub_one_eq_mod] at h2
    exact dvd_of_mod_eq_zero h2

/-- `phys_free_range` from page `i` on hands over the rest of the range. -/
theorem PhysInv.physFreeRangeLoop {pages i : ℕ} (h : PhysInv s none live S) (fuel : ℕ)
    (hb : pageSize ∣ base) (hfuel : pages ≤ i + fuel)
    (hnew : ∀ a ∈ Set.Ico (base + i * pageSize) (base + pages * pageSize), a ∉ S) :
    PhysInv (physFreeRangeLoop base pages fuel i s) none live
      (S ∪ Set.Ico (base + i * pageSize) (base + pages * pageSize)) := by
  induction fuel generalizing i s S with
  | zero =>
    have hle : pages * pageSize ≤ i * pageSize := mul_le_mul_right _ hfuel
    rw [Set.Ico_eq_empty (by omega), Set.union_empty]
    exact h
  | succ fuel ih =>
    unfold Mm.physFreeRangeLoop
    split_ifs with hi
    · obtain ⟨hfit, hal, hle⟩ := fitOrder_spec hb hi maxOrder
      generalize fitOrder base pages i maxOrder = order at *
      have hend : (i + 1 <<< order) * pageSize ≤ pages * pageSize := mul_le_mul_right _ hfit
      have hsum : (i + 1 <<< order) * pageSize = i * pageSize + 1 <<< order * pageSize := add_mul _ _ _
      have hblk : {a | a ∈ blk (base + i * pageSize) order} =
          Set.Ico (base + i * pageSize) (base + (i + 1 <<< order) * pageSize) := by
        have hsize : 2^(blk (base + i * pageSize) order).order = 1 <<< order * pageSize := by
          rw [one_shiftLeft, blk_order, pow_add]; rfl
        ext a
        show a ∈ blk (base + i * pageSize) order ↔ _
        rw [Block.mem_def, hsize, blk_base, hsum, add_assoc, Set.mem_Ico]
      have hadd := h.add hle hal (fun a ha => by
        have ha : a ∈ {a | a ∈ blk (base + i * pageSize) order} := ha
        rw [hblk] at ha
        exact hnew a ⟨ha.1, ha.2.trans_le (by omega)⟩)
      rw [hblk] at hadd
      have hpos : 1 ≤ 1 <<< order := by rw [Nat.one_shiftLeft]; exact Nat.one_le_two_pow
      have hrest := ih (i := i + 1 <<< order) hadd (by omega) (fun a ha => by
        rw [Set.mem_union, not_or]
        rw [Set.mem_Ico] at ha
        exact ⟨hnew a ⟨by omega, ha.2⟩, fun hm => by rw [Set.mem_Ico] at hm; omega⟩)
      -- The block and what the rest of the loop hands over make up the range.
      rwa [Set.union_assoc, Set.Ico_union_Ico_eq_Ico (by omega) (by omega)] at hrest
    · have hle : pages * pageSize ≤ i * pageSize := Nat.mul_le_mul_right _ (Nat.le_of_not_lt hi)
      rw [Set.Ico_eq_empty (by omega), Set.union_empty]
      exact h

/-- Handing over the pages between two page boundaries. -/
theorem PhysInv.physHandOver (h : PhysInv s none live S) (hb : pageSize ∣ base)
    (hs : pageSize ∣ stop) (hle : base ≤ stop) (hnew : ∀ a ∈ Set.Ico base stop, a ∉ S) :
    PhysInv (physHandOver s base stop) none live (S ∪ Set.Ico base stop) := by
  have hpages : base + (stop - base) >>> pageShift * pageSize = stop := by
    obtain ⟨i, rfl⟩ := hb
    obtain ⟨j, rfl⟩ := hs
    rw [shiftRight_eq_div_pow]
    simp only [pageSize, pageShift] at *
    omega
  have hr := h.physFreeRangeLoop (i := 0) ((stop - base) >>> pageShift) hb (le_add_left _ 0)
    (by rw [hpages, zero_mul]; exact hnew)
  rw [hpages, zero_mul] at hr
  exact { hr with }

/-! ## The bump pool -/

/-- The variables that only the boot code writes: `g_early_boot` and the bump pool. -/
def PhysState.boot (s : PhysState) : Bool × ℕ × ℕ × ℕ :=
  (s.g_early_boot, s.g_bump_base, s.g_bump_cur, s.g_bump_end)

theorem boot_physFreeRangeLoop (base pages fuel i : ℕ) (s : PhysState) :
    (physFreeRangeLoop base pages fuel i s).boot = s.boot := by
  induction fuel generalizing i s with
  | zero => rfl
  | succ fuel ih =>
    unfold physFreeRangeLoop
    split_ifs
    · exact ih _ _
    · rfl

theorem boot_physHandOver (s : PhysState) (base stop : ℕ) : (physHandOver s base stop).boot = s.boot :=
  boot_physFreeRangeLoop _ _ _ _ s

/-- The addresses of the bump pool. -/
def PhysState.pool (s : PhysState) : Set ℕ := Set.Ico s.g_bump_base s.g_bump_end

theorem pool_of_boot {s t : PhysState} (h : t.boot = s.boot) : t.pool = s.pool := by
  simp only [boot, Prod.mk.injEq] at h
  unfold pool
  rw [h.2.1, h.2.2.2]

/-- The bounds of the bump pool as `bump_init` sets them: whole pages, and zero only for an empty
pool. -/
structure PoolOk (s : PhysState) : Prop where
  base : pageSize ∣ s.g_bump_base
  stop : pageSize ∣ s.g_bump_end
  le : s.g_bump_base ≤ s.g_bump_end
  zero : s.g_bump_base = 0 → s.g_bump_end = 0

theorem PoolOk.congr {s t : PhysState} (h : PoolOk s) (e : t.boot = s.boot) : PoolOk t := by
  simp only [boot, Prod.mk.injEq] at e
  obtain ⟨-, e1, -, e2⟩ := e
  exact ⟨e1 ▸ h.base, e2 ▸ h.stop, e1 ▸ e2 ▸ h.le, e1 ▸ e2 ▸ h.zero⟩

/-- The whole pages of a region with a page-aligned base are all of it. -/
theorem mmapRange_eq (hb : pageSize ∣ m.base) (hl : m.limit ≤ 2^52) : mmapRange m = (m.base, m.limit) := by
  obtain ⟨i, hi⟩ := hb
  unfold AsdMmapEntry.limit at hl ⊢
  unfold mmapRange pageAlign pageAlignDown
  rw [hi] at hl ⊢
  simp only [pageSize, Prod.mk.injEq] at *
  omega

/-- The addresses that `amm_phys_init` takes from a map entry: those of a free region outside the
bump pool. -/
def handed (pool : Set ℕ) (m : AsdMmapEntry) : Set ℕ := {a | m.type = .free ∧ a ∈ m ∧ a ∉ pool}

theorem mem_handed {pool : Set ℕ} {a : ℕ} :
    a ∈ handed pool m ↔ m.type = .free ∧ a ∈ m ∧ a ∉ pool := Iff.rfl

theorem PhysInv.physHandOver_ite (h : PhysInv s none live S) (hb : pageSize ∣ base)
    (hs : pageSize ∣ stop) (hnew : ∀ a ∈ Set.Ico base stop, a ∉ S) :
    PhysInv (if base < stop then Mm.physHandOver s base stop else s) none live
      (S ∪ Set.Ico base stop) := by
  split_ifs with hlt
  · exact h.physHandOver hb hs hlt.le hnew
  · rw [Set.Ico_eq_empty hlt, Set.union_empty]
    exact h

theorem boot_physHandOver_ite (s : PhysState) (base stop : ℕ) :
    (if base < stop then physHandOver s base stop else s).boot = s.boot := by
  split_ifs
  · exact boot_physHandOver s base stop
  · rfl

theorem boot_ammPhysInitEntry (s : PhysState) (m : AsdMmapEntry) : (ammPhysInitEntry s m).boot = s.boot := by
  unfold ammPhysInitEntry
  dsimp only
  split_ifs <;> first | rfl | (simp only [boot_physHandOver]; rfl)

/-- One map entry. -/
theorem PhysInv.ammPhysInitEntry (h : PhysInv s none live S) (hpool : PoolOk s)
    (hb : m.type = .free → pageSize ∣ m.base) (hl : m.type = .free → m.limit ≤ 2^52)
    (hnew : ∀ a ∈ handed s.pool m, a ∉ S) :
    PhysInv (ammPhysInitEntry s m) none live (S ∪ handed s.pool m) := by
  unfold Mm.ammPhysInitEntry
  by_cases ht : m.type = .free
  · rw [if_neg (not_not.mpr ht), mmapRange_eq (hb ht) (hl ht)]
    have hlim : pageSize ∣ m.limit := (hb ht).add (dvd_mul_left _ _)
    dsimp only
    by_cases hempty : m.limit ≤ m.base
    · rw [if_pos hempty]
      have hnone : handed s.pool m = ∅ := by
        ext a
        simp only [mem_handed, AsdMmapEntry.mem_def, Set.mem_empty_iff_false, iff_false]
        omega
      rw [hnone, Set.union_empty]
      exact h
    rw [if_neg hempty]
    have h0 : PhysInv { s with phys_base := min m.base s.phys_base,
                               phys_top := max m.limit s.phys_top } none live S :=
      { h with }
    by_cases hover : s.g_bump_base ≠ 0 ∧ m.base < s.g_bump_end ∧ m.limit > s.g_bump_base
    · rw [if_pos hover]
      -- What is below the pool, then what is above it.
      have hset : handed s.pool m = Set.Ico m.base s.g_bump_base ∪ Set.Ico s.g_bump_end m.limit := by
        have hle := hpool.le
        ext a
        simp only [mem_handed, ht, AsdMmapEntry.mem_def, pool, Set.mem_Ico, Set.mem_union, true_and]
        omega
      rw [hset] at hnew ⊢
      have h1 := h0.physHandOver_ite (hb ht) hpool.base (fun a ha => hnew a (Set.mem_union_left _ ha))
      have e1 := boot_physHandOver_ite { s with phys_base := min m.base s.phys_base,
                                                phys_top := max m.limit s.phys_top }
        m.base s.g_bump_base
      generalize (if m.base < s.g_bump_base then _ else _ : PhysState) = s1 at h1 e1 ⊢
      simp only [boot, Prod.mk.injEq] at e1
      rw [e1.2.2.2, ← Set.union_assoc]
      refine h1.physHandOver_ite hpool.stop hlim fun a ha => ?_
      rw [Set.mem_union, not_or]
      refine ⟨hnew a (Set.mem_union_right _ ha), fun hm => ?_⟩
      have hle := hpool.le
      rw [Set.mem_Ico] at ha hm
      omega
    · rw [if_neg hover]
      -- The pool is empty or misses the region.
      have hset : handed s.pool m = Set.Ico m.base m.limit := by
        have hzero := hpool.zero
        ext a
        simp only [mem_handed, ht, AsdMmapEntry.mem_def, pool, Set.mem_Ico, true_and]
        omega
      rw [hset] at hnew ⊢
      exact h0.physHandOver (hb ht) hlim (Nat.le_of_not_le hempty) hnew
  · rw [if_pos ht]
    have hnone : handed s.pool m = ∅ := by
      ext a; simp [mem_handed, ht]
    rw [hnone, Set.union_empty]
    exact h

/-- The loop over the map. -/
theorem PhysInv.foldl_ammPhysInitEntry {l : List AsdMmapEntry} (h : PhysInv s none live S)
    (hpool : PoolOk s) (hb : ∀ m ∈ l, m.type = .free → pageSize ∣ m.base)
    (hl : ∀ m ∈ l, m.type = .free → m.limit ≤ 2^52)
    (hd : l.Pairwise fun e f => e.type = .free → f.type = .free → ∀ a, a ∈ e → a ∉ f)
    (hnew : ∀ m ∈ l, ∀ a ∈ handed s.pool m, a ∉ S) :
    PhysInv (l.foldl Mm.ammPhysInitEntry s) none live (S ∪ {a | ∃ m ∈ l, a ∈ handed s.pool m}) := by
  induction l generalizing s S with
  | nil =>
    have hnone : {a | ∃ m ∈ ([] : List AsdMmapEntry), a ∈ handed s.pool m} = ∅ := by
      ext a; simp
    rw [hnone, Set.union_empty]
    exact h
  | cons m l ih =>
    rw [forall_mem_cons] at hb hl hnew
    rw [pairwise_cons] at hd
    have h1 := h.ammPhysInitEntry hpool hb.1 hl.1 hnew.1
    have e1 := boot_ammPhysInitEntry s m
    have hp1 := pool_of_boot e1
    have h2 := ih h1 (hpool.congr e1) hb.2 hl.2 hd.2 (by
      rw [hp1]
      intro n hn a ha
      rw [Set.mem_union, not_or]
      exact ⟨hnew.2 n hn a ha, fun hm => hd.1 n hn hm.1 ha.1 a hm.2.1 ha.2.1⟩)
    have hset : S ∪ handed s.pool m ∪ {a | ∃ n ∈ l, a ∈ handed s.pool n} =
        S ∪ {a | ∃ n ∈ m :: l, a ∈ handed s.pool n} := by
      rw [Set.union_assoc]
      congr 1
      ext a
      simp
    rwa [hp1, hset] at h2

theorem boot_foldl_ammPhysInitEntry (l : List AsdMmapEntry) (s : PhysState) :
    (l.foldl ammPhysInitEntry s).boot = s.boot := by
  induction l generalizing s with
  | nil => rfl
  | cons m l ih => rw [foldl_cons, ih, boot_ammPhysInitEntry]

/-- The addresses that `amm_phys_init` hands over: the free regions without the bump pool. -/
def handedOver (mm : MemoryMap) (s : PhysState) : Set ℕ :=
  {a | ∃ m ∈ mm.entries, a ∈ handed s.pool m}

/-- `amm_phys_init` establishes the invariant with nothing outstanding, when no page has a record
yet. -/
theorem PhysInv.ammPhysInit (mm : MemoryMap) (hpool : PoolOk s) (hinfo : ∀ i, (s.page_info i).flags = 0) :
    PhysInv (ammPhysInit mm.entries s) none [] (handedOver mm s) := by
  have h0 : PhysInv s.clear none [] ∅ := by
    have hfree : s.clear.freeBlocks = [] := by
      generalize maxOrder + 1 = n
      induction n with
      | zero => rfl
      | succ n ih => exact ih
    refine ⟨?_, ?_, ?_, ?_, by simp⟩
    · rw [hfree]; simp
    · rw [hfree]; exact Tiles.nil
    · intro p k _ _ hf
      exact absurd (by simp [pageInfo, clear, hinfo]) hf.1
    · rw [hfree]; rfl
  have h := h0.foldl_ammPhysInitEntry (hpool.congr rfl) mm.aligned mm.fits mm.disjoint
    (fun _ _ _ _ => Set.notMem_empty _)
  rwa [Set.empty_union] at h

/-! ## Boot -/

/-- The state in which `amm_phys_init` is called: after the early scan of the map, with the kernel
page tables built from the pool below `cur`. The records of `PAGE_INFO_BASE` are in zeroed pages. -/
def bootPhys (mmap : List AsdMmapEntry) (cur : ℕ) : PhysState :=
  { ammEarlyPhysScan mmap PhysState.start with g_bump_cur := cur, g_early_boot := false }

theorem page_dvd_pageAlign (x : ℕ) : pageSize ∣ pageAlign x := dvd_mul_left _ _

/-- The pool of the first loop of `bump_init` is 64 MiB of whole pages above 1 MiB. -/
theorem bumpInitFirst_spec {mmap : List AsdMmapEntry} (h : bumpInitFirst mmap = some (base, stop)) :
    pageSize ∣ base ∧ 0x100000 ≤ base ∧ stop = base + bumpSize ∧
      ∃ m ∈ mmap, m.type = .free ∧ (mmapRange m).1 ≤ base ∧ stop ≤ (mmapRange m).2 := by
  induction mmap with
  | nil => simp [bumpInitFirst] at h
  | cons m rest ih =>
    have hmono : (∃ m ∈ rest, m.type = .free ∧ (mmapRange m).1 ≤ base ∧ stop ≤ (mmapRange m).2) →
        ∃ m' ∈ m :: rest, m'.type = .free ∧ (mmapRange m').1 ≤ base ∧ stop ≤ (mmapRange m').2 :=
      fun ⟨m', hm', hin⟩ => ⟨m', mem_cons_of_mem _ hm', hin⟩
    unfold bumpInitFirst at h
    dsimp only at h
    split_ifs at h with ht hsmall
    · exact (ih h).imp_right (And.imp_right (And.imp_right hmono))
    · exact (ih h).imp_right (And.imp_right (And.imp_right hmono))
    simp only [Option.some.injEq, Prod.mk.injEq] at h
    obtain ⟨rfl, rfl⟩ := h
    refine ⟨?_, le_max_right _ _, rfl, m, mem_cons_self, not_not.mp ht, le_max_left _ _,
      by omega⟩
    rcases max_choice (mmapRange m).1 0x100000 with e | e <;> rw [e]
    · exact page_dvd_pageAlign _
    · exact ⟨256, rfl⟩

/-- The fallback loop keeps the pool well formed: it takes whole regions, none of which starts at
address 0. -/
theorem PoolOk.bumpInitLargest (h : PoolOk s)
    (hm : m.type = .free → pageSize ∣ m.base ∧ m.limit ≤ 2^52 ∧ 0 ∉ m) :
    PoolOk (bumpInitLargest s m) := by
  unfold Mm.bumpInitLargest
  dsimp only
  split_ifs with ht hlt
  · exact h
  · obtain ⟨hb, hl, h0⟩ := hm (not_not.mp ht)
    rw [mmapRange_eq hb hl] at hlt ⊢
    refine ⟨hb, hb.add (dvd_mul_left _ _), hlt.1.le, ?_⟩
    intro hz
    have hz : m.base = 0 := hz
    exact absurd ⟨hz.le, hz ▸ hlt.1⟩ h0
  · exact h

theorem PoolOk.ammEarlyPhysScanEntry (h : PoolOk s) (m : AsdMmapEntry) :
    PoolOk (ammEarlyPhysScanEntry s m) := by
  unfold Mm.ammEarlyPhysScanEntry
  dsimp only
  split_ifs <;> exact { h with }

/-- The early scan of a map without frame 0 sets up a well-formed pool. -/
theorem poolOk_bootPhys (mm : MemoryMap) (h0 : ∀ m ∈ mm.entries, m.type = .free → 0 ∉ m)
    (cur : ℕ) : PoolOk (bootPhys mm.entries cur) := by
  have hstart : PoolOk (mm.entries.foldl Mm.ammEarlyPhysScanEntry start.clear) :=
    foldlRecOn mm.entries _ ⟨dvd_zero _, dvd_zero _, le_rfl, fun _ => rfl⟩
      fun s hs m _ => hs.ammEarlyPhysScanEntry m
  suffices h : PoolOk (ammEarlyPhysScan mm.entries start) from
    { h with }
  unfold ammEarlyPhysScan bumpInit
  split
  · rename_i base stop hfirst
    obtain ⟨hb, hlo, rfl, -⟩ := bumpInitFirst_spec hfirst
    exact ⟨hb, hb.add ⟨16384, rfl⟩, le_add_right _ _, fun hz => absurd hz (by show base ≠ 0; omega)⟩
  · exact foldlRecOn mm.entries _ hstart fun s hs m hm =>
      hs.bumpInitLargest fun ht => ⟨mm.aligned m hm ht, mm.fits m hm ht, h0 m hm ht⟩

/-- No page has a record before `amm_phys_init`. -/
theorem flags_bootPhys (mmap : List AsdMmapEntry) (cur i : ℕ) :
    ((bootPhys mmap cur).page_info i).flags = 0 := by
  have hscan : (mmap.foldl Mm.ammEarlyPhysScanEntry start.clear).page_info = start.page_info := by
    refine foldlRecOn (motive := fun s : PhysState => s.page_info = start.page_info)
      mmap _ rfl fun s hs m _ => ?_
    unfold Mm.ammEarlyPhysScanEntry
    dsimp only
    split_ifs <;> exact hs
  have hboot : (bootPhys mmap cur).page_info = start.page_info := by
    show (bumpInit (mmap.foldl Mm.ammEarlyPhysScanEntry start.clear) mmap).page_info = _
    unfold bumpInit
    split
    · exact hscan
    refine foldlRecOn (motive := fun s : PhysState => s.page_info = start.page_info)
      mmap _ hscan fun s hs m _ => ?_
    unfold bumpInitLargest
    dsimp only
    split_ifs <;> exact hs
  rw [hboot]
  rfl

/-! ## Runs -/

theorem boot_splitDown (order n : ℕ) (s : PhysState) : (splitDown p order n s).boot = s.boot := by
  induction n generalizing s with
  | zero => rfl
  | succ n ih => exact ih _

theorem boot_allocFrom (order n : ℕ) (s : PhysState) : (allocFrom order n o s).2.boot = s.boot := by
  induction n generalizing o with
  | zero => rfl
  | succ n ih =>
    unfold allocFrom
    split
    · exact ih
    · exact boot_splitDown order _ _

theorem boot_ammPhysAlloc (order : ℕ) (he : s.g_early_boot = false) :
    (ammPhysAlloc order s).2.boot = s.boot := by
  unfold ammPhysAlloc
  rw [he, if_neg Bool.false_ne_true]
  split_ifs
  · rfl
  · exact boot_allocFrom order _ s

theorem boot_mergeUp (n : ℕ) (s : PhysState) : (mergeUp n p o s).2.2.boot = s.boot := by
  induction n generalizing p o s with
  | zero => rfl
  | succ n ih =>
    unfold mergeUp
    dsimp only
    rw [← min_def_lt]
    split_ifs
    · rfl
    · rw [ih]
      unfold unlink
      split_ifs <;> rfl

theorem boot_ammPhysFree (s : PhysState) : (ammPhysFree p o s).boot = s.boot := boot_mergeUp (maxOrder - o) s

/-- The allocator together with the outstanding allocations, each an address and an order. -/
structure PhysRun where
  phys : PhysState
  live : List (ℕ × ℕ)

/-- The blocks of the outstanding allocations. -/
def PhysRun.outstanding (r : PhysRun) : List Block := r.live.map fun b => blk b.1 b.2

/-- A call of `amm_phys_alloc` or `amm_phys_free` by a caller that frees what it has. -/
inductive PhysStep : PhysRun → PhysRun → Prop
  | alloc (r : PhysRun) {order p : ℕ} {s : PhysState} (ho : order ≤ maxOrder)
      (h : ammPhysAlloc order r.phys = (p, s)) (hp : p ≠ 0) : PhysStep r ⟨s, (p, order) :: r.live⟩
  | allocFails (r : PhysRun) {order : ℕ} {s : PhysState} (ho : order ≤ maxOrder)
      (h : ammPhysAlloc order r.phys = (0, s)) : PhysStep r ⟨s, r.live⟩
  | free (r : PhysRun) {p o : ℕ} (h : (p, o) ∈ r.live) :
      PhysStep r ⟨ammPhysFree p o r.phys, r.live.erase (p, o)⟩

/-- What a run keeps: the allocator's invariant for the outstanding blocks, whose orders are those
of calls to `amm_phys_alloc`, with the early boot over. -/
structure PhysRun.Inv (S : Set ℕ) (r : PhysRun) : Prop where
  inv : PhysInv r.phys none r.outstanding S
  order : ∀ b ∈ r.live, b.2 ≤ maxOrder
  late : r.phys.g_early_boot = false

/-- A block that is handed out is outstanding. -/
theorem PhysRun.Inv.alloc {r : PhysRun} {order : ℕ} (h : r.Inv S) (ho : order ≤ maxOrder)
    (ha : ammPhysAlloc order r.phys = (p, s)) (hp : p ≠ 0) :
    PhysRun.Inv S ⟨s, (p, order) :: r.live⟩ := by
  have hb := boot_ammPhysAlloc order h.late
  have hi := h.inv.ammPhysAlloc order h.late
  rw [ha] at hb hi
  refine ⟨?_, forall_mem_cons.mpr ⟨ho, h.order⟩, (congrArg Prod.fst hb).trans h.late⟩
  exact hi.resolve_left fun e => hp (congrArg Prod.fst e)

/-- Every call keeps the invariant, when address 0 is not part of the memory: an allocation that
returns 0 has then changed nothing. -/
theorem PhysRun.Inv.step {r r' : PhysRun} (h0 : 0 ∉ S) (h : r.Inv S) (hs : PhysStep r r') : r'.Inv S := by
  cases hs with
  | @alloc order p s ho ha hp => exact h.alloc ho ha hp
  | @allocFails order s ho ha =>
    have hi := h.inv.ammPhysAlloc order h.late
    rw [ha] at hi
    obtain rfl : s = r.phys := by
      rcases hi with e | hi
      · exact congrArg Prod.snd e
      · have hm : blk 0 order ∈ s.freeBlocks ++ blk 0 order :: r.outstanding := by simp
        exact absurd ((hi.tiles.cover 0).mpr ⟨_, hm, Block.base_mem _⟩) h0
    exact h
  | @free p o hm =>
    have hperm : r.outstanding.Perm
        (blk p o :: (PhysRun.mk (ammPhysFree p o r.phys) (r.live.erase (p, o))).outstanding) :=
      (perm_cons_erase hm).map fun b : ℕ × ℕ => blk b.1 b.2
    have hi := h.inv.perm hperm
    refine ⟨hi.ammPhysFree (h.order _ hm), fun b hb => h.order b (mem_of_mem_erase hb), ?_⟩
    exact (congrArg Prod.fst (boot_ammPhysFree r.phys)).trans h.late

/-- Address 0 is not handed over when no free region contains it. -/
theorem zero_notMem_handedOver {mm : MemoryMap} (h0 : ∀ m ∈ mm.entries, m.type = .free → 0 ∉ m)
    (s : PhysState) : 0 ∉ handedOver mm s := by
  rintro ⟨m, hm, ht, hin, -⟩
  exact h0 m hm ht hin

/-- Every state that a run after boot reaches. -/
theorem PhysRun.inv_of_run (mm : MemoryMap) (h0 : ∀ m ∈ mm.entries, m.type = .free → 0 ∉ m)
    {cur : ℕ} {r : PhysRun} (hr : Relation.ReflTransGen PhysStep
      ⟨ammPhysInit mm.entries (bootPhys mm.entries cur), []⟩ r) :
    r.Inv (handedOver mm (bootPhys mm.entries cur)) := by
  refine Runs.invariant hr ⟨?_, by simp, ?_⟩
    fun _ _ ha hs => ha.step (zero_notMem_handedOver h0 _) hs
  · exact PhysInv.ammPhysInit mm (poolOk_bootPhys mm h0 cur) (flags_bootPhys mm.entries cur)
  · exact congrArg Prod.fst (boot_foldl_ammPhysInitEntry mm.entries (bootPhys mm.entries cur).clear)

/-- The pages on the lists of the orders below `n`, counted list by list. -/
theorem pageCount_freeBelow (lists : ℕ → List ℕ) (n : ℕ) :
    pageCount (freeBelow lists n) = ∑ k ∈ Finset.range n, 2^k * (lists k).length := by
  induction n with
  | zero => rfl
  | succ n ih =>
    have hlist : pageCount ((lists n).map (blk · n)) = 2^n * (lists n).length := by
      simp [pageCount, Function.comp_def, mul_comm]
    rw [Finset.sum_range_succ, ← ih, ← hlist, add_comm (pageCount _)]
    simp [pageCount, freeBelow]

/-- In every state of every run after boot: the blocks on the free lists are aligned, no two blocks, free
or outstanding, share an address, together they are the memory that `amm_phys_init` handed over, and
`free_pages` counts the pages on the lists. -/
theorem phys_run_tiles (mm : MemoryMap) (h0 : ∀ m ∈ mm.entries, m.type = .free → 0 ∉ m)
    (cur : ℕ) {r : PhysRun} (hr : Relation.ReflTransGen PhysStep
      ⟨ammPhysInit mm.entries (bootPhys mm.entries cur), []⟩ r) :
    (∀ k ≤ maxOrder, ∀ p ∈ r.phys.lists k, 2^k * pageSize ∣ p) ∧
      (r.phys.freeBlocks ++ r.outstanding).Pairwise Block.Apart ∧
      (∀ a, a ∈ handedOver mm (bootPhys mm.entries cur) ↔
        (∃ k ≤ maxOrder, ∃ p ∈ r.phys.lists k, a ∈ blk p k) ∨
          ∃ b ∈ r.live, a ∈ blk b.1 b.2) ∧
      r.phys.free_pages = ∑ k ∈ Finset.range (maxOrder + 1), 2^k * (r.phys.lists k).length := by
  obtain ⟨hinv, -, -⟩ := PhysRun.inv_of_run mm h0 hr
  refine ⟨?_, hinv.tiles.apart, ?_, ?_⟩
  · intro k hk p hp
    have hmem : blk p k ∈ r.phys.freeBlocks ++ r.outstanding :=
      mem_append_left _ (mem_freeBlocks.mpr ⟨k, hk, p, hp, rfl⟩)
    have hal : 2^(k + pageShift) ∣ p := (hinv.aligned _ hmem).1
    rwa [pow_add] at hal
  · intro a
    rw [hinv.tiles.cover a]
    simp only [Option.toList_none, nil_append, mem_append, or_and_right, exists_or,
      mem_freeBlocks, PhysRun.outstanding, mem_map]
    constructor
    · rintro (⟨b, ⟨k, hk, p, hp, rfl⟩, ha⟩ | ⟨_, ⟨b, hb, rfl⟩, ha⟩)
      · exact .inl ⟨k, hk, p, hp, ha⟩
      · exact .inr ⟨b, hb, ha⟩
    · rintro (⟨k, hk, p, hp, ha⟩ | ⟨b, hb, ha⟩)
      · exact .inl ⟨_, ⟨k, hk, p, hp, rfl⟩, ha⟩
      · exact .inr ⟨_, ⟨b, hb, rfl⟩, ha⟩
  · rw [hinv.count]
    exact pageCount_freeBelow _ _

theorem twoRegions_apart : [⟨0x10000, 2, .free⟩, ⟨0x20000, 3, .free⟩].Pairwise fun e f : AsdMmapEntry =>
    e.type = .free → f.type = .free → ∀ a, a ∈ e → a ∉ f := by
  simp [AsdMmapEntry.mem_def, AsdMmapEntry.limit, pageSize]
  omega

/-- Two small free regions: the bump pool takes the larger one. -/
def twoRegions : MemoryMap where
  entries := [⟨0x10000, 2, .free⟩, ⟨0x20000, 3, .free⟩]
  aligned := by decide
  fits := by decide
  disjoint := twoRegions_apart

/-- After one allocation from the two regions, one page is free and one is outstanding. -/
theorem phys_run_tiles_twoRegions :
    ∃ r : PhysRun, r.live = [(0x10000, 0)] ∧
      (r.phys.freeBlocks ++ r.outstanding).Pairwise Block.Apart ∧ r.phys.free_pages = 1 := by
  have h0 : ∀ m ∈ twoRegions.entries, m.type = .free → 0 ∉ m := by
    simp [twoRegions, AsdMmapEntry.mem_def]
  have hstep : PhysStep ⟨ammPhysInit twoRegions.entries (bootPhys twoRegions.entries 0), []⟩
      ⟨(ammPhysAlloc 0 (ammPhysInit twoRegions.entries (bootPhys twoRegions.entries 0))).2,
        [(0x10000, 0)]⟩ :=
    .alloc _ (by decide) rfl (by decide)
  obtain ⟨-, hap, -, -⟩ := phys_run_tiles twoRegions h0 0 (.single hstep)
  exact ⟨_, rfl, hap, by decide⟩

end FreeAsd.Mm
