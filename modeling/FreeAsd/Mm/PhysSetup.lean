import FreeAsd.Mm.KernelMap

/-!
# What the boot leaves to the page allocator

All other pages of the free regions should be on one list, and `amm_phys_alloc` should fail only for want of a
block. But the rest of the bump pool is lost (`exists_region_pool`), and frame 0 is taken for a failure
(`exists_run_zero`). There is no third way to fail (`phys_setup_iff`).
-/

namespace FreeAsd.Mm

open Nat List

variable {S : Set ℕ} {s : Machine}

/-! ## Failing for want of a block -/

/-- `amm_phys_alloc` returns 0 only when no block of the order or a larger one is free. -/
def PhysState.Truthful (s : PhysState) : Prop :=
  ∀ order, (ammPhysAlloc order s).1 = 0 → ∀ k, order ≤ k → k ≤ maxOrder → s.lists k = []

theorem PhysRun.Inv.truthful {r : PhysRun} (h : r.Inv S) (h0 : 0 ∉ S) : r.phys.Truthful := by
  intro order hz k hle hk
  by_contra hne
  exact h.inv.ammPhysAlloc_ne_zero_of_list h0 h.late hle hk hne hz

/-- While frame 0 is free, page after page can be taken until `amm_phys_alloc` returns it. -/
theorem exists_run_zero {r : PhysRun} (h : r.Inv S) (h0 : ∃ b ∈ r.phys.freeBlocks, 0 ∈ b) :
    ∃ r', Relation.ReflTransGen PhysStep r r' ∧ ¬r'.phys.Truthful := by
  -- By induction on the number of free pages, of which each call takes one.
  induction hn : r.phys.free_pages using Nat.strong_induction_on generalizing r with
  | _ n ih =>
    obtain ⟨b, hb, hin⟩ := h0
    by_cases hp : (ammPhysAlloc 0 r.phys).1 = 0
    · obtain ⟨k, hk, q, hq, -⟩ := mem_freeBlocks.mp hb
      exact ⟨r, .refl, fun ht => ne_nil_of_mem hq (ht 0 hp k (zero_le k) hk)⟩
    obtain ⟨p, s', ha⟩ : ∃ p s', ammPhysAlloc 0 r.phys = (p, s') := ⟨_, _, rfl⟩
    rw [ha] at hp
    have hi := h.alloc (zero_le _) ha hp
    -- Frame 0 is neither in the page taken nor in what was outstanding before.
    have hfree : ∃ c ∈ s'.freeBlocks, 0 ∈ c := by
      have hold : b ∈ r.phys.freeBlocks ++ r.outstanding := mem_append_left _ hb
      obtain ⟨c, hc, hzc⟩ := (hi.inv.tiles.cover 0).mp ((h.inv.tiles.cover 0).mpr ⟨b, hold, hin⟩)
      have hc : c ∈ s'.freeBlocks ++ blk p 0 :: r.outstanding := hc
      rcases mem_append.mp hc with hc | hc
      · exact ⟨c, hc, hzc⟩
      rcases mem_cons.mp hc with rfl | hc
      · exact absurd (le_zero.mp hzc.1) hp
      · have hap : (r.phys.freeBlocks ++ r.outstanding).Pairwise Block.Apart := h.inv.tiles.apart
        have hbc := (pairwise_append.mp hap).2.2 b hb c hc
        exact absurd hzc (Block.apart_iff.mp hbc 0 hin)
    have hless : s'.free_pages < n := by
      have hpages : (s'.free_pages + pageCount (blk p 0 :: r.outstanding)) * pageSize =
          (r.phys.free_pages + pageCount r.outstanding) * pageSize :=
        hi.inv.pages_eq.trans h.inv.pages_eq.symm
      have hone : pageCount (blk p 0 :: r.outstanding) = 1 + pageCount r.outstanding := by
        rw [pageCount_cons]
        rfl
      have hpages := eq_of_mul_eq_mul_right (by decide : 0 < pageSize) hpages
      omega
    obtain ⟨r', hrun, hbad⟩ := ih _ hless hi hfree rfl
    exact ⟨r', .head (.alloc r (zero_le _) ha hp) hrun, hbad⟩

/-! ## The pool -/

/-- The pool, unless there is none, is part of a free region. -/
theorem exists_region_pool (mm : MemoryMap) (h0 : (ammEarlyPhysScan mm.entries .start).g_bump_base ≠ 0) :
    ∃ m ∈ mm.entries, m.type = .free ∧
      m.base ≤ (ammEarlyPhysScan mm.entries .start).g_bump_base ∧
      (ammEarlyPhysScan mm.entries .start).g_bump_end ≤ m.limit := by
  have hscan : (mm.entries.foldl ammEarlyPhysScanEntry PhysState.start.clear).g_bump_base = 0 := by
    refine foldlRecOn (motive := fun s : PhysState => s.g_bump_base = 0) mm.entries _ rfl
      fun s hs m _ => ?_
    unfold ammEarlyPhysScanEntry
    dsimp only
    split_ifs <;> exact hs
  unfold ammEarlyPhysScan bumpInit at h0 ⊢
  split at h0
  · rename_i base stop hfirst
    obtain ⟨-, -, -, m, hm, ht, hlo, hhi⟩ := bumpInitFirst_spec hfirst
    rw [mmapRange_eq (mm.aligned m hm ht) (mm.fits m hm ht)] at hlo hhi
    exact ⟨m, hm, ht, hlo, hhi⟩
  · -- The fallback loop takes whole regions.
    refine (foldlRecOn (motive := fun s : PhysState => s.g_bump_base = 0 ∨ ∃ m ∈ mm.entries,
      m.type = .free ∧ m.base ≤ s.g_bump_base ∧ s.g_bump_end ≤ m.limit) mm.entries _
      (.inl hscan) fun s hs m hm => ?_).resolve_left h0
    unfold bumpInitLargest
    dsimp only
    split_ifs with ht hlt
    · exact hs
    · have ht : m.type = .free := not_not.mp ht
      rw [mmapRange_eq (mm.aligned m hm ht) (mm.fits m hm ht)]
      exact .inr ⟨m, hm, ht, le_rfl, le_rfl⟩
    · exact hs

/-- The pool after the boot: its bounds are those of the early scan, and whole pages were taken. -/
theorem boot_bump (mm : MemoryMap) {mem : Mem} (h : bootMachine mm.entries mem = some s) :
    s.phys.g_bump_base = (ammEarlyPhysScan mm.entries .start).g_bump_base ∧
      s.phys.g_bump_end = (ammEarlyPhysScan mm.entries .start).g_bump_end ∧
      s.phys.g_bump_base ≠ 0 ∧ 4096 ∣ s.phys.g_bump_cur ∧ 4096 ∣ s.phys.g_bump_end ∧
      s.phys.g_bump_base ≤ s.phys.g_bump_cur ∧ s.phys.g_bump_cur ≤ s.phys.g_bump_end ∧
      s.phys.g_bump_cur ≤ s.phys.g_bump_base +
        tablePages (ammEarlyPhysScan mm.entries .start).phys_top * 4096 := by
  obtain ⟨-, -, -, -, cur, hboot, h0, hcur, hlo, hhi, hused⟩ := boot_spaceInv mm h
  simp only [PhysState.boot, Prod.mk.injEq] at hboot
  obtain ⟨-, ebase, ecur, estop⟩ := hboot
  rw [ebase, ecur, estop]
  exact ⟨rfl, rfl, h0, hcur, (poolBounds_ammEarlyPhysScan mm).stop, hlo, hhi, hused⟩

/-! ## The set-up -/

/-- A block on the list of order `k` contains address `a`. -/
def PhysState.OnList (s : PhysState) (a k : ℕ) : Prop := k ≤ maxOrder ∧ ∃ q ∈ s.lists k, a ∈ blk q k

theorem PhysState.onList_iff {s : PhysState} {a : ℕ} : (∃ k, s.OnList a k) ↔ ∃ b ∈ s.freeBlocks, a ∈ b := by
  constructor
  · rintro ⟨k, hk, q, hq, ha⟩
    exact ⟨_, mem_freeBlocks.mpr ⟨k, hk, q, hq, rfl⟩, ha⟩
  · rintro ⟨b, hb, ha⟩
    obtain ⟨k, hk, q, hq, rfl⟩ := mem_freeBlocks.mp hb
    exact ⟨k, hk, q, hq, ha⟩

/-- What is on the lists after the boot: the free regions without the pool. -/
theorem boot_onList (mm : MemoryMap) {mem : Mem} (h : bootMachine mm.entries mem = some s) {a : ℕ} :
    (∃ k, s.phys.OnList a k) ↔ (∃ m ∈ mm.entries, m.type = .free ∧ a ∈ m) ∧
      a ∉ Set.Ico s.phys.g_bump_base s.phys.g_bump_end := by
  obtain ⟨⟨-, -, hinv, -⟩, hpool, -⟩ := boot_spaceInv mm h
  have hcover : (∃ k, s.phys.OnList a k) ↔ a ∈ managed mm := by
    rw [PhysState.onList_iff, hinv.tiles.cover a]
    simp
  rw [hcover, show Set.Ico s.phys.g_bump_base s.phys.g_bump_end = s.phys.pool from rfl, hpool]
  constructor
  · rintro ⟨m, hm, ht, hin, hnot⟩
    exact ⟨⟨m, hm, ht, hin⟩, hnot⟩
  · rintro ⟨⟨m, hm, ht, hin⟩, hnot⟩
    exact ⟨m, hm, ht, hin, hnot⟩

/-- What the boot should leave. The pages between `g_bump_base` and `g_bump_cur` are those that
`bump_alloc` has handed out. -/
structure SetUp (mm : MemoryMap) (s : PhysState) : Prop where
  /-- No page that was handed out is on a list. -/
  bumped : ∀ a ∈ Set.Ico s.g_bump_base s.g_bump_cur, ¬∃ k, s.OnList a k
  /-- Every other whole page of a free region is on exactly one list. -/
  listed : ∀ m ∈ mm.entries, m.type = .free → ∀ p, pageSize ∣ p → m.base ≤ p →
    p + pageSize ≤ m.limit → p ∉ Set.Ico s.g_bump_base s.g_bump_cur → ∃! k, s.OnList p k
  /-- From then on an allocation fails only for want of a block. -/
  truthful : ∀ r, Relation.ReflTransGen PhysStep ⟨s, []⟩ r → r.phys.Truthful

/-- The machine is set up so if and only if the kernel's tables have used up the pool and frame 0 is
not free. It is not for a memory map with a larger pool than the tables and the records can take. -/
theorem phys_setup_iff (mm : MemoryMap) {mem : Mem} (h : bootMachine mm.entries mem = some s) :
    (SetUp mm s.phys ↔ s.phys.g_bump_cur = s.phys.g_bump_end ∧
      ∀ m ∈ mm.entries, m.type = .free → 0 ∉ m) ∧
    ((ammEarlyPhysScan mm.entries .start).g_bump_base +
        tablePages (ammEarlyPhysScan mm.entries .start).phys_top * 4096 <
      (ammEarlyPhysScan mm.entries .start).g_bump_end → ¬SetUp mm s.phys) := by
  obtain ⟨⟨-, hlate, hinv, -⟩, -⟩ := boot_spaceInv mm h
  obtain ⟨ebase, estop, hbase, hcur, hstop, hlo, hhi, hused⟩ := boot_bump mm h
  have hapart : (s.phys.freeBlocks ++ []).Pairwise Block.Apart := hinv.tiles.apart
  have hrun : PhysRun.Inv (managed mm) ⟨s.phys, []⟩ := ⟨hinv, by simp, hlate⟩
  have hmem := fun a => boot_onList mm h (a := a)
  suffices hiff : SetUp mm s.phys ↔ s.phys.g_bump_cur = s.phys.g_bump_end ∧
      ∀ m ∈ mm.entries, m.type = .free → 0 ∉ m by
    refine ⟨hiff, fun hlarge hset => ?_⟩
    have hfull := (hiff.mp hset).1
    omega
  constructor
  · intro hset
    constructor
    · -- Otherwise the last page of the pool is on no list.
      by_contra hne
      obtain ⟨m, hm, ht, hbelow, habove⟩ := exists_region_pool mm (ebase ▸ hbase)
      have hon := hset.listed m hm ht (s.phys.g_bump_end - 4096) (Nat.dvd_sub hstop (dvd_refl _))
        (by omega) (by rw [pageSize]; omega) (by rw [Set.mem_Ico]; omega)
      refine ((hmem _).mp hon.exists).2 ?_
      rw [Set.mem_Ico]
      omega
    · intro m hm ht hin
      have hfree : ∃ b ∈ s.phys.freeBlocks, 0 ∈ b := by
        rw [← PhysState.onList_iff, hmem]
        exact ⟨⟨m, hm, ht, hin⟩, fun hz => hbase (le_zero.mp hz.1)⟩
      obtain ⟨r, hr, hbad⟩ := exists_run_zero hrun hfree
      exact hbad (hset.truthful r hr)
  · rintro ⟨hused, hzero⟩
    refine ⟨fun a ha hon => ?_, fun m hm ht p hp hge hle hnot => ?_, fun r hr => ?_⟩
    · rw [hused] at ha
      exact ((hmem a).mp hon).2 ha
    · rw [hused] at hnot
      have hin : p ∈ m := ⟨hge, by rw [pageSize] at hle; omega⟩
      obtain ⟨k, hon⟩ := (hmem p).mpr ⟨⟨m, hm, ht, hin⟩, hnot⟩
      refine ⟨k, hon, fun k' hon' => ?_⟩
      -- Two blocks with a common address are one block.
      obtain ⟨hk, q, hq, ha⟩ := hon
      obtain ⟨hk', q', hq', ha'⟩ := hon'
      by_contra hne
      have : Std.Symm Block.Apart := ⟨fun _ _ => Block.Apart.symm⟩
      have hap : Block.Apart (blk q' k') (blk q k) :=
        (pairwise_append.mp hapart).1.forall
          (mem_freeBlocks.mpr ⟨k', hk', q', hq', rfl⟩) (mem_freeBlocks.mpr ⟨k, hk, q, hq, rfl⟩)
          fun e => hne (add_right_cancel (congrArg Block.order e))
      exact Block.apart_iff.mp hap p ha' ha
    · have h0 : 0 ∉ managed mm := zero_notMem_handedOver hzero _
      exact (Runs.invariant hr hrun fun _ _ ha hs => ha.step h0 hs).truthful h0

/-- With 128 MiB half of the memory is the pool, of which the tables leave more than half. -/
theorem phys_setup_iff_oneRegion : ∃ s, bootMachine oneRegion.entries (fun _ => 0) = some s ∧
    (SetUp oneRegion s.phys ↔ s.phys.g_bump_cur = s.phys.g_bump_end ∧
      ∀ m ∈ oneRegion.entries, m.type = .free → 0 ∉ m) ∧ ¬SetUp oneRegion s.phys := by
  obtain ⟨s, hs, -⟩ := exists_boot_oneRegion fun _ => 0
  obtain ⟨hbase, hstop, htop⟩ := scan_oneRegion
  obtain ⟨hiff, hlarge⟩ := phys_setup_iff oneRegion hs
  refine ⟨s, hs, hiff, hlarge ?_⟩
  rw [hbase, hstop, htop]
  decide

theorem zeroRegion_apart : [⟨0, 1, .free⟩, ⟨0x100000, 8192, .free⟩].Pairwise
    fun e f : AsdMmapEntry => e.type = .free → f.type = .free → ∀ a, a ∈ e → a ∉ f := by
  simp [AsdMmapEntry.mem_def, AsdMmapEntry.limit, pageSize]
  omega

/-- Frame 0 and 32 MiB from 1 MiB on, which become the pool. -/
def zeroRegion : MemoryMap where
  entries := [⟨0, 1, .free⟩, ⟨0x100000, 8192, .free⟩]
  aligned := by decide
  fits := by decide
  disjoint := zeroRegion_apart

/-- Frame 0 is then the only free page, and the call that takes it returns 0. -/
theorem zeroRegion_not_setUp : ∃ s, bootMachine zeroRegion.entries (fun _ => 0) = some s ∧
    (∃ k, s.phys.OnList 0 k) ∧ (ammPhysAlloc 0 s.phys).1 = 0 ∧ ¬SetUp zeroRegion s.phys := by
  have hscan : (ammEarlyPhysScan zeroRegion.entries .start).g_bump_base = 0x100000 ∧
      (ammEarlyPhysScan zeroRegion.entries .start).g_bump_end = 0x2100000 ∧
      (ammEarlyPhysScan zeroRegion.entries .start).phys_top = 0x2100000 := by decide
  obtain ⟨hbase, hstop, htop⟩ := hscan
  have hroom : 0x100000 + tablePages 0x2100000 * 4096 ≤ 0x2100000 := by decide
  obtain ⟨s, hs⟩ := exists_bootMachine zeroRegion (fun _ => 0) (by rw [hbase]; decide)
    (by rw [hbase, hstop, htop]; exact hroom)
  obtain ⟨⟨-, hlate, hinv, -⟩, -⟩ := boot_spaceInv zeroRegion hs
  obtain ⟨ebase, -⟩ := boot_bump zeroRegion hs
  have hrun : PhysRun.Inv (managed zeroRegion) ⟨s.phys, []⟩ := ⟨hinv, by simp, hlate⟩
  have hfree : ∃ k, s.phys.OnList 0 k := by
    rw [boot_onList zeroRegion hs, ebase, hbase]
    exact ⟨⟨_, mem_cons_self, rfl, le_rfl, by decide⟩, fun hz => absurd hz.1 (by decide)⟩
  have hzero : (ammPhysAlloc 0 s.phys).1 = 0 := by
    -- Any other page would be one of the pool.
    by_contra hp
    have hi := (hrun.alloc (zero_le _) rfl hp).inv
    have hmem : blk (ammPhysAlloc 0 s.phys).1 0 ∈ (ammPhysAlloc 0 s.phys).2.freeBlocks ++
        [blk (ammPhysAlloc 0 s.phys).1 0] := mem_append_right _ (mem_singleton_self _)
    have hpage : 4096 ∣ (ammPhysAlloc 0 s.phys).1 := (hi.aligned _ hmem).1
    obtain ⟨m, hm, -, hin, hnot⟩ := (hi.tiles.cover _).mpr ⟨_, hmem, Block.base_mem _⟩
    simp only [zeroRegion, mem_cons, not_mem_nil, or_false] at hm
    rcases hm with rfl | rfl
    · have hlt : (ammPhysAlloc 0 s.phys).1 < 4096 := hin.2
      exact hp (eq_zero_of_dvd_of_lt hpage hlt)
    · exact hnot ⟨hbase ▸ hin.1, hstop ▸ hin.2⟩
  obtain ⟨k, hk, q, hq, ha⟩ := hfree
  exact ⟨s, hs, ⟨k, hk, q, hq, ha⟩, hzero, fun hset =>
    ne_nil_of_mem hq (hset.truthful _ .refl 0 hzero k (zero_le k) hk)⟩

end FreeAsd.Mm
