import FreeAsd.Mm.KernelMap

/-!
# Address spaces are not isolated

`amm_vmap_create` copies the entries from 64 MiB to 4 GiB of the kernel's identity map, which have the user
and the write bit. So no new address space is `Isolated`, whatever the kernel has done since the boot
without overwriting its own tables (`created_not_isolated`).
-/

namespace FreeAsd.Mm

open Paging

/-! ## Calls on an address space -/

/-- The frames that the loop of `amm_region_populate` allocates. -/
def populateFrames (cr3 prot : ℕ) : ℕ → ℕ → Machine → List ℕ
  | 0, _, _ => []
  | n + 1, va, s =>
    if (ammVirtToKva cr3 va s.mem).isSome then populateFrames cr3 prot n (va + pageSize) s
    else
      match takePage s with
      | (none, _) => []
      | (some pa, s) => pa :: populateFrames cr3 prot n (va + pageSize) (mapPage cr3 va pa prot s)

/-- An address space in use, with the frames allocated for it. -/
structure UserSpace where
  vmap : Vmap
  machine : Machine
  frames : List ℕ

/-- The calls that build up an address space. -/
inductive SpaceCall
  | regionAdd (base size prot : ℕ) (kind : RegionKind) (fd : ℤ)
  | regionPopulate (base size prot : ℕ)
  | pageFault (addr : ℕ) (write : Bool)

/-- A call, with the frames that it allocates. -/
def UserSpace.call (u : UserSpace) : SpaceCall → UserSpace
  | .regionAdd base size prot kind fd =>
    let r := ammRegionAdd u.vmap base size prot kind fd u.machine
    ⟨r.2.1, r.2.2, u.frames⟩
  | .regionPopulate base size prot =>
    let pages := (pageAlign ((base + size) % 2^64) - pageAlignDown base) / pageSize
    ⟨u.vmap, (ammRegionPopulate u.vmap.cr3 base size prot u.machine).2,
      u.frames ++ if size = 0 then [] else
        populateFrames u.vmap.cr3 prot pages (pageAlignDown base) u.machine⟩
  | .pageFault addr write =>
    let r := ammPageFault u.vmap addr write u.machine
    ⟨u.vmap, r.2, u.frames ++ if r.1 then (takePage u.machine).1.toList else []⟩

/-- After every sequence of calls, user-mode code reaches only frames allocated by these calls. -/
def Isolated (v : Vmap) (s : Machine) : Prop :=
  ∀ (calls : List SpaceCall) (va pa : ℕ) (w : Bool),
    userWalk (calls.foldl UserSpace.call ⟨v, s, []⟩).machine.mem
      (calls.foldl UserSpace.call ⟨v, s, []⟩).vmap.cr3 va = some (pa, w) →
    frame pa ∈ (calls.foldl UserSpace.call ⟨v, s, []⟩).frames

/-! ## The kernel after the boot -/

/-- The machine with the outstanding allocations, each an address and an order. -/
structure Kernel where
  machine : Machine
  live : List (ℕ × ℕ)

/-- What the kernel and its processes do to the machine: allocations and releases of what was allocated,
stores outside the bump pool, and the use of records. Left out are the stores of `amm_shmap`, which
drivers call: it hangs tables for its own high addresses below the kernel's top table, which is in the
pool. -/
inductive KernelStep : Kernel → Kernel → Prop
  | alloc (k : Kernel) {order p : ℕ} {phys : PhysState} (ho : order ≤ maxOrder)
      (h : ammPhysAlloc order k.machine.phys = (p, phys)) :
      KernelStep k ⟨{ k.machine with phys }, if p = 0 then k.live else (p, order) :: k.live⟩
  | free (k : Kernel) {p o : ℕ} (h : (p, o) ∈ k.live) :
      KernelStep k ⟨{ k.machine with phys := ammPhysFree p o k.machine.phys }, k.live.erase (p, o)⟩
  | store (k : Kernel) (mem : Mem) (h : ∀ x ∈ k.machine.phys.pool, mem x = k.machine.mem x) :
      KernelStep k ⟨{ k.machine with mem }, k.live⟩
  | records (k : Kernel) (regions vmaps : ℕ) :
      KernelStep k ⟨{ k.machine with g_region_next := regions, g_vmap_next := vmaps }, k.live⟩

/-- The blocks of the outstanding allocations. -/
def Kernel.outstanding (k : Kernel) : List Block := k.live.map fun b => blk b.1 b.2

/-- What the steps keep: the allocator's invariant, where an allocation of page 0 counts as lost, and
the kernel's tables in the pool. -/
structure KernelInv (mm : MemoryMap) (k : Kernel) : Prop where
  inv : ∃ lost, SpaceInv (managed mm) k.machine (fun _ => none) [] (k.outstanding ++ lost)
  order : ∀ b ∈ k.live, b.2 ≤ maxOrder
  pool : k.machine.phys.pool = (ammEarlyPhysScan mm.entries .start).pool
  tables : ∃ k3 k2,
    KernelTables {x | x ∉ k.machine.phys.pool} k.machine.mem k.machine.g_kernel_cr3 k3 k2

theorem SpaceInv.unlabelled {S : Set ℕ} {s : Machine} {held : List Block}
    (hfits : ∀ a ∈ S, a < 2^52) (hlate : s.phys.g_early_boot = false)
    (hphys : PhysInv s.phys none held S) : SpaceInv S s (fun _ => none) [] held :=
  ⟨hfits, hlate, hphys, by simp, fun t l ht => by simp at ht, fun t l ht => by simp at ht⟩

theorem KernelInv.step {mm : MemoryMap} {k k' : Kernel} (h : KernelInv mm k) (hs : KernelStep k k') :
    KernelInv mm k' := by
  obtain ⟨lost, hinv⟩ := h.inv
  cases hs with
  | @alloc order p phys ho ha =>
    have hboot := boot_ammPhysAlloc order hinv.late
    rw [ha] at hboot
    have hpool := pool_of_boot hboot
    have hlate : phys.g_early_boot = false := (congrArg Prod.fst hboot).trans hinv.late
    refine ⟨?_, ?_, hpool.trans h.pool, by dsimp only; rw [hpool]; exact h.tables⟩
    · rcases hinv.phys.ammPhysAlloc order hinv.late with e | hphys
      · -- Nothing was allocated.
        rw [ha] at e
        cases e
        exact ⟨lost, .unlabelled hinv.fits hinv.late hinv.phys⟩
      · rw [ha] at hphys
        by_cases hp : p = 0
        · -- Page 0 was allocated, and its caller takes that for a failure.
          refine ⟨blk p order :: lost, .unlabelled hinv.fits hlate (hphys.perm ?_)⟩
          rw [if_pos hp]
          show (blk p order :: (k.outstanding ++ lost)).Perm (k.outstanding ++ blk p order :: lost)
          exact List.perm_middle.symm
        · refine ⟨lost, .unlabelled hinv.fits hlate ?_⟩
          rw [if_neg hp]
          exact hphys
    · intro b hb
      split_ifs at hb
      · exact h.order b hb
      · rcases List.mem_cons.mp hb with rfl | hb
        · exact ho
        · exact h.order b hb
  | @free p o hm =>
    have hboot := boot_ammPhysFree (p := p) (o := o) k.machine.phys
    have hpool := pool_of_boot hboot
    have hperm : (k.outstanding ++ lost).Perm
        (blk p o :: ((k.live.erase (p, o)).map (fun b => blk b.1 b.2) ++ lost)) :=
      ((List.perm_cons_erase hm).map fun b : ℕ × ℕ => blk b.1 b.2).append_right lost
    exact ⟨⟨lost, .unlabelled hinv.fits ((congrArg Prod.fst hboot).trans hinv.late)
      ((hinv.phys.perm hperm).ammPhysFree (h.order _ hm))⟩,
      fun b hb => h.order b (List.mem_of_mem_erase hb), hpool.trans h.pool,
      by dsimp only; rw [hpool]; exact h.tables⟩
  | store mem hm =>
    obtain ⟨k3, k2, ht⟩ := h.tables
    exact ⟨⟨lost, .unlabelled hinv.fits hinv.late hinv.phys⟩, h.order, h.pool, k3, k2,
      ht.congr fun x hx => hm x (not_not.mp hx)⟩
  | records regions vmaps =>
    exact ⟨⟨lost, .unlabelled hinv.fits hinv.late hinv.phys⟩, h.order, h.pool, h.tables⟩

/-- Every state after the boot. -/
theorem KernelInv.of_run (mm : MemoryMap) {mem : Mem} {s : Machine} {k : Kernel}
    (hboot : bootMachine mm.entries mem = some s)
    (hrun : Relation.ReflTransGen KernelStep ⟨s, []⟩ k) : KernelInv mm k := by
  obtain ⟨hinv, hpool, htables, -⟩ := boot_spaceInv mm hboot
  exact Runs.invariant hrun ⟨⟨[], hinv⟩, by simp, hpool, htables⟩ fun _ _ h hs => h.step hs

/-! ## No isolation -/

/-- A new address space maps the window to the frames themselves, for writing. -/
theorem KernelInv.userWalk_window {mm : MemoryMap} {k : Kernel} {s : Machine} {v : Vmap}
    (hk : KernelInv mm k) (hv : ammVmapCreate k.machine = (some v, s)) {va : ℕ} (hlo : 2^26 ≤ va)
    (hhi : va < 2^30) : userWalk s.mem v.cr3 va = some (va, true) := by
  obtain ⟨lost, hinv⟩ := hk.inv
  obtain ⟨k3, k2, ht⟩ := hk.tables
  have hsub : managed mm ⊆ {x | x ∉ k.machine.phys.pool} := by
    rw [hk.pool]
    exact managed_subset mm
  rcases hinv.ammVmapCreate (ht.mono hsub) with ⟨t, held, e, -⟩ |
    ⟨r, t, τ, pages, e, -, -, -, -, -, hwin, -⟩
  · rw [hv] at e
    cases e
  · rw [hv] at e
    obtain ⟨hv, rfl⟩ := Prod.mk.inj e
    cases hv
    exact hwin va hlo hhi

/-- For every memory map and every state after the boot, an address space that `amm_vmap_create` returns
is not isolated: user-mode code can write every frame from 64 MiB to 1 GiB, although none was allocated
for it. -/
theorem created_not_isolated (mm : MemoryMap) {mem : Mem} {s s' : Machine} {k : Kernel} {v : Vmap}
    (hboot : bootMachine mm.entries mem = some s)
    (hrun : Relation.ReflTransGen KernelStep ⟨s, []⟩ k)
    (hv : ammVmapCreate k.machine = (some v, s')) :
    ¬Isolated v s' ∧
      ∀ va, 2^26 ≤ va → va < 2^30 → userWalk s'.mem v.cr3 va = some (va, true) := by
  have hk := KernelInv.of_run mm hboot hrun
  refine ⟨fun hiso => ?_, fun va hlo hhi => hk.userWalk_window hv hlo hhi⟩
  -- Without any call no frame has been allocated for the address space.
  have hmem := hiso [] (2^26) (2^26) true (hk.userWalk_window hv le_rfl (by decide))
  exact absurd hmem List.not_mem_nil

/-- The machine with 128 MiB creates an address space after its boot. -/
theorem exists_create_oneRegion (mem : Mem) : ∃ s s' v,
    bootMachine oneRegion.entries mem = some s ∧ ammVmapCreate s = (some v, s') := by
  obtain ⟨s, hs, hfree⟩ := exists_boot_oneRegion mem
  obtain ⟨hinv, hpool, ⟨k3, k2, ht⟩, hnext, -⟩ := boot_spaceInv oneRegion hs
  have hsub : managed oneRegion ⊆ {x | x ∉ s.phys.pool} := by
    rw [hpool]
    exact managed_subset oneRegion
  rcases hinv.ammVmapCreate (ht.mono hsub) with ⟨t, held, -, -, hfull | h0 | hshort⟩ |
    ⟨r, t, τ, pages, e, -⟩
  · rw [hnext] at hfull
    cases hfull
  · rw [managed_oneRegion] at h0
    exact absurd h0.1 (by decide)
  · rw [hfree] at hshort
    exact absurd hshort (by decide)
  · exact ⟨s, t, _, hs, e⟩

theorem created_not_isolated_oneRegion : ∃ s s' v,
    bootMachine oneRegion.entries (fun _ => 0) = some s ∧ ammVmapCreate s = (some v, s') ∧
      ¬Isolated v s' := by
  obtain ⟨s, s', v, hs, hv⟩ := exists_create_oneRegion fun _ => 0
  exact ⟨s, s', v, hs, hv, (created_not_isolated oneRegion hs .refl hv).1⟩

/-- There, user-mode code writes a page of the bump pool, which the kernel's tables are made from: the
page at 64 MiB. -/
theorem pool_writable_oneRegion : ∃ s s' v,
    bootMachine oneRegion.entries (fun _ => 0) = some s ∧ ammVmapCreate s = (some v, s') ∧
      0x4000000 ∈ s.phys.pool ∧ userWalk s'.mem v.cr3 0x4000000 = some (0x4000000, true) := by
  obtain ⟨s, s', v, hs, hv⟩ := exists_create_oneRegion fun _ => 0
  have hk := KernelInv.of_run oneRegion hs .refl
  obtain ⟨hbase, hstop, -⟩ := scan_oneRegion
  refine ⟨s, s', v, hs, hv, ?_, hk.userWalk_window hv (by decide) (by decide)⟩
  rw [show s.phys.pool = _ from hk.pool, PhysState.pool, hbase, hstop]
  exact ⟨by decide, by decide⟩

end FreeAsd.Mm
