import FreeAsd.Lib.PageTables
import FreeAsd.Mm.Phys

/-!
# Address spaces

The second part of `kernel/mm/mm.c`. Pointers made by `phys_to_virt` are physical addresses here. `PhysState`
holds the allocator's free lists and records, and the memory of those pages is not modelled: no function
reads a page after it has freed it, and every page is zeroed before it is used. An address space is a `Vmap`
that its user holds; the machine keeps the number of records taken from the two pools.
-/

namespace FreeAsd.Mm

open Paging

/-- `MAX_REGIONS`. -/
def maxRegions : ℕ := 1024 * 16

/-- `MAX_VMAPS`. -/
def maxVmaps : ℕ := 4096

/-- `PAGE_INFO_BASE`. -/
def pageInfoBase : ℕ := 0xFFFF880000000000

/-- `PHYS_MAP_BASE`. -/
def physMapBase : ℕ := 0xFFFFC80000000000

/-- `AMM_IDENTITY_LIMIT`. -/
def identityLimit : ℕ := 4 * 1024 * 1024 * 1024

/-- `PROT_READ`, `PROT_WRITE` and `PROT_EXEC`. -/
def protRead : ℕ := 1
@[inherit_doc protRead] def protWrite : ℕ := 2
@[inherit_doc protRead] def protExec : ℕ := 4

/-- Physical memory and the static variables of `mm.c`. -/
structure Machine where
  mem : Mem
  phys : PhysState
  g_kernel_cr3 : ℕ
  g_region_next : ℕ
  g_vmap_next : ℕ

/-! ## Pages and tables -/

/-- `amm_phys_alloc(0)`. -/
def allocPage (s : Machine) : ℕ × Machine :=
  let r := ammPhysAlloc 0 s.phys
  (r.1, { s with phys := r.2 })

/-- Allocate a page and zero it. -/
def takePage (s : Machine) : Option ℕ × Machine :=
  match allocPage s with
  | (0, s) => (none, s)
  | (p, s) => (some p, { s with mem := clearPage s.mem p })

/-- `PTE_PRESENT | PTE_WRITE | PTE_USER`. -/
def pteTable : ℕ := 7

/-- One level of a walk that allocates: the table that entry `idx` of the table at `t` leads to, made
if it is not there. -/
def walkLevel (t idx : ℕ) (s : Machine) : Option ℕ × Machine :=
  if (entry s.mem t idx).testBit 0 then (some (frame (entry s.mem t idx)), s)
  else
    match takePage s with
    | (none, s) => (none, s)
    | (some p, s) =>
      let s := { s with mem := setEntry s.mem t idx (p ||| pteTable) }
      (some (frame (entry s.mem t idx)), s)

/-- `pt_walk_alloc`: the last table on the way to an address. The source returns the address of the
entry for `va` in it. -/
def ptWalkAlloc (cr3 va : ℕ) (s : Machine) : Option ℕ × Machine :=
  match walkLevel (frame cr3) (tableIdx 3 va) s with
  | (none, s) => (none, s)
  | (some pdpt, s) =>
    match walkLevel pdpt (tableIdx 2 va) s with
    | (none, s) => (none, s)
    | (some pd, s) => walkLevel pd (tableIdx 1 va) s

/-- The flags of `map_page`: `PTE_PRESENT | PTE_USER`, `PTE_WRITE` and `PTE_NX` by the protection. -/
def mapFlags (prot : ℕ) : ℕ :=
  (if prot &&& protWrite ≠ 0 then 7 else 5) ||| (if prot &&& protExec = 0 then 2^63 else 0)

/-- `map_page`. -/
def mapPage (cr3 va pa prot : ℕ) (s : Machine) : Machine :=
  match ptWalkAlloc cr3 va s with
  | (none, s) => s
  | (some pt, s) => { s with mem := setEntry s.mem pt (tableIdx 0 va) (frame pa ||| mapFlags prot) }

/-! ## The kernel's tables -/

/-- The body of the loops that map memory in pieces of 2 MiB; `none` is `mm_halt`. -/
def mapHuge (va pa : ℕ) (s : Machine) : Option Machine :=
  match walkLevel s.g_kernel_cr3 (tableIdx 3 va) s with
  | (none, _) => none
  | (some pdpt, s) =>
    match walkLevel pdpt (tableIdx 2 va) s with
    | (none, _) => none
    | (some pd, s) => some { s with mem := setEntry s.mem pd (tableIdx 1 va) (pa ||| 0x87) }

/-- Map `n` pieces from piece `k` on at `base`. -/
def hugeLoop (base : ℕ) : ℕ → ℕ → Machine → Option Machine
  | 0, _, s => some s
  | n + 1, k, s =>
    match mapHuge ((base + k * 2^21) % 2^64) (k * 2^21) s with
    | none => none
    | some s => hugeLoop base n (k + 1) s

/-- The loop of map 2: `n` pages of records from page `i` on. -/
def pageInfoLoop : ℕ → ℕ → Machine → Option Machine
  | 0, _, s => some s
  | n + 1, i, s =>
    match takePage s with
    | (none, _) => none
    | (some pi_phys, s) =>
      pageInfoLoop n (i + 1)
        (mapPage s.g_kernel_cr3 (pageInfoBase + i * pageSize) pi_phys (protRead ||| protWrite) s)

/-- `pi_pages`: the pages for the records, of eight bytes each. -/
def piPages (phys_top : ℕ) : ℕ := ((phys_top >>> pageShift + 1) * 8 + pageSize - 1) >>> pageShift

/-- The number of 2 MiB pieces below `top`. -/
def hugePieces (top : ℕ) : ℕ := (top + 2^21 - 1) / 2^21

/-- The three maps of `amm_kernel_pml4_init`: the low 4 GiB, the records of pages, and physical
memory. -/
def kernelMaps (s : Machine) : Option Machine := do
  let s ← hugeLoop 0 (hugePieces identityLimit) 0 s
  let s ← pageInfoLoop (piPages s.phys.phys_top) 0 s
  hugeLoop physMapBase
    (hugePieces (if s.phys.phys_top = 0 then identityLimit else s.phys.phys_top)) 0 s

/-- `amm_kernel_pml4_init`; `none` is `mm_halt`. -/
def ammKernelPml4Init (s : Machine) : Option Machine :=
  match takePage s with
  | (none, _) => none
  | (some p, s) =>
    match kernelMaps { s with g_kernel_cr3 := p } with
    | none => none
    | some s => some { s with phys := { s.phys with g_early_boot := false } }

/-- The memory manager's part of the boot: `amm_early_phys_scan`, `amm_kernel_pml4_init` and
`amm_phys_init`. -/
def bootMachine (mmap : List AsdMmapEntry) (mem : Mem) : Option Machine :=
  match ammKernelPml4Init ⟨mem, ammEarlyPhysScan mmap .start, 0, 0, 0⟩ with
  | none => none
  | some s => some { s with phys := ammPhysInit mmap s.phys }

/-! ## Regions -/

/-- The `RGN_*` kinds. -/
inductive RegionKind
  | code
  | stack
  | heap
  | file
  | shared
deriving DecidableEq, Repr

/-- `vregion_t`, less its links. -/
structure Region where
  base : ℕ
  size : ℕ
  prot : ℕ
  kind : RegionKind
  fd : ℤ
deriving DecidableEq, Repr

/-- `vmap_t`, with the regions as a list. -/
structure Vmap where
  regions : List Region
  cr3 : ℕ
  region_count : ℕ
deriving DecidableEq, Repr

/-- The loop of `amm_region_overlaps`. -/
def overlapsLoop (base stop : ℕ) : List Region → Bool
  | [] => false
  | r :: rest =>
    let r_end := (r.base + r.size) % 2^64
    if r_end ≤ r.base then true
    else if base < r_end ∧ stop > r.base then true
    else if r.base ≥ stop then false
    else overlapsLoop base stop rest

/-- `amm_region_overlaps`. -/
def ammRegionOverlaps (map : Vmap) (base size : ℕ) : Bool :=
  if size = 0 then false
  else
    let stop := (base + size) % 2^64
    if stop ≤ base then true else overlapsLoop base stop map.regions

/-- Insert behind the regions with a lower base. -/
def insertTail (nr : Region) : List Region → List Region
  | [] => [nr]
  | r :: rest => if r.base < nr.base then r :: insertTail nr rest else nr :: r :: rest

/-- The insertion of `amm_region_add`. -/
def insertRegion (nr : Region) : List Region → List Region
  | [] => [nr]
  | r :: rest => if r.base > nr.base then nr :: r :: rest else r :: insertTail nr rest

/-- `amm_region_add`: whether it succeeds, and the address space with the region. -/
def ammRegionAdd (map : Vmap) (base size prot : ℕ) (kind : RegionKind) (fd : ℤ) (s : Machine) :
    Bool × Vmap × Machine :=
  if size = 0 then (false, map, s)
  else if ammRegionOverlaps map base size then (false, map, s)
  else if s.g_region_next ≥ maxRegions then (false, map, s)
  else
    (true,
      { map with regions := insertRegion ⟨base, size, prot, kind, fd⟩ map.regions,
                 region_count := (map.region_count + 1) % 2^32 },
      { s with g_region_next := s.g_region_next + 1 })

/-- `amm_region_find`. -/
def ammRegionFind (addr : ℕ) : List Region → Option Region
  | [] => none
  | r :: rest =>
    if r.base ≤ addr ∧ addr < (r.base + r.size) % 2^64 then some r
    else if r.base > addr then none
    else ammRegionFind addr rest

/-! ## Mapping -/

/-- `amm_virt_to_kva`: the physical address behind a virtual one, if the page is present. -/
def ammVirtToKva (cr3 va : ℕ) (m : Mem) : Option ℕ :=
  let e4 := entry m (frame cr3) (tableIdx 3 va)
  if !e4.testBit 0 then none
  else
    let e3 := entry m (frame e4) (tableIdx 2 va)
    if !e3.testBit 0 then none
    else
      let e2 := entry m (frame e3) (tableIdx 1 va)
      if !e2.testBit 0 then none
      else
        let e1 := entry m (frame e2) (tableIdx 0 va)
        if !e1.testBit 0 then none else some (frame e1 ||| (va &&& 0xFFF))

/-- `amm_page_fault`: whether it succeeds. -/
def ammPageFault (map : Vmap) (fault_addr : ℕ) (write : Bool) (s : Machine) : Bool × Machine :=
  match ammRegionFind fault_addr map.regions with
  | none => (false, s)
  | some r =>
    if write ∧ r.prot &&& protWrite = 0 then (false, s)
    else
      match takePage s with
      | (none, s) => (false, s)
      | (some pa, s) => (true, mapPage map.cr3 (pageAlignDown fault_addr) pa r.prot s)

/-- The loop of `amm_region_populate` over `n` pages from `va` on; `none` if memory runs out. -/
def populateLoop (cr3 prot : ℕ) : ℕ → ℕ → Machine → Bool × Machine
  | 0, _, s => (true, s)
  | n + 1, va, s =>
    if (ammVirtToKva cr3 va s.mem).isSome then populateLoop cr3 prot n (va + pageSize) s
    else
      match takePage s with
      | (none, s) => (false, s)
      | (some pa, s) => populateLoop cr3 prot n (va + pageSize) (mapPage cr3 va pa prot s)

/-- `amm_region_populate`: the address of the first byte, if all pages could be mapped. -/
def ammRegionPopulate (cr3 base size prot : ℕ) (s : Machine) : Option ℕ × Machine :=
  let aligned_base := pageAlignDown base
  let aligned_end := pageAlign ((base + size) % 2^64)
  if size = 0 ∨ aligned_end ≤ aligned_base then (none, s)
  else
    match populateLoop cr3 prot ((aligned_end - aligned_base) / pageSize) aligned_base s with
    | (false, s) => (none, s)
    | (true, s) => (ammVirtToKva cr3 base s.mem, s)

/-! ## Creating -/

/-- Copy entries of one table to another. -/
def copyEntries (src dst : ℕ) (is : List ℕ) (m : Mem) : Mem :=
  is.foldl (fun m i => setEntry m dst i (entry m src i)) m

/-- The end of `amm_vmap_create`: the low tables with the kernel's entries from 64 MiB to 4 GiB. -/
def shareLow (kernel_pml4 new_pml4 new_pdpt new_pd0 : ℕ) (m : Mem) : Mem :=
  let m := setEntry m new_pml4 0 (new_pdpt ||| pteTable)
  let m := setEntry m new_pdpt 0 (new_pd0 ||| pteTable)
  let e := entry m kernel_pml4 0
  if e.testBit 0 then
    let m := copyEntries (frame e) new_pdpt [1, 2, 3] m
    let e' := entry m (frame e) 0
    if e'.testBit 0 then copyEntries (frame e') new_pd0 (List.range' 32 480) m else m
  else m

/-- `amm_vmap_create`. A record of the pool is taken even if the pages are not there. -/
def ammVmapCreate (s : Machine) : Option Vmap × Machine :=
  if s.g_vmap_next ≥ maxVmaps then (none, s)
  else
    match takePage { s with g_vmap_next := s.g_vmap_next + 1 } with
    | (none, s) => (none, s)
    | (some pml4, s) =>
      let s := { s with mem := copyEntries s.g_kernel_cr3 pml4 (List.range' 256 256) s.mem }
      match allocPage s with
      | (pdpt, s) =>
        match allocPage s with
        | (pd0, s) =>
          if pdpt = 0 ∨ pd0 = 0 then (none, s)
          else
            let m := clearPage (clearPage s.mem pdpt) pd0
            (some ⟨[], pml4, 0⟩, { s with mem := shareLow s.g_kernel_cr3 pml4 pdpt pd0 m })

end FreeAsd.Mm
