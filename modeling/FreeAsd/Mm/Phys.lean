import FreeAsd.Boot.MemoryMap
import FreeAsd.Lib.Dyadic

/-!
# The physical page allocator

The first part of `kernel/mm/mm.c`: the bump allocator and the buddy allocator. Physical addresses have at
most 52 bits, so their sums do not wrap. A free list is the list of the addresses of its blocks, head first.
-/

namespace FreeAsd.Mm

open Function

/-- `MAX_ORDER`. -/
def maxOrder : ℕ := 18

/-- `BUMP_SIZE`: the 64 MiB reservation of the bump allocator. -/
def bumpSize : ℕ := 64 * 1024 * 1024

/-- `PAGE_FREE`. -/
def pageFree : ℕ := 0x01

/-- `PAGE_ALLOC`. -/
def pageAlloc : ℕ := 0x02

/-- `PAGE_ALIGN` on 64-bit addresses. -/
def pageAlign (x : ℕ) : ℕ := (x + pageSize - 1) % 2^64 / pageSize * pageSize

/-- `PAGE_ALIGN_DOWN`. -/
def pageAlignDown (x : ℕ) : ℕ := x / pageSize * pageSize

/-- `page_info_t`: what the allocator records about a page. -/
structure PageInfo where
  /-- `PAGE_FREE` or `PAGE_ALLOC`, zero for a page never handled. -/
  flags : ℕ
  /-- The order of the block that the page heads. -/
  order : ℕ
  /-- Set to one by an allocation. -/
  refcount : ℕ
deriving DecidableEq, Repr

/-- The static variables of the physical allocator: `g_phys`, the `page_info` array by page frame
number, `g_early_boot`, and the bounds of the bump pool. -/
structure PhysState where
  /-- `g_phys.lists`: the free blocks of each order. -/
  lists : ℕ → List ℕ
  /-- `g_phys.free_pages`. -/
  free_pages : ℕ
  /-- `g_phys.total_pages`. -/
  total_pages : ℕ
  /-- `g_phys.phys_base`. -/
  phys_base : ℕ
  /-- `g_phys.phys_top`. -/
  phys_top : ℕ
  /-- The array at `PAGE_INFO_BASE`. -/
  page_info : ℕ → PageInfo
  /-- Set until the kernel page tables are live. -/
  g_early_boot : Bool
  /-- Start of the bump pool. -/
  g_bump_base : ℕ
  /-- Next address of the bump pool. -/
  g_bump_cur : ℕ
  /-- End of the bump pool. -/
  g_bump_end : ℕ

/-- The state at kernel entry: the static variables are zero, except `g_early_boot`. -/
def PhysState.start : PhysState where
  lists _ := []
  free_pages := 0
  total_pages := 0
  phys_base := 0
  phys_top := 0
  page_info _ := ⟨0, 0, 0⟩
  g_early_boot := true
  g_bump_base := 0
  g_bump_cur := 0
  g_bump_end := 0

/-! ## The bump allocator -/

/-- The whole pages `[base, end)` of a map entry, as the three loops over the map compute them. -/
def mmapRange (m : AsdMmapEntry) : ℕ × ℕ :=
  (pageAlign m.base, pageAlignDown ((m.base + m.pages * pageSize) % 2^64))

/-- The first loop of `bump_init`: the first free region with `BUMP_SIZE` bytes above 1 MiB. -/
def bumpInitFirst : List AsdMmapEntry → Option (ℕ × ℕ)
  | [] => none
  | m :: rest =>
    if m.type ≠ .free then bumpInitFirst rest
    else
      let base := max (mmapRange m).1 0x100000
      let stop := (mmapRange m).2
      if stop ≤ base ∨ stop - base < bumpSize then bumpInitFirst rest
      else some (base, base + bumpSize)

/-- The body of the fallback loop of `bump_init`: take the region if it is larger than the pool. -/
def bumpInitLargest (s : PhysState) (m : AsdMmapEntry) : PhysState :=
  if m.type ≠ .free then s
  else
    let base := (mmapRange m).1
    let stop := (mmapRange m).2
    if stop > base ∧ stop - base > s.g_bump_end - s.g_bump_base then
      { s with g_bump_base := base, g_bump_cur := base, g_bump_end := stop }
    else s

/-- `bump_init`. -/
def bumpInit (s : PhysState) (mmap : List AsdMmapEntry) : PhysState :=
  match bumpInitFirst mmap with
  | some (base, stop) => { s with g_bump_base := base, g_bump_cur := base, g_bump_end := stop }
  | none => mmap.foldl bumpInitLargest s

/-- `bump_alloc`: the next naturally aligned block of the pool, or 0. -/
def bumpAlloc (order : ℕ) (s : PhysState) : ℕ × PhysState :=
  let size := pageSize <<< order
  let aligned := (s.g_bump_cur + size - 1) / size * size
  if aligned + size > s.g_bump_end then (0, s)
  else (aligned, { s with g_bump_cur := aligned + size })

/-! ## The buddy allocator -/

/-- `page_info`: the record of the page of an address. -/
def PhysState.pageInfo (s : PhysState) (p : ℕ) : PageInfo := s.page_info (p >>> pageShift)

/-- `phys_free_block`: put a block on the free list of its order. -/
def physFreeBlock (s : PhysState) (paddr order : ℕ) : PhysState :=
  { s with
    lists := update s.lists order (paddr :: s.lists order)
    page_info := update s.page_info (paddr >>> pageShift)
      { s.pageInfo paddr with flags := pageFree, order := order % 256 }
    free_pages := s.free_pages + 1 <<< order }

/-- The inner loop of `phys_free_range`: the highest order from the given one down that fits at
page `i` of the range and is naturally aligned. -/
def fitOrder (base pages i : ℕ) : ℕ → ℕ
  | 0 => 0
  | order + 1 =>
    let block_pages := 1 <<< (order + 1)
    if i + block_pages > pages then fitOrder base pages i order
    else if (base + i * pageSize) &&& (block_pages * pageSize - 1) ≠ 0 then
      fitOrder base pages i order
    else order + 1

/-- The loop of `phys_free_range` from page `i`. Every iteration frees at least one page, so
`pages` iterations are enough. -/
def physFreeRangeLoop (base pages : ℕ) : ℕ → ℕ → PhysState → PhysState
  | 0, _, s => s
  | fuel + 1, i, s =>
    if i < pages then
      let order := fitOrder base pages i maxOrder
      physFreeRangeLoop base pages fuel (i + 1 <<< order)
        (physFreeBlock s (base + i * pageSize) order)
    else s

/-- `phys_free_range`: free the pages of a range in the largest blocks possible. -/
def physFreeRange (s : PhysState) (base pages : ℕ) : PhysState :=
  physFreeRangeLoop base pages pages 0 s

/-- `phys_free_range` and the update of `total_pages` that follows each of its calls. -/
def physHandOver (s : PhysState) (base stop : ℕ) : PhysState :=
  let pages := (stop - base) >>> pageShift
  let s := physFreeRange s base pages
  { s with total_pages := s.total_pages + pages }

/-- The body of the loop of `amm_phys_init`: hand over the pages of a free region, less the bump
pool. -/
def ammPhysInitEntry (s : PhysState) (m : AsdMmapEntry) : PhysState :=
  if m.type ≠ .free then s
  else
    let base := (mmapRange m).1
    let stop := (mmapRange m).2
    if stop ≤ base then s
    else
      let s := { s with phys_base := min base s.phys_base, phys_top := max stop s.phys_top }
      if s.g_bump_base ≠ 0 ∧ base < s.g_bump_end ∧ stop > s.g_bump_base then
        let s := if base < s.g_bump_base then physHandOver s base s.g_bump_base else s
        if stop > s.g_bump_end then physHandOver s s.g_bump_end stop else s
      else physHandOver s base stop

/-- `g_phys` as `k_memset` and the assignment of `phys_base` leave it. -/
def PhysState.clear (s : PhysState) : PhysState :=
  { s with lists := fun _ => [], free_pages := 0, total_pages := 0, phys_base := 2^64 - 1,
           phys_top := 0 }

/-- `amm_phys_init`. -/
def ammPhysInit (mmap : List AsdMmapEntry) (s : PhysState) : PhysState :=
  mmap.foldl ammPhysInitEntry s.clear

/-- The body of the loop of `amm_early_phys_scan`. -/
def ammEarlyPhysScanEntry (s : PhysState) (m : AsdMmapEntry) : PhysState :=
  if m.type ≠ .free then s
  else
    let base := (mmapRange m).1
    let stop := (mmapRange m).2
    if stop ≤ base then s
    else { s with phys_base := min base s.phys_base, phys_top := max stop s.phys_top,
                  total_pages := s.total_pages + (stop - base) >>> pageShift }

/-- `amm_early_phys_scan`: record `phys_top` and set up the bump pool. -/
def ammEarlyPhysScan (mmap : List AsdMmapEntry) (s : PhysState) : PhysState :=
  bumpInit (mmap.foldl ammEarlyPhysScanEntry s.clear) mmap

/-- The split loop of `amm_phys_alloc`, with `n` orders left to go down: free the upper half of the
block and go on with the lower one. -/
def splitDown (paddr order : ℕ) : ℕ → PhysState → PhysState
  | 0, s => s
  | n + 1, s =>
    let o := order + n
    splitDown paddr order n (physFreeBlock s (paddr ^^^ (pageSize <<< o)) o)

/-- The end of `amm_phys_alloc`: record the allocation of the block. -/
def markAlloc (s : PhysState) (paddr order : ℕ) : PhysState :=
  { s with
    page_info := update s.page_info (paddr >>> pageShift)
      { flags := pageAlloc, order := order % 256, refcount := 1 } }

/-- The loop of `amm_phys_alloc` over the orders from `o` on, of which `n` are left. -/
def allocFrom (order : ℕ) : ℕ → ℕ → PhysState → ℕ × PhysState
  | 0, _, s => (0, s)
  | n + 1, o, s =>
    match s.lists o with
    | [] => allocFrom order n (o + 1) s
    | paddr :: next =>
      let s := { s with lists := update s.lists o next,
                        free_pages := s.free_pages - 1 <<< o }
      (paddr, markAlloc (splitDown paddr order (o - order) s) paddr order)

/-- `amm_phys_alloc`: the address of a block of the given order, or 0. -/
def ammPhysAlloc (order : ℕ) (s : PhysState) : ℕ × PhysState :=
  if s.g_early_boot then bumpAlloc order s
  else if order > maxOrder then (0, s)
  else allocFrom order (maxOrder + 1 - order) order s

/-- Unlink a block from the free list of its order, if it is there. -/
def unlink (s : PhysState) (buddy order : ℕ) : PhysState :=
  if buddy ∈ s.lists order then
    { s with lists := update s.lists order ((s.lists order).erase buddy),
             free_pages := s.free_pages - 1 <<< order }
  else s

/-- The merge loop of `amm_phys_free`, with `n` orders left below `MAX_ORDER`: while the record of the
buddy says that it is free with the same order, take the two together. -/
def mergeUp : ℕ → ℕ → ℕ → PhysState → ℕ × ℕ × PhysState
  | 0, paddr, order, s => (paddr, order, s)
  | n + 1, paddr, order, s =>
    let buddy := paddr ^^^ (pageSize <<< order)
    let bi := s.pageInfo buddy
    if bi.flags &&& pageFree = 0 ∨ bi.order ≠ order then (paddr, order, s)
    else mergeUp n (if paddr < buddy then paddr else buddy) (order + 1) (unlink s buddy order)

/-- `amm_phys_free`. -/
def ammPhysFree (paddr order : ℕ) (s : PhysState) : PhysState :=
  let r := mergeUp (maxOrder - order) paddr order s
  physFreeBlock r.2.2 r.1 r.2.1

end FreeAsd.Mm
