import FreeAsd.Boot.Loader

/-!
# The memory hand-off

What the kernel may rely on when the boot loader jumps to it (`Handoff.Ok`). The map array is allocated for
the first map and filled from the last, so the loader may write past it (`handoff_overflow`).
-/

namespace FreeAsd.Boot

open List

/-! ## Correct firmware -/

namespace EfiMemoryDescriptor

/-- The address just past the described pages. -/
def limit (d : EfiMemoryDescriptor) : ℕ := d.physical_start + d.num_pages * pageSize

/-- The addresses described. -/
instance : Membership ℕ EfiMemoryDescriptor := ⟨fun d a => d.physical_start ≤ a ∧ a < d.limit⟩

theorem mem_def {a : ℕ} {d : EfiMemoryDescriptor} : a ∈ d ↔ d.physical_start ≤ a ∧ a < d.limit := Iff.rfl

end EfiMemoryDescriptor

/-- Memory that the firmware has handed out. -/
structure Buffer where
  base : ℕ
  size : ℕ
  type : ℕ
deriving DecidableEq, Repr

/-- The addresses of a buffer. -/
instance : Membership ℕ Buffer := ⟨fun b a => b.base ≤ a ∧ a < b.base + b.size⟩

theorem Buffer.mem_def {a : ℕ} {b : Buffer} : a ∈ b ↔ b.base ≤ a ∧ a < b.base + b.size := Iff.rfl

/-- A correct map: whole pages of physical memory, no page twice, and every page of a buffer with the
type that the buffer was allocated with. -/
structure MapOk (map : List EfiMemoryDescriptor) (buffers : List Buffer) : Prop where
  aligned : ∀ d ∈ map, pageSize ∣ d.physical_start
  fits : ∀ d ∈ map, d.limit ≤ 2^52
  disjoint : map.Pairwise fun d e => ∀ a, a ∈ d → a ∉ e
  typed : ∀ d ∈ map, ∀ b ∈ buffers, ∀ x y, x ∈ d → y ∈ b → x / pageSize = y / pageSize →
    d.type = b.type

/-- Nothing at `[base, base + size)` is handed out, and no buffer has this address. -/
def Fresh (base size : ℕ) (buffers : List Buffer) : Prop :=
  ∀ b ∈ buffers, b.base ≠ base ∧ ∀ x, x ∈ b → ¬(base ≤ x ∧ x < base + size)

/-- A correct firmware: it keeps the buffers that it has handed out until they are freed, and its maps
are correct. Maps may differ in length from call to call. -/
structure Firmware (σ : Type) extends BootServices σ where
  /-- The buffers handed out and not freed. -/
  buffers : σ → List Buffer
  desc_pos : 0 < desc_sz
  map_ok : ∀ {n s map s'}, getMemoryMap n s = (.success map, s') → MapOk map (buffers s')
  map_count : ∀ {n s map s'}, getMemoryMap n s = (.success map, s') → map.length < 2^32
  map_keep : ∀ {n s r s'}, getMemoryMap n s = (r, s') → buffers s ⊆ buffers s'
  pool_some : ∀ {t n s a s'}, allocatePool t n s = (some a, s') →
    a ≠ 0 ∧ Fresh a n (buffers s) ∧ ⟨a, n, t⟩ ∈ buffers s'
  pool_keep : ∀ {t n s r s'}, allocatePool t n s = (r, s') → buffers s ⊆ buffers s'
  pages_true : ∀ {t n a s s'}, allocatePages t n a s = (true, s') →
    Fresh a (n * pageSize) (buffers s) ∧ ⟨a, n * pageSize, t⟩ ∈ buffers s'
  pages_keep : ∀ {t n a s r s'}, allocatePages t n a s = (r, s') → buffers s ⊆ buffers s'
  free_keep : ∀ {a s b}, b ∈ buffers s → b.base ≠ a → b ∈ buffers (freePool a s)
  exit_keep : ∀ {s r s'}, exitBootServices s = (r, s') → buffers s ⊆ buffers s'
  size_keep : ∀ {p s r s'}, fileSize p s = (r, s') → buffers s ⊆ buffers s'
  read_keep : ∀ {p n s r s'}, readFile p n s = (r, s') → buffers s ⊆ buffers s'
  read_le : ∀ {p n s sz bytes s'}, readFile p n s = (some (sz, bytes), s') → sz ≤ n

/-! ## The property -/

/-- The bytes that a segment takes in memory. -/
def Elf64Phdr.bytes (p : Elf64Phdr) : ℕ := max p.p_memsz p.p_filesz

/-- What the loader has filled for the kernel: the kernel's segments, or its file when there are
none, the initrd, the command line, the boot information block and the map array. -/
def Handoff.held (h : Handoff) : List (ℕ × ℕ) :=
  (if h.ctx.loaded.kernel.segments = [] then [(h.ctx.loaded.file.buf, h.ctx.loaded.file.sz)]
    else h.ctx.loaded.kernel.segments.map fun p => (p.p_paddr, p.bytes)) ++
  [(h.ctx.loaded.initrd_buf, h.ctx.loaded.initrd_sz), (h.ctx.cmdline_buf, h.ctx.clen + 1),
    (h.ctx.bib, sizeofBib), (h.ctx.asd_mmap, sizeofEntry * h.ctx.entry_count)]

/-- The entries lie in the array, and no free entry covers a page that holds something. -/
def Handoff.Ok (h : Handoff) : Prop :=
  h.mmap_count ≤ h.ctx.entry_count ∧
    ∀ e ∈ h.entries.take h.mmap_count, e.type = .free → ∀ r ∈ h.held, ∀ x y, x ∈ e →
      r.1 ≤ y → y < r.1 + r.2 → x / pageSize ≠ y / pageSize

/-- The conditions on the image and on the calls whose result the loader does not check: no segment
wraps or has more bytes in the file than in memory, the three buffers are there, and the last map was
returned by the firmware. -/
structure Handoff.Sound (h : Handoff) : Prop where
  segments : ∀ p ∈ h.ctx.loaded.kernel.segments,
    p.p_paddr + p.p_memsz + 0xFFF < 2^64 ∧ p.p_filesz ≤ p.p_memsz
  cmdline : h.ctx.cmdline_buf ≠ 0
  bib : h.ctx.bib ≠ 0
  asd_mmap : h.ctx.asd_mmap ≠ 0
  mapped : h.mapped = true

/-! ## Marking -/

/-- `mark_asd_range` on one entry that it covers. -/
def markOne (e : AsdMmapEntry) (r : MarkRange) : AsdMmapEntry :=
  if r.base = 0 ∨ r.size = 0 then e else markEntry r e

/-- The entry lies outside the pages of the range. -/
def MarkRange.Misses (r : MarkRange) (e : AsdMmapEntry) : Prop :=
  pageUp (r.base + r.size) ≤ e.base ∨ (e.base + e.pages * 4096) % 2^64 ≤ pageDown r.base

/-! ## The kernel's segments -/

/-- The kernel lies between page boundaries above 16 MiB that enclose its segments. -/
structure KernelOk (k : Kernel) : Prop where
  pos : k.phys_lo ≠ 0
  lt : k.phys_lo < k.phys_hi
  lo_dvd : pageSize ∣ k.phys_lo
  hi_dvd : pageSize ∣ k.phys_hi ∧ k.phys_hi < 2^64
  inside : ∀ p ∈ k.segments, k.phys_lo ≤ p.segLo ∧ p.segHi ≤ k.phys_hi

section

variable {σ : Type} (fw : Firmware σ)

/-! ## Buffers -/

/-- The `n` bytes at `a` are in a buffer of the loader's type. -/
def PoolAt (s : σ) (a n : ℕ) : Prop :=
  a ≠ 0 ∧ ∃ b ∈ fw.buffers s, b.base = a ∧ n ≤ b.size ∧ b.type = 2

/-- The bytes are in a buffer other than the one at `m`. -/
def Held (fw : Firmware σ) (s : σ) (m a n : ℕ) : Prop := PoolAt fw s a n ∧ a ≠ m

/-- What the loader has in memory besides the kernel's segments is in buffers, unless an allocation
that it does not check has failed. -/
structure Context.Held (fw : Firmware σ) (s : σ) (m : ℕ) (x : Context) : Prop where
  file : Boot.Held fw s m x.loaded.file.buf x.loaded.file.sz
  initrd : x.loaded.initrd_sz = 0 ∨ Boot.Held fw s m x.loaded.initrd_buf x.loaded.initrd_sz
  cmdline : x.cmdline_buf ≠ 0 → Boot.Held fw s m x.cmdline_buf (x.clen + 1)
  bib : x.bib ≠ 0 → Boot.Held fw s m x.bib sizeofBib
  asd_mmap : x.asd_mmap ≠ 0 → Boot.Held fw s m x.asd_mmap (sizeofEntry * x.entry_count)

end

/-! ## A firmware -/

/-- The two pages that the demonstration firmware uses for its allocation number `i`. -/
def poolPage (i : ℕ) : ℕ := 0x100000 + i * 0x2000

/-- The state of the demonstration firmware: whether its map lists the allocations one by one, and
their sizes, `none` for those that were freed. -/
structure DemoState where
  split : Bool
  pages : List (Option ℕ)

namespace DemoState

/-- The size of a live allocation. -/
def live (s : DemoState) (i : ℕ) : Option ℕ := s.pages[i]?.join

/-- The buffers, all of the loader's type. -/
def buffers (s : DemoState) : List Buffer :=
  (List.range s.pages.length).filterMap fun i =>
    (s.live i).map fun n => ⟨poolPage i, min n 0x2000, 2⟩

/-- The map: the allocations, or the pool as a whole, and the rest of memory. -/
def map (s : DemoState) : List EfiMemoryDescriptor :=
  if s.split then
    (List.range s.pages.length).map (fun i => ⟨if (s.live i).isSome then 2 else 7, poolPage i, 2⟩) ++
      [⟨7, poolPage s.pages.length, 16⟩]
  else [⟨2, poolPage 0, 128⟩, ⟨7, poolPage 64, 16⟩]

theorem mem_buffers {s : DemoState} {b : Buffer} : b ∈ s.buffers ↔
    ∃ i n, i < s.pages.length ∧ s.live i = some n ∧ b = ⟨poolPage i, min n 0x2000, 2⟩ := by
  simp only [buffers, mem_filterMap, mem_range, Option.map_eq_some_iff]
  constructor
  · rintro ⟨i, hi, n, hn, rfl⟩
    exact ⟨i, n, hi, hn, rfl⟩
  · rintro ⟨i, n, hi, hn, rfl⟩
    exact ⟨i, hi, n, hn, rfl⟩

/-- An address of a live allocation is in its two pages. -/
theorem page_of_mem {i y : ℕ} (hy : y ∈ (⟨poolPage i, min n 0x2000, 2⟩ : Buffer)) :
    y / pageSize = 0x100 + 2 * i ∨ y / pageSize = 0x101 + 2 * i := by
  obtain ⟨h1, h2⟩ := Buffer.mem_def.mp hy
  dsimp only [poolPage] at h1 h2
  unfold pageSize
  omega

/-- The addresses that a descriptor of the map describes. -/
theorem mem_desc {t i x : ℕ} :
    x ∈ (⟨t, poolPage i, n⟩ : EfiMemoryDescriptor) ↔
      0x100 + 2 * i ≤ x / pageSize ∧ x / pageSize < 0x100 + 2 * i + n := by
  rw [EfiMemoryDescriptor.mem_def, EfiMemoryDescriptor.limit]
  dsimp only [poolPage]
  unfold pageSize
  omega

/-- A map that lists the allocations is correct. -/
theorem mapOk_split {pages : List (Option ℕ)} (hlen : pages.length ≤ 64) :
    MapOk (map ⟨true, pages⟩) (buffers ⟨true, pages⟩) := by
  have hmem : ∀ d ∈ map ⟨true, pages⟩,
      (∃ i < pages.length, d = ⟨if (live ⟨true, pages⟩ i).isSome then 2 else 7, poolPage i, 2⟩) ∨
        d = ⟨7, poolPage pages.length, 16⟩ := by
    intro d hd
    rcases mem_append.mp hd with hd | hd
    · obtain ⟨i, hi, rfl⟩ := mem_map.mp hd
      exact .inl ⟨i, mem_range.mp hi, rfl⟩
    · exact .inr (mem_singleton.mp hd)
  constructor
  · intro d hd
    rcases hmem d hd with ⟨i, hi, rfl⟩ | rfl <;> dsimp only [poolPage, pageSize] <;> omega
  · intro d hd
    rcases hmem d hd with ⟨i, hi, rfl⟩ | rfl <;>
      dsimp only [EfiMemoryDescriptor.limit, poolPage, pageSize] <;> omega
  · refine pairwise_append.mpr ⟨?_, pairwise_singleton _ _, ?_⟩
    · refine pairwise_map.mpr (pairwise_lt_range.imp fun {i j} hij x hx hx' => ?_)
      rw [mem_desc] at hx hx'
      omega
    · intro d hd e he x hx hx'
      obtain ⟨i, hi, rfl⟩ := mem_map.mp hd
      rw [mem_singleton.mp he] at hx'
      rw [mem_desc] at hx hx'
      have := mem_range.mp hi
      omega
  · intro d hd b hb x y hx hy hpage
    obtain ⟨j, n, hj, hn, rfl⟩ := mem_buffers.mp hb
    have hyp := page_of_mem hy
    rcases hmem d hd with ⟨i, hi, rfl⟩ | rfl
    · rw [mem_desc] at hx
      obtain rfl : i = j := by omega
      simp [hn]
    · rw [mem_desc] at hx
      dsimp only at hj
      omega

/-- A map with the pool as a whole is correct. -/
theorem mapOk_whole {pages : List (Option ℕ)} (hlen : pages.length ≤ 64) :
    MapOk (map ⟨false, pages⟩) (buffers ⟨false, pages⟩) := by
  have hmem : ∀ d ∈ map ⟨false, pages⟩, d = ⟨2, poolPage 0, 128⟩ ∨ d = ⟨7, poolPage 64, 16⟩ := by
    intro d hd
    simpa [map] using hd
  constructor
  · intro d hd
    rcases hmem d hd with rfl | rfl <;> decide
  · intro d hd
    rcases hmem d hd with rfl | rfl <;> decide
  · refine pairwise_pair.mpr fun x hx hx' => ?_
    rw [mem_desc] at hx hx'
    omega
  · intro d hd b hb x y hx hy hpage
    obtain ⟨j, n, hj, hn, rfl⟩ := mem_buffers.mp hb
    have hyp := page_of_mem hy
    rcases hmem d hd with rfl | rfl
    · rfl
    · rw [mem_desc] at hx
      dsimp only at hj
      omega

end DemoState

/-- The demonstration firmware. It makes at most 64 allocations, reads any file as four zero bytes, and
cannot allocate pages at an address. -/
def demoServices : BootServices DemoState where
  desc_sz := 40
  getMemoryMap size s :=
    if 64 < s.pages.length then (.error, s)
    else if s.map.length * 40 ≤ size then (.success s.map, s) else (.tooSmall (s.map.length * 40), s)
  allocatePool type n s :=
    if type = 2 ∧ n ≤ 0x2000 ∧ s.pages.length < 64 then
      (some (poolPage s.pages.length), { s with pages := s.pages ++ [some n] })
    else (none, s)
  allocatePages _ _ _ s := (false, s)
  freePool a s :=
    let i := (a - 0x100000) / 0x2000
    if a = poolPage i then { s with pages := s.pages.set i none } else s
  exitBootServices s := (true, s)
  fileSize _ s := (some 4, s)
  readFile _ n s := (some (n, fun _ => 0), s)
  stale _ _ := ⟨0, 0, 0⟩

/-- A call of `GetMemoryMap` changes nothing, and returns the map of a pool with room. -/
theorem demo_getMemoryMap {s s' : DemoState} {r : MapReply} (h : demoServices.getMemoryMap n s = (r, s')) :
    s' = s ∧ ∀ map, r = .success map → map = s.map ∧ s.pages.length ≤ 64 := by
  dsimp only [demoServices] at h
  split_ifs at h with h1 h2 <;> obtain ⟨rfl, rfl⟩ := Prod.mk.inj h
  · exact ⟨rfl, by simp⟩
  · refine ⟨rfl, ?_⟩
    rintro map ⟨rfl⟩
    exact ⟨rfl, not_lt.mp h1⟩
  · exact ⟨rfl, by simp⟩

/-- A new allocation is the last one. -/
theorem live_append (s : DemoState) (n i : ℕ) :
    DemoState.live { s with pages := s.pages ++ [some n] } i =
      if i = s.pages.length then some n else s.live i := by
  unfold DemoState.live
  split_ifs with h
  · rw [h, getElem?_concat_length]
    rfl
  · rcases Nat.lt_or_gt_of_ne h with hlt | hgt
    · rw [getElem?_append_left hlt]
    · rw [getElem?_eq_none (by simp; omega), getElem?_eq_none hgt.le]

/-- The demonstration firmware is correct. -/
def demoFirmware : Firmware DemoState where
  toBootServices := demoServices
  buffers := DemoState.buffers
  desc_pos := by decide
  map_ok := by
    intro n s map s' h
    obtain ⟨rfl, hmap⟩ := demo_getMemoryMap h
    obtain ⟨rfl, hlen⟩ := hmap map rfl
    obtain ⟨split, pages⟩ := s'
    cases split with
    | false => exact DemoState.mapOk_whole hlen
    | true => exact DemoState.mapOk_split hlen
  map_count := by
    intro n s map s' h
    obtain ⟨rfl, hlen⟩ := (demo_getMemoryMap h).2 map rfl
    unfold DemoState.map
    split_ifs
    · simp
      omega
    · decide
  map_keep := by
    intro n s r s' h
    rw [(demo_getMemoryMap h).1]
    exact List.Subset.refl _
  pool_some := by
    intro t n s a s' h
    dsimp only [demoServices] at h
    split_ifs at h with hroom
    swap
    · exact absurd (Prod.mk.inj h).1 (by simp)
    obtain ⟨ha, rfl⟩ := Prod.mk.inj h
    obtain rfl := Option.some.inj ha
    obtain ⟨rfl, hn, hlen⟩ := hroom
    refine ⟨by unfold poolPage; omega, fun b hb => ?_, ?_⟩
    · obtain ⟨i, k, hi, -, rfl⟩ := DemoState.mem_buffers.mp hb
      unfold poolPage
      refine ⟨by dsimp only; omega, fun x hx hx' => ?_⟩
      obtain ⟨hx1, hx2⟩ := Buffer.mem_def.mp hx
      dsimp only [poolPage] at hx1 hx2
      omega
    · refine DemoState.mem_buffers.mpr ⟨s.pages.length, n, by simp, ?_, by rw [min_eq_left hn]⟩
      rw [live_append, if_pos rfl]
  pool_keep := by
    intro t n s r s' h
    dsimp only [demoServices] at h
    split_ifs at h <;> obtain ⟨-, rfl⟩ := Prod.mk.inj h
    · intro b hb
      obtain ⟨i, k, hi, hk, rfl⟩ := DemoState.mem_buffers.mp hb
      refine DemoState.mem_buffers.mpr ⟨i, k, by simp; omega, ?_, rfl⟩
      rw [live_append, if_neg hi.ne, hk]
    · exact List.Subset.refl _
  pages_true := by
    rintro t n a s s' ⟨⟩
  pages_keep := by
    rintro t n a s r s' ⟨rfl, rfl⟩
    exact List.Subset.refl _
  free_keep := by
    intro a s b hb hne
    dsimp only [demoServices]
    split_ifs with ha
    · obtain ⟨i, k, hi, hk, rfl⟩ := DemoState.mem_buffers.mp hb
      refine DemoState.mem_buffers.mpr ⟨i, k, by simpa using hi, ?_, rfl⟩
      have hother : (a - 0x100000) / 0x2000 ≠ i := by
        rintro rfl
        exact hne ha.symm
      rw [DemoState.live, List.getElem?_set_ne hother]
      exact hk
    · exact hb
  exit_keep := by
    rintro s r s' ⟨rfl, rfl⟩
    exact List.Subset.refl _
  size_keep := by
    rintro p s r s' ⟨rfl, rfl⟩
    exact List.Subset.refl _
  read_keep := by
    rintro p n s r s' ⟨rfl, rfl⟩
    exact List.Subset.refl _
  read_le := by
    rintro p n s sz bytes s' ⟨rfl, rfl⟩
    exact le_rfl

/-- No framebuffer. -/
def noFb : Framebuffer := ⟨0, 0, 0⟩

/-- An entry with a unified kernel image. -/
def ukiEntry : AbcEntry := ⟨[], [], [], cstr "asd.efi", true⟩

/-- A firmware that reports every allocation: the array is allocated for the 4 entries of the first
map, and the kernel is handed 7. -/
theorem handoff_overflow : ∃ h s',
    buildAndHandoff demoFirmware.toBootServices ukiEntry noFb ⟨true, []⟩ = some (h, s') ∧
      h.ctx.entry_count = 4 ∧ h.mmap_count = 7 ∧ ¬h.Ok := by
  have hfields : (buildAndHandoff demoFirmware.toBootServices ukiEntry noFb ⟨true, []⟩).map
      (fun r => (r.1.mmap_count, r.1.ctx.entry_count)) = some (7, 4) := by
    decide +kernel
  obtain ⟨⟨h, s'⟩, hrun, hf⟩ := Option.map_eq_some_iff.mp hfields
  obtain ⟨hcount, hcap⟩ := Prod.mk.inj hf
  refine ⟨h, s', hrun, hcap, hcount, fun hok => ?_⟩
  have hle := hok.1
  rw [hcount, hcap] at hle
  exact absurd hle (by decide)

end FreeAsd.Boot
