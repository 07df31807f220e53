import FreeAsd.Lib.Bytes
import FreeAsd.Mm.Phys

/-!
# The kernel heap

The last part of `kernel/mm/mm.c`. The header of a slab is bytes of memory: `kfree` finds it by rounding a
pointer down and recognises it by its contents, which can be those of an object. A pointer is the physical
address behind it, and a list of slabs is the list of their addresses.
-/

namespace FreeAsd.Mm

/-- `slab_sizes`. -/
def slabSizes : List ℕ := [8, 16, 32, 64, 128, 256, 512, 1024, 2048, 4096]

/-- `slab_sizes[cls]`. -/
def slabSize (cls : ℕ) : ℕ := slabSizes.getD cls 0

/-- `SLAB_HDR_SZ`. -/
def slabHdrSz : ℕ := 64

/-- The number of bits of the bitmap of a slab. -/
def slabBits : ℕ := 288

/-! ## The fields of `slab_hdr_t` -/

/-- `free_count`. -/
def freeCount (m : Mem) (s : ℕ) : ℕ := m.rd s 4

/-- `obj_size`. -/
def objSize (m : Mem) (s : ℕ) : ℕ := m.rd (s + 4) 4

/-- `capacity`. -/
def capacity (m : Mem) (s : ℕ) : ℕ := m.rd (s + 8) 4

/-- The address of the byte of `bitmap` with the bit of a slot. -/
def bitmapByte (s slot : ℕ) : ℕ := s + 24 + slot / 8

/-- The bit of a slot. -/
def slotBit (m : Mem) (s slot : ℕ) : Bool := (m (bitmapByte s slot)).toNat.testBit (slot % 8)

/-- `bitmap[slot / 8] |= 1 << (slot % 8)`. -/
def setSlot (m : Mem) (s slot : ℕ) : Mem :=
  Function.update m (bitmapByte s slot)
    (UInt8.ofNat ((m (bitmapByte s slot)).toNat ||| 1 <<< (slot % 8)))

/-- `bitmap[slot / 8] &= ~(1 << (slot % 8))`. -/
def clearSlot (m : Mem) (s slot : ℕ) : Mem :=
  Function.update m (bitmapByte s slot)
    (UInt8.ofNat ((m (bitmapByte s slot)).toNat &&& (255 - 1 <<< (slot % 8))))

/-! ## Allocation -/

/-- Memory, the lists of slabs behind `g_slab_heads`, and the physical allocator. -/
structure Heap where
  /-- The bytes of physical memory. -/
  mem : Mem
  /-- The slabs of each class. -/
  slabs : ℕ → List ℕ
  /-- The physical allocator, whose page records `kfree` reads. -/
  phys : PhysState

/-- `slab_class`: the first class whose objects are large enough. -/
def slabClass (size : ℕ) : Option ℕ := slabSizes.findIdx? (size ≤ ·)

/-- `slab_pages` of `slab_new`. -/
def slabPages (cls : ℕ) : ℕ := if slabSize cls ≥ 2048 then 2 else 1

/-- The order of the block that `slab_new` asks for. -/
def slabOrder (cls : ℕ) : ℕ := if slabPages cls = 2 then 1 else 0

/-- The number of slots that `slab_new` computes, which `free_count` starts with. -/
def slabSlots (cls : ℕ) : ℕ := (slabPages cls * pageSize - slabHdrSz) / slabSize cls

/-- The header that `slab_new` writes at `s`: `capacity` is cut to the bits of the bitmap after
`free_count` has been set from it. -/
def slabInit (m : Mem) (cls s : ℕ) : Mem :=
  let m := m.fill s slabHdrSz 0
  let m := m.wr (s + 4) 4 (slabSize cls)
  let m := m.wr (s + 8) 4 (slabSlots cls)
  let m := m.wr s 4 (capacity m s)
  if capacity m s > slabBits then m.wr (s + 8) 4 slabBits else m

/-- `slab_new`: the address of the new slab, or 0. -/
def slabNew (cls : ℕ) (h : Heap) : ℕ × Heap :=
  let r := ammPhysAlloc (slabOrder cls) h.phys
  if r.1 = 0 then (0, { h with phys := r.2 })
  else (r.1, { h with mem := slabInit h.mem cls r.1, phys := r.2 })

/-- The slab that `kmalloc` takes an object from: the first one with free slots, or a new one, which
goes to the head of the list. -/
def findSlab (cls : ℕ) (h : Heap) : ℕ × Heap :=
  match (h.slabs cls).find? fun s => freeCount h.mem s ≠ 0 with
  | some s => (s, h)
  | none =>
    let r := slabNew cls h
    if r.1 = 0 then r
    else (r.1, { r.2 with slabs := Function.update r.2.slabs cls (r.1 :: r.2.slabs cls) })

/-- The first free slot by the bitmap; slot 0 when the loop ends without one. -/
def findSlot (m : Mem) (s : ℕ) : ℕ :=
  ((List.range (capacity m s)).find? fun i => !slotBit m s i).getD 0

/-- Take a slot: set its bit and count it. -/
def takeSlot (m : Mem) (s slot : ℕ) : Mem :=
  let m := setSlot m s slot
  m.wr s 4 (freeCount m s + 2^32 - 1)

/-- The address of a slot of a slab. -/
def slotAddr (cls s slot : ℕ) : ℕ := s + slabHdrSz + slot * slabSize cls

/-- The order of a block of at least `size` bytes, from `order` on with `n` steps left. -/
def largeOrderFrom (size : ℕ) : ℕ → ℕ → ℕ
  | 0, order => order
  | n + 1, order => if pageSize <<< order < size then largeOrderFrom size n (order + 1) else order

/-- The order that `kmalloc` computes for a large object. Sizes up to `2^63` need at most 51 steps;
above that the shift of the source wraps and its loop does not end. -/
def largeOrder (size : ℕ) : ℕ := largeOrderFrom size 52 0

/-- `kmalloc`: a pointer, or 0. -/
def kmalloc (size : ℕ) (h : Heap) : ℕ × Heap :=
  if size = 0 then (0, h)
  else
    match slabClass size with
    | none =>
      let r := ammPhysAlloc (largeOrder size) h.phys
      (r.1, { h with phys := r.2 })
    | some cls =>
      let r := findSlab cls h
      if r.1 = 0 then r
      else
        let slot := findSlot r.2.mem r.1
        (slotAddr cls r.1 slot, { r.2 with mem := takeSlot r.2.mem r.1 slot })

/-! ## Release -/

/-- What `kfree` decides to do with a pointer. -/
inductive KfreeAction
  | ignore
  | physFree (paddr order : ℕ)
  | release (s slot : ℕ)
deriving DecidableEq, Repr

/-- The header that `kfree` looks at: the page of the pointer, or the page before it when the record
of the page says order 1 and the pointer is in the upper half of a pair of pages. -/
def kfreeHeader (ptr : ℕ) (h : Heap) : ℕ :=
  let s := ptr / pageSize * pageSize
  if (h.phys.pageInfo s).order = 1 ∧ ptr % (2 * pageSize) ≥ pageSize then s - pageSize else s

/-- The decision of `kfree` about a pointer other than NULL. -/
def kfreeAction (ptr : ℕ) (h : Heap) : KfreeAction :=
  if ptr % pageSize = 0 ∧ objSize h.mem ptr ≥ 8 ∧ objSize h.mem ptr ≤ 4096 then
    .physFree ptr (h.phys.pageInfo ptr).order
  else
    let s := kfreeHeader ptr h
    if objSize h.mem s < 8 ∨ objSize h.mem s > 4096 then
      .physFree ptr (h.phys.pageInfo ptr).order
    else
      let slot := (ptr + 2^64 - (s + slabHdrSz)) % 2^64 / objSize h.mem s % 2^32
      if slot ≥ capacity h.mem s then .ignore
      else if !slotBit h.mem s slot then .ignore
      else .release s slot

/-- Give a slot back: clear its bit and count it. -/
def releaseSlot (m : Mem) (s slot : ℕ) : Mem :=
  let m := clearSlot m s slot
  m.wr s 4 (freeCount m s + 1)

/-- `kfree`. -/
def kfree (ptr : ℕ) (h : Heap) : Heap :=
  if ptr = 0 then h
  else
    match kfreeAction ptr h with
    | .ignore => h
    | .physFree paddr order => { h with phys := ammPhysFree paddr order h.phys }
    | .release s slot => { h with mem := releaseSlot h.mem s slot }

end FreeAsd.Mm
