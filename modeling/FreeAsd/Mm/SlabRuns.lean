import FreeAsd.Mm.PhysRuns
import FreeAsd.Mm.SlabInvariant
import Mathlib.Order.CompletePartialOrder

/-!
# Whole runs of the kernel heap

`HeapInv` ties the bitmap of every slab to its counter and to the live objects. `slab_new` sets `free_count`
to 504 in a slab of 8-byte objects and cuts the capacity to 288, so that the search can fall back to a live
slot; `SlotFree` says that it does not. The physical allocator returns fresh blocks (`FreshAlloc`,
`freshAlloc_of_physInv`).
-/

namespace FreeAsd.Mm

open Function List

/-! ## Runs -/

/-- The heap with its live objects, each a pointer and the size asked for. -/
structure HeapRun where
  heap : Heap
  live : List (ℕ × ℕ)

/-- The size of the object that `kmalloc` returns for a size. -/
def objBytes (size : ℕ) : ℕ :=
  match slabClass size with
  | some cls => slabSize cls
  | none => pageSize <<< largeOrder size

/-- The addresses of an object. -/
def objRange (o : ℕ × ℕ) : Set ℕ := Set.Ico o.1 (o.1 + objBytes o.2)

/-- The blocks of the physical allocator that the heap holds: its slabs and the large objects. -/
inductive HeapBlock (r : HeapRun) : Block → Prop
  | slab {cls s : ℕ} (hcls : cls < 10) (hs : s ∈ r.heap.slabs cls) :
      HeapBlock r (blk s (slabOrder cls))
  | large {o : ℕ × ℕ} (ho : o ∈ r.live) (hc : slabClass o.2 = none) :
      HeapBlock r (blk o.1 (largeOrder o.2))

theorem HeapBlock.congr {r : HeapRun} {h : Heap} {b : Block} (hb : HeapBlock ⟨h, r.live⟩ b)
    (hs : h.slabs = r.heap.slabs) : HeapBlock r b := by
  cases hb with
  | slab hcls hmem => exact .slab hcls (hs ▸ hmem)
  | large ho hc => exact .large ho hc

/-- The call of `amm_phys_alloc` for a block of an order gives a fresh block or fails. -/
structure FreshAlloc (r : HeapRun) (order : ℕ) : Prop where
  /-- The buddy allocator is in use. -/
  late : r.heap.phys.g_early_boot = false
  /-- The block is naturally aligned. -/
  aligned : (ammPhysAlloc order r.heap.phys).1 ≠ 0 →
    (blk (ammPhysAlloc order r.heap.phys).1 order).Aligned
  /-- The block is apart from those that the heap holds. -/
  apart : (ammPhysAlloc order r.heap.phys).1 ≠ 0 → ∀ b, HeapBlock r b →
    (blk (ammPhysAlloc order r.heap.phys).1 order).Apart b
  /-- The block is in physical memory. -/
  fits : (ammPhysAlloc order r.heap.phys).1 ≠ 0 →
    (ammPhysAlloc order r.heap.phys).1 + 2^(order + pageShift) ≤ 2^52
  /-- The records of the heap's blocks are kept. -/
  kept : ∀ b, HeapBlock r b →
    (ammPhysAlloc order r.heap.phys).2.pageInfo b.base = r.heap.phys.pageInfo b.base

/-- The order of the block that `kmalloc` asks the physical allocator for, if it does. -/
def physCall (size : ℕ) (h : Heap) : Option ℕ :=
  match slabClass size with
  | none => some (largeOrder size)
  | some cls =>
    match (h.slabs cls).find? fun s => freeCount h.mem s ≠ 0 with
    | some _ => none
    | none => some (slabOrder cls)

/-- One step of a run in which `guard` holds of every call of `kmalloc`. -/
inductive HeapStep (guard : Heap → ℕ → Prop) : HeapRun → HeapRun → Prop
  | malloc (r : HeapRun) {size p : ℕ} {h : Heap} (hg : guard r.heap size)
      (hf : ∀ order, physCall size r.heap = some order → FreshAlloc r order)
      (hm : kmalloc size r.heap = (p, h)) (hp : p ≠ 0) : HeapStep guard r ⟨h, (p, size) :: r.live⟩
  | mallocFails (r : HeapRun) {size : ℕ} {h : Heap}
      (hf : ∀ order, physCall size r.heap = some order → FreshAlloc r order)
      (hm : kmalloc size r.heap = (0, h)) : HeapStep guard r ⟨h, r.live⟩
  | free (r : HeapRun) {o : ℕ × ℕ} (ho : o ∈ r.live) :
      HeapStep guard r ⟨kfree o.1 r.heap, r.live.erase o⟩
  | write (r : HeapRun) {m : Mem}
      (hm : ∀ a, m a ≠ r.heap.mem a → ∃ o ∈ r.live, a ∈ objRange o) :
      HeapStep guard r ⟨{ r.heap with mem := m }, r.live⟩
  | other (r : HeapRun) {m : Mem} {phys : PhysState}
      (hm : ∀ b, HeapBlock r b → ∀ a ∈ b, m a = r.heap.mem a)
      (hp : ∀ b, HeapBlock r b → phys.pageInfo b.base = r.heap.phys.pageInfo b.base) :
      HeapStep guard r ⟨{ r.heap with mem := m, phys := phys }, r.live⟩

/-- A heap at boot: empty lists of slabs. -/
def HeapRun.start (m : Mem) (phys : PhysState) : HeapRun := ⟨⟨m, fun _ => [], phys⟩, []⟩

/-! ## The invariant -/

/-- The record of a block of the heap: allocated, with the order of the block. -/
def RecordOk (phys : PhysState) (b : Block) : Prop :=
  (phys.pageInfo b.base).flags = pageAlloc ∧ (phys.pageInfo b.base).order + pageShift = b.order

/-- What the steps of a run keep. -/
structure HeapInv (r : HeapRun) : Prop where
  /-- Every slab has a header. -/
  hdr : ∀ cls < 10, ∀ s ∈ r.heap.slabs cls, SlabHdr r.heap.mem cls s
  /-- The heap's blocks are aligned and recorded. -/
  block : ∀ b, HeapBlock r b → b.Aligned ∧ RecordOk r.heap.phys b
  /-- The heap's blocks are in physical memory. -/
  fits : ∀ b, HeapBlock r b → b.base + 2^b.order ≤ 2^52
  /-- Slabs do not overlap. -/
  slabs_apart : ∀ c < 10, ∀ s ∈ r.heap.slabs c, ∀ d < 10, ∀ t ∈ r.heap.slabs d, s ≠ t →
    (blk s (slabOrder c)).Apart (blk t (slabOrder d))
  /-- Large objects do not overlap slabs. -/
  large_apart : ∀ o ∈ r.live, slabClass o.2 = none → ∀ d < 10, ∀ t ∈ r.heap.slabs d,
    (blk o.1 (largeOrder o.2)).Apart (blk t (slabOrder d))
  /-- A small object is a slot of a slab of its class, and its bit is set. -/
  obj : ∀ o ∈ r.live, ∀ cls, slabClass o.2 = some cls → ∃ s ∈ r.heap.slabs cls,
    ∃ slot < slabCap cls, o.1 = slotAddr cls s slot ∧ slotBit r.heap.mem s slot = true
  /-- No live object is at address 0. -/
  nonzero : ∀ o ∈ r.live, o.1 ≠ 0
  /-- No two live objects overlap. -/
  disjoint : r.live.Pairwise fun o o' => Disjoint (objRange o) (objRange o')
  /-- A set bit of a slab of 8-byte objects is that of a live object. -/
  exact : ∀ s ∈ r.heap.slabs 0, ∀ slot < slabCap 0, slotBit r.heap.mem s slot = true →
    ∃ size, (slotAddr 0 s slot, size) ∈ r.live

theorem not_heapBlock_start (m : Mem) (phys : PhysState) (b : Block) : ¬HeapBlock (HeapRun.start m phys) b := by
  intro hb
  cases hb with
  | slab _ hs => exact not_mem_nil hs
  | large ho _ => exact not_mem_nil ho

theorem HeapInv.start (m : Mem) (phys : PhysState) : HeapInv (HeapRun.start m phys) where
  hdr _ _ _ hs := absurd hs List.not_mem_nil
  block b hb := absurd hb (not_heapBlock_start m phys b)
  fits b hb := absurd hb (not_heapBlock_start m phys b)
  slabs_apart _ _ _ hs := absurd hs not_mem_nil
  large_apart _ ho := absurd ho not_mem_nil
  obj _ ho := absurd ho not_mem_nil
  nonzero _ ho := absurd ho not_mem_nil
  disjoint := List.Pairwise.nil
  exact _ hs := absurd hs not_mem_nil

variable {r : HeapRun} {m : Mem} {o : ℕ × ℕ} {cls s slot size : ℕ}

/-- The class of a slab is in its header. -/
theorem HeapInv.class_eq (h : HeapInv r) {d : ℕ} (hc : cls < 10) (hs : s ∈ r.heap.slabs cls)
    (hd : d < 10) (ht : s ∈ r.heap.slabs d) : cls = d :=
  slabSize_injective cls hc d hd ((h.hdr cls hc s hs).size.symm.trans (h.hdr d hd s ht).size)

/-- An address is in one slab at most. -/
theorem HeapInv.slab_eq (h : HeapInv r) {d t a : ℕ} (hcls : cls < 10) (hs : s ∈ r.heap.slabs cls)
    (hd : d < 10) (ht : t ∈ r.heap.slabs d) (ha : a ∈ blk s (slabOrder cls))
    (ha' : a ∈ blk t (slabOrder d)) : cls = d ∧ s = t := by
  obtain rfl : s = t := by
    by_contra hst
    exact Block.apart_iff.mp (h.slabs_apart cls hcls s hs d hd t ht hst) a ha ha'
  exact ⟨h.class_eq hcls hs hd ht, rfl⟩

theorem blk_end (s o : ℕ) : (blk s o).base + 2^(blk s o).order = s + 2^(o + pageShift) := rfl

theorem slotAddr_ne_zero (cls s slot : ℕ) : slotAddr cls s slot ≠ 0 := by
  unfold slotAddr slabHdrSz
  omega

/-- A slot lies inside its slab, after the header. -/
theorem slot_inside (hcls : cls < 10) (hslot : slot < slabCap cls) :
    s + slabHdrSz ≤ slotAddr cls s slot ∧
      slotAddr cls s slot + slabSize cls ≤ s + 2^(slabOrder cls + pageShift) := by
  obtain ⟨-, -, -, -, -, hfit⟩ := slab_class_facts cls hcls
  have hmul : (slot + 1) * slabSize cls ≤ slabCap cls * slabSize cls := Nat.mul_le_mul_right _ hslot
  unfold slotAddr
  rw [add_mul] at hmul
  omega

theorem slotAddr_mem (hcls : cls < 10) (hslot : slot < slabCap cls) :
    slotAddr cls s slot ∈ blk s (slabOrder cls) := by
  obtain ⟨hlo, hhi⟩ := slot_inside (s := s) hcls hslot
  have hpos := (slab_class_facts cls hcls).1
  rw [Block.mem_def, blk_end, blk_base]
  omega

/-- An address is that of one slot at most. -/
theorem HeapInv.slot_eq (h : HeapInv r) {d t i : ℕ} (hcls : cls < 10) (hs : s ∈ r.heap.slabs cls)
    (hslot : slot < slabCap cls) (hd : d < 10) (ht : t ∈ r.heap.slabs d) (hi : i < slabCap d)
    (he : slotAddr cls s slot = slotAddr d t i) : cls = d ∧ s = t ∧ slot = i := by
  obtain ⟨rfl, rfl⟩ := h.slab_eq hcls hs hd ht (slotAddr_mem hcls hslot) (he ▸ slotAddr_mem hd hi)
  have hpos : 0 < slabSize cls := lt_of_lt_of_le (by decide) (slab_class_facts cls hcls).1
  unfold slotAddr at he
  exact ⟨rfl, rfl, Nat.eq_of_mul_eq_mul_right hpos (by omega)⟩

/-- The addresses of a small object are in its slab, after the header. -/
theorem mem_slab_of_mem_slot {a : ℕ} (hc : slabClass o.2 = some cls) (hslot : slot < slabCap cls)
    (he : o.1 = slotAddr cls s slot) (ha : a ∈ objRange o) :
    a ∈ blk s (slabOrder cls) ∧ s + slabHdrSz ≤ a := by
  obtain ⟨hcls, -⟩ := slabClass_spec hc
  obtain ⟨hlo, hhi⟩ := slot_inside (s := s) hcls hslot
  unfold objRange objBytes at ha
  rw [hc, he, Set.mem_Ico] at ha
  rw [Block.mem_def, blk_end]
  show (s ≤ a ∧ _) ∧ _
  dsimp only at ha
  omega

/-- A large object takes up its block. -/
theorem mem_blk_of_large {a : ℕ} (hc : slabClass o.2 = none) (ha : a ∈ objRange o) :
    a ∈ blk o.1 (largeOrder o.2) := by
  unfold objRange objBytes at ha
  rw [hc, pageSize_shiftLeft] at ha
  exact ha

theorem slabHdrSz_le (o : ℕ) : slabHdrSz ≤ 2^(o + pageShift) :=
  le_trans (by decide) (Nat.pow_le_pow_right (by decide) (Nat.le_add_left pageShift o))

/-- No live object has bytes of the header of a slab. -/
theorem HeapInv.not_header (h : HeapInv r) {a : ℕ} (ho : o ∈ r.live) (ha : a ∈ objRange o)
    (hcls : cls < 10) (hs : s ∈ r.heap.slabs cls) : a < s ∨ s + slabHdrSz ≤ a := by
  have hhead := slabHdrSz_le (slabOrder cls)
  by_contra hcon
  have hin : a ∈ blk s (slabOrder cls) := by
    rw [Block.mem_def, blk_end]
    show s ≤ a ∧ _
    omega
  rcases hc : slabClass o.2 with _ | d
  · -- A large object is apart from the slab.
    exact Block.apart_iff.mp (h.large_apart o ho hc cls hcls s hs) a (mem_blk_of_large hc ha) hin
  · obtain ⟨t, ht, slot, hslot, he, -⟩ := h.obj o ho d hc
    obtain ⟨hd, -⟩ := slabClass_spec hc
    obtain ⟨hin', hlo⟩ := mem_slab_of_mem_slot hc hslot he ha
    obtain ⟨-, rfl⟩ := h.slab_eq hd ht hcls hs hin' hin
    omega

/-- Headers at the start of blocks that are apart do not overlap. -/
theorem header_apart {t a o o' : ℕ} (hap : (blk s o).Apart (blk t o')) (hlo : t ≤ a)
    (hhi : a < t + slabHdrSz) : a < s ∨ s + slabHdrSz ≤ a := by
  have h1 := slabHdrSz_le o
  have h2 := slabHdrSz_le o'
  unfold Block.Apart at hap
  rw [blk_end, blk_end, blk_base, blk_base] at hap
  omega

/-- The heap does not depend on memory outside the headers nor on records of other blocks. -/
theorem HeapInv.frame (h : HeapInv r) {h' : Heap} (hs : h'.slabs = r.heap.slabs)
    (hm : ∀ cls < 10, ∀ s ∈ r.heap.slabs cls, ∀ a, s ≤ a → a < s + slabHdrSz →
      h'.mem a = r.heap.mem a)
    (hp : ∀ b, HeapBlock r b → h'.phys.pageInfo b.base = r.heap.phys.pageInfo b.base) :
    HeapInv ⟨h', r.live⟩ := by
  have hblk : ∀ b, HeapBlock ⟨h', r.live⟩ b → HeapBlock r b := fun b hb => hb.congr hs
  have hbit : ∀ cls < 10, ∀ s ∈ r.heap.slabs cls, ∀ i < slabCap cls,
      slotBit h'.mem s i = slotBit r.heap.mem s i := by
    intro cls hcls s hmem i hi
    have hcap := (slab_class_facts cls hcls).2.2.1
    exact (header_congr (hm cls hcls s hmem)).2.2.2 i (hi.trans_le hcap)
  constructor
  case hdr =>
    intro cls hcls s hmem
    rw [hs] at hmem
    exact (h.hdr cls hcls s hmem).congr hcls (hm cls hcls s hmem)
  case block =>
    intro b hb
    obtain ⟨hal, hrec⟩ := h.block b (hblk b hb)
    refine ⟨hal, ?_⟩
    unfold RecordOk at hrec ⊢
    rwa [hp b (hblk b hb)]
  case fits => exact fun b hb => h.fits b (hblk b hb)
  case slabs_apart => rw [hs]; exact h.slabs_apart
  case large_apart => rw [hs]; exact h.large_apart
  case obj =>
    rw [hs]
    intro o ho cls hc
    obtain ⟨s, hmem, slot, hslot, he, hb⟩ := h.obj o ho cls hc
    refine ⟨s, hmem, slot, hslot, he, ?_⟩
    exact (hbit cls (slabClass_spec hc).1 s hmem slot hslot).trans hb
  case nonzero => exact h.nonzero
  case disjoint => exact h.disjoint
  case exact =>
    rw [hs]
    intro s hmem slot hslot hb
    rw [hbit 0 (by decide) s hmem slot hslot] at hb
    exact h.exact s hmem slot hslot hb

/-! ## `kmalloc` -/

/-- A successful call of the buddy allocator records the block. -/
theorem ammPhysAlloc_record {order : ℕ} {phys : PhysState} (he : phys.g_early_boot = false)
    (hp : (ammPhysAlloc order phys).1 ≠ 0) : order ≤ maxOrder ∧
      (ammPhysAlloc order phys).2.pageInfo (ammPhysAlloc order phys).1 =
        ⟨pageAlloc, order % 256, 1⟩ := by
  have hfrom : ∀ n o, (allocFrom order n o phys).1 ≠ 0 →
      (allocFrom order n o phys).2.pageInfo (allocFrom order n o phys).1 =
        ⟨pageAlloc, order % 256, 1⟩ := by
    intro n
    induction n with
    | zero => exact fun o h => absurd rfl h
    | succ n ih =>
      intro o h
      unfold allocFrom at h ⊢
      split at h
      · exact ih (o + 1) h
      · simp [PhysState.pageInfo, markAlloc]
  unfold ammPhysAlloc at hp ⊢
  rw [he, if_neg Bool.false_ne_true] at hp ⊢
  by_cases ho : order > maxOrder
  · rw [if_pos ho] at hp; exact absurd rfl hp
  · rw [if_neg ho] at hp ⊢
    exact ⟨Nat.le_of_not_lt ho, hfrom _ _ hp⟩

/-- What is known of the block of a fresh allocation. -/
theorem FreshAlloc.spec {order p : ℕ} {phys : PhysState} (h : FreshAlloc r order)
    (he : ammPhysAlloc order r.heap.phys = (p, phys)) (hp : p ≠ 0) :
    ((blk p order).Aligned ∧ RecordOk phys (blk p order)) ∧ p + 2^(order + pageShift) ≤ 2^52 ∧
      (∀ b, HeapBlock r b → (blk p order).Apart b) ∧
      ∀ b, HeapBlock r b → phys.pageInfo b.base = r.heap.phys.pageInfo b.base := by
  obtain ⟨hlate, hal, hap, hfit, hkept⟩ := h
  have hrec := @ammPhysAlloc_record order _ hlate
  rw [he] at hal hap hfit hkept hrec
  obtain ⟨hle, hrec⟩ := hrec hp
  refine ⟨⟨hal hp, ?_⟩, hfit hp, hap hp, hkept⟩
  unfold RecordOk
  rw [blk_base, hrec, blk_order]
  refine ⟨rfl, ?_⟩
  show order % 256 + _ = _
  unfold maxOrder at hle
  omega

/-- A new slab, with its header written, joins the list of its class. -/
theorem HeapInv.addSlab (h : HeapInv r) (hcls : cls < 10) (hhdr : SlabHdr r.heap.mem cls s)
    (hbits : ∀ i < slabBits, slotBit r.heap.mem s i = false)
    (hblk : (blk s (slabOrder cls)).Aligned ∧ RecordOk r.heap.phys (blk s (slabOrder cls)))
    (hfit : s + 2^(slabOrder cls + pageShift) ≤ 2^52)
    (hap : ∀ b, HeapBlock r b → (blk s (slabOrder cls)).Apart b) :
    HeapInv ⟨{ r.heap with slabs := update r.heap.slabs cls (s :: r.heap.slabs cls) },
      r.live⟩ := by
  -- A member of the new lists is the new slab or was there before.
  have hmem : ∀ d t, t ∈ update r.heap.slabs cls (s :: r.heap.slabs cls) d ↔
      (d = cls ∧ t = s) ∨ t ∈ r.heap.slabs d := by
    intro d t
    by_cases hd : d = cls
    · subst hd
      rw [update_self, mem_cons, and_iff_right rfl]
    · rw [update_of_ne hd, or_iff_right fun e => hd e.1]
  have hnew : ∀ b, HeapBlock ⟨{ r.heap with
      slabs := update r.heap.slabs cls (s :: r.heap.slabs cls) }, r.live⟩ b →
      b = blk s (slabOrder cls) ∨ HeapBlock r b := by
    intro b hb
    cases hb with
    | slab hd ht =>
      rcases (hmem _ _).mp ht with ⟨rfl, rfl⟩ | ht
      · exact .inl rfl
      · exact .inr (.slab hd ht)
    | large ho hc => exact .inr (.large ho hc)
  constructor
  case hdr =>
    intro d hd t ht
    rcases (hmem d t).mp ht with ⟨rfl, rfl⟩ | ht
    · exact hhdr
    · exact h.hdr d hd t ht
  case block => exact fun b hb => (hnew b hb).elim (fun e => e ▸ hblk) (h.block b)
  case fits => exact fun b hb => (hnew b hb).elim (fun e => e ▸ hfit) (h.fits b)
  case slabs_apart =>
    intro c hc t ht d hd u hu hne
    rcases (hmem c t).mp ht with ⟨rfl, rfl⟩ | ht' <;> rcases (hmem d u).mp hu with ⟨rfl, rfl⟩ | hu'
    · exact absurd rfl hne
    · exact hap _ (.slab hd hu')
    · exact (hap _ (.slab hc ht')).symm
    · exact h.slabs_apart c hc t ht' d hd u hu' hne
  case large_apart =>
    intro o ho hc d hd t ht
    rcases (hmem d t).mp ht with ⟨rfl, rfl⟩ | ht
    · exact (hap _ (.large ho hc)).symm
    · exact h.large_apart o ho hc d hd t ht
  case obj =>
    intro o ho c hc
    obtain ⟨t, ht, slot, hslot, he, hb⟩ := h.obj o ho c hc
    exact ⟨t, (hmem c t).mpr (.inr ht), slot, hslot, he, hb⟩
  case nonzero => exact h.nonzero
  case disjoint => exact h.disjoint
  case exact =>
    intro t ht slot hslot hb
    rcases (hmem 0 t).mp ht with ⟨-, rfl⟩ | ht
    · have hlt : slot < slabBits := hslot.trans_le (by decide)
      rw [hbits slot hlt] at hb
      cases hb
    · exact h.exact t ht slot hslot hb

section

variable (h : HeapInv r) (hs : s ∈ r.heap.slabs cls)

include h hs

/-- Objects in different slots do not overlap. -/
theorem HeapInv.slots_disjoint {d t i : ℕ} (hc : slabClass size = some cls)
    (hslot : slot < slabCap cls) (hd : slabClass o.2 = some d) (ht : t ∈ r.heap.slabs d)
    (hi : i < slabCap d) (he : o.1 = slotAddr d t i) (hne : s ≠ t ∨ slot ≠ i) :
    Disjoint (objRange (slotAddr cls s slot, size)) (objRange o) := by
  have hcls := (slabClass_spec hc).1
  have hdlt := (slabClass_spec hd).1
  rw [Set.disjoint_left]
  intro a ha ha'
  obtain ⟨hin, -⟩ := mem_slab_of_mem_slot (o := (slotAddr cls s slot, size)) hc hslot rfl ha
  obtain ⟨hin', -⟩ := mem_slab_of_mem_slot hd hi he ha'
  -- Two slots of one slab.
  obtain ⟨rfl, rfl⟩ := h.slab_eq hcls hs hdlt ht hin hin'
  have hsi : slot ≠ i := hne.resolve_left (fun e => e rfl)
  unfold objRange objBytes at ha ha'
  rw [Set.mem_Ico] at ha ha'
  simp only [hc, hd, he] at ha ha'
  unfold slotAddr at ha ha'
  rcases Nat.lt_or_gt_of_ne hsi with hlt | hlt
  · have := Nat.mul_le_mul_right (slabSize cls) hlt
    rw [Nat.succ_mul] at this
    omega
  · have := Nat.mul_le_mul_right (slabSize cls) hlt
    rw [Nat.succ_mul] at this
    omega

/-- A small object and a large one do not overlap. -/
theorem HeapInv.large_disjoint (hc : slabClass size = some cls) (hslot : slot < slabCap cls)
    (ho : o ∈ r.live) (hd : slabClass o.2 = none) :
    Disjoint (objRange (slotAddr cls s slot, size)) (objRange o) := by
  rw [Set.disjoint_left]
  intro a ha ha'
  obtain ⟨hin, -⟩ := mem_slab_of_mem_slot (o := (slotAddr cls s slot, size)) hc hslot rfl ha
  exact Block.apart_iff.mp (h.large_apart o ho hd cls (slabClass_spec hc).1 s hs) a
    (mem_blk_of_large hd ha') hin

/-- A change of the header of one slab: what has to be shown of its fields. -/
theorem HeapInv.setHeader {live : List (ℕ × ℕ)} (hcls : cls < 10)
    (hout : SameOutside s r.heap.mem m) (hhdr : SlabHdr m cls s)
    (hblk : ∀ b, HeapBlock ⟨{ r.heap with mem := m }, live⟩ b → HeapBlock r b)
    (hlive : ∀ o ∈ live, slabClass o.2 = none → o ∈ r.live)
    (hobj : ∀ o ∈ live, ∀ c, slabClass o.2 = some c →
      ∃ t ∈ r.heap.slabs c, ∃ i < slabCap c, o.1 = slotAddr c t i ∧ slotBit m t i = true)
    (hnz : ∀ o ∈ live, o.1 ≠ 0)
    (hdis : live.Pairwise fun o o' => Disjoint (objRange o) (objRange o'))
    (hexact : ∀ t ∈ r.heap.slabs 0, ∀ i < slabCap 0, slotBit m t i = true →
      ∃ size, (slotAddr 0 t i, size) ∈ live) :
    HeapInv ⟨{ r.heap with mem := m }, live⟩ := by
  constructor
  case hdr =>
    intro d hd t ht
    by_cases hst : s = t
    · subst hst
      obtain rfl := h.class_eq hcls hs hd ht
      exact hhdr
    · exact (h.hdr d hd t ht).congr hd fun a hlo hhi =>
        hout a (header_apart (h.slabs_apart cls hcls s hs d hd t ht hst) hlo hhi)
  case block => exact fun b hb => h.block b (hblk b hb)
  case fits => exact fun b hb => h.fits b (hblk b hb)
  case slabs_apart => exact h.slabs_apart
  case large_apart => exact fun o ho hc => h.large_apart o (hlive o ho hc) hc
  case obj => exact hobj
  case nonzero => exact hnz
  case disjoint => exact hdis
  case exact => exact hexact

/-- A change of the header of one slab does not change the bits of the others. -/
theorem HeapInv.slotBit_other {d t i : ℕ} (hcls : cls < 10) (hout : SameOutside s r.heap.mem m)
    (hd : d < 10) (ht : t ∈ r.heap.slabs d) (hne : s ≠ t) (hi : i < slabCap d) :
    slotBit m t i = slotBit r.heap.mem t i := by
  have hcap := (slab_class_facts d hd).2.2.1
  refine (header_congr fun a hlo hhi => ?_).2.2.2 i (hi.trans_le hcap)
  exact hout a (header_apart (h.slabs_apart cls hcls s hs d hd t ht hne) hlo hhi)

/-- Taking a free slot makes a new object that overlaps no other. -/
theorem HeapInv.take (hc : slabClass size = some cls) (hslot : slot < slabCap cls)
    (hfree : slotBit r.heap.mem s slot = false) :
    HeapInv ⟨{ r.heap with mem := takeSlot r.heap.mem s slot },
      (slotAddr cls s slot, size) :: r.live⟩ := by
  have hcls := (slabClass_spec hc).1
  have hcap := (slab_class_facts cls hcls).2.2.1
  have hout : SameOutside s r.heap.mem (takeSlot r.heap.mem s slot) := change_frame (hslot.trans_le hcap)
  refine h.setHeader hs hcls hout ((h.hdr cls hcls s hs).takeSlot hcls hslot hfree) ?_ ?_ ?_ ?_
    ?_ ?_
  · intro b hb
    cases hb with
    | slab hd ht => exact .slab hd ht
    | large ho hn =>
      rcases mem_cons.mp ho with rfl | ho
      · cases hc.symm.trans hn
      · exact .large ho hn
  · intro o ho hn
    rcases mem_cons.mp ho with rfl | ho
    · cases hc.symm.trans hn
    · exact ho
  · intro o ho d hd
    rcases mem_cons.mp ho with rfl | ho
    · obtain rfl : cls = d := Option.some.inj (hc.symm.trans hd)
      exact ⟨s, hs, slot, hslot, rfl, by simp [slotBit_takeSlot]⟩
    obtain ⟨t, ht, i, hi, he, hb⟩ := h.obj o ho d hd
    refine ⟨t, ht, i, hi, he, ?_⟩
    by_cases hst : s = t
    · subst hst; rw [slotBit_takeSlot, hb]; rfl
    · rw [h.slotBit_other hs hcls hout (slabClass_spec hd).1 ht hst hi, hb]
  · exact forall_mem_cons.mpr ⟨slotAddr_ne_zero cls s slot, h.nonzero⟩
  · refine pairwise_cons.mpr ⟨fun o ho => ?_, h.disjoint⟩
    rcases hd : slabClass o.2 with _ | d
    · exact h.large_disjoint hs hc hslot ho hd
    obtain ⟨t, ht, i, hi, he, hb⟩ := h.obj o ho d hd
    refine h.slots_disjoint hs hc hslot hd ht hi he ?_
    -- The bit of a live object is set and that of the new slot was not.
    by_contra hcon
    obtain ⟨rfl, rfl⟩ := not_or.mp hcon |>.imp not_not.mp not_not.mp
    cases hb.symm.trans hfree
  · intro t ht i hi hb
    by_cases hst : s = t
    · subst hst
      obtain rfl := h.class_eq hcls hs (by decide) ht
      rw [slotBit_takeSlot, Bool.or_eq_true, decide_eq_true_iff] at hb
      rcases hb with hb | rfl
      · obtain ⟨n, hn⟩ := h.exact s ht i hi hb
        exact ⟨n, mem_cons_of_mem _ hn⟩
      · exact ⟨size, mem_cons_self⟩
    · rw [h.slotBit_other hs hcls hout (by decide) ht hst hi] at hb
      obtain ⟨n, hn⟩ := h.exact t ht i hi hb
      exact ⟨n, mem_cons_of_mem _ hn⟩

end

/-- The search of `kmalloc` finds a free slot if there is one. -/
theorem findSlot_spec (h : ∃ i < capacity m s, slotBit m s i = false) :
    findSlot m s < capacity m s ∧ slotBit m s (findSlot m s) = false := by
  obtain ⟨i, hi, hb⟩ := h
  have hsome : ((List.range (capacity m s)).find? fun i => !slotBit m s i).isSome := by
    rw [find?_isSome]
    exact ⟨i, mem_range.mpr hi, by simp [hb]⟩
  obtain ⟨j, hj⟩ := Option.isSome_iff_exists.mp hsome
  unfold findSlot
  rw [hj]
  exact ⟨mem_range.mp (mem_of_find?_eq_some hj), by simpa using find?_some hj⟩

/-- The search falls back to slot 0. -/
theorem findSlot_full (h : ∀ i < capacity m s, slotBit m s i = true) : findSlot m s = 0 := by
  have hnone : ((List.range (capacity m s)).find? fun i => !slotBit m s i) = none := by
    rw [find?_eq_none]
    intro i hi
    simp [h i (mem_range.mp hi)]
  unfold findSlot
  rw [hnone]
  rfl

/-- The slab that `kmalloc` takes a slot from, if the class has one with `free_count` above 0. -/
def availSlab (cls : ℕ) (h : Heap) : Option ℕ :=
  (h.slabs cls).find? fun s => freeCount h.mem s ≠ 0

theorem findSlab_of_availSlab {h : Heap} (ha : availSlab cls h = some s) : findSlab cls h = (s, h) := by
  unfold availSlab at ha
  unfold findSlab
  rw [ha]

/-- The slab of 8-byte objects that `kmalloc` is about to use has a free slot. -/
def SlotFree (h : Heap) (size : ℕ) : Prop :=
  slabClass size = some 0 → ∀ s, availSlab 0 h = some s →
    ∃ i < slabCap 0, slotBit h.mem s i = false

/-- In the other classes the counter is exact: it is above 0 only if there is a free slot. -/
theorem SlabHdr.exists_free (h : SlabHdr m cls s) (hcls : cls < 10) (h0 : cls ≠ 0)
    (hfc : freeCount m s ≠ 0) : ∃ i < slabCap cls, slotBit m s i = false := by
  by_contra hcon
  have hall : ∀ i < slabCap cls, slotBit m s i = true := by
    intro i hi
    by_contra hb
    exact hcon ⟨i, hi, by simpa using hb⟩
  have hused : usedSlots m cls s = Finset.range (slabCap cls) := by
    ext i
    rw [mem_usedSlots, Finset.mem_range]
    exact ⟨fun hi => hi.1, fun hi => ⟨hi, hall i hi⟩⟩
  have hcap : ∀ c < 10, c ≠ 0 → slabSlots c = slabCap c := by decide
  have hcount := h.count
  rw [hused, Finset.card_range, hcap cls hcls h0] at hcount
  omega

/-- The heap after a call of the physical allocator that the heap's blocks survive. -/
theorem HeapInv.phys (h : HeapInv r) {phys : PhysState}
    (hp : ∀ b, HeapBlock r b → phys.pageInfo b.base = r.heap.phys.pageInfo b.base) :
    HeapInv ⟨{ r.heap with phys := phys }, r.live⟩ :=
  h.frame rfl (fun _ _ _ _ _ _ _ => rfl) hp

/-- A new slab. -/
theorem HeapInv.newSlab (h : HeapInv r) (hcls : cls < 10) (hf : FreshAlloc r (slabOrder cls))
    {phys : PhysState} (hp : s ≠ 0) (he : ammPhysAlloc (slabOrder cls) r.heap.phys = (s, phys)) :
    HeapInv ⟨{ mem := slabInit r.heap.mem cls s
               slabs := update r.heap.slabs cls (s :: r.heap.slabs cls)
               phys := phys }, r.live⟩ := by
  obtain ⟨hblk, hfit, hap, hkept⟩ := hf.spec he hp
  have hout := slabInit_frame r.heap.mem cls s
  have hhdr : SlabHdr (slabInit r.heap.mem cls s) cls s := SlabHdr.slabInit hcls
  have hbits : ∀ i < slabBits, slotBit (slabInit r.heap.mem cls s) s i = false :=
    fun _ hi => slotBit_slabInit hi
  generalize slabInit r.heap.mem cls s = m at hout hhdr hbits ⊢
  -- The header is written into a block that is apart from all headers.
  have hframe : HeapInv ⟨⟨m, r.heap.slabs, phys⟩, r.live⟩ :=
    h.frame rfl (fun d hd t ht a hlo hhi => hout a (header_apart (hap _ (.slab hd ht)) hlo hhi))
      hkept
  exact hframe.addSlab hcls hhdr hbits hblk hfit fun b hb => hap b (hb.congr rfl)

/-- The slab that `kmalloc` ends up with is on its list and, under the guard, has a free slot. -/
theorem HeapInv.findSlab (h : HeapInv r) (hc : slabClass size = some cls)
    (hf : availSlab cls r.heap = none → FreshAlloc r (slabOrder cls)) {h' : Heap}
    (hfind : findSlab cls r.heap = (s, h')) :
    HeapInv ⟨h', r.live⟩ ∧ (s ≠ 0 → s ∈ h'.slabs cls ∧
      (SlotFree r.heap size → ∃ i < slabCap cls, slotBit h'.mem s i = false)) := by
  have hcls := (slabClass_spec hc).1
  rcases ha : availSlab cls r.heap with _ | t
  · have hf := hf ha
    unfold availSlab at ha
    unfold Mm.findSlab at hfind
    rw [ha] at hfind
    rcases hr : ammPhysAlloc (slabOrder cls) r.heap.phys with ⟨t, phys⟩
    by_cases hp : t = 0
    · have hnew : slabNew cls r.heap = (0, { r.heap with phys := phys }) := by
        unfold slabNew; rw [hr]; exact if_pos hp
      have hkept := hf.kept
      rw [hr] at hkept
      rw [hnew] at hfind
      cases hfind
      exact ⟨h.phys hkept, fun hne => absurd rfl hne⟩
    · have hnew : slabNew cls r.heap =
          (t, { r.heap with mem := slabInit r.heap.mem cls t, phys := phys }) := by
        unfold slabNew; rw [hr]; exact if_neg hp
      obtain ⟨-, -, hbits, -, hpos, -⟩ := slab_class_facts cls hcls
      dsimp only at hfind
      rw [hnew, if_neg hp] at hfind
      cases hfind
      refine ⟨h.newSlab hcls hf hp hr, fun _ => ⟨by simp, fun _ => ⟨0, hpos, ?_⟩⟩⟩
      exact slotBit_slabInit (lt_of_lt_of_le hpos hbits)
  · cases hfind.symm.trans (findSlab_of_availSlab ha)
    have hmem : s ∈ r.heap.slabs cls := mem_of_find?_eq_some ha
    have hfc : freeCount r.heap.mem s ≠ 0 := by simpa using find?_some ha
    refine ⟨h, fun _ => ⟨hmem, fun hg => ?_⟩⟩
    by_cases h0 : cls = 0
    · subst h0; exact hg hc s ha
    · exact (h.hdr cls hcls s hmem).exists_free hcls h0 hfc

/-- A large object. -/
theorem HeapInv.addLarge (h : HeapInv r) {p : ℕ} {phys : PhysState} (hc : slabClass size = none)
    (hf : FreshAlloc r (largeOrder size)) (hp : p ≠ 0)
    (he : ammPhysAlloc (largeOrder size) r.heap.phys = (p, phys)) :
    HeapInv ⟨{ r.heap with phys := phys }, (p, size) :: r.live⟩ := by
  obtain ⟨hblk, hfit, hap, hkept⟩ := hf.spec he hp
  have hkeep := h.phys hkept
  have hnew : ∀ b, HeapBlock ⟨{ r.heap with phys := phys }, (p, size) :: r.live⟩ b →
      b = blk p (largeOrder size) ∨ HeapBlock ⟨{ r.heap with phys := phys }, r.live⟩ b := by
    intro b hb
    cases hb with
    | slab hd ht => exact .inr (.slab hd ht)
    | large ho hn =>
      rcases mem_cons.mp ho with rfl | ho
      · exact .inl rfl
      · exact .inr (.large ho hn)
  constructor
  case hdr => exact hkeep.hdr
  case block => exact fun b hb => (hnew b hb).elim (fun e => e ▸ hblk) (hkeep.block b)
  case fits => exact fun b hb => (hnew b hb).elim (fun e => e ▸ hfit) (hkeep.fits b)
  case slabs_apart => exact h.slabs_apart
  case large_apart =>
    intro o ho hn d hd t ht
    rcases mem_cons.mp ho with rfl | ho
    · exact hap _ (.slab hd ht)
    · exact h.large_apart o ho hn d hd t ht
  case obj =>
    intro o ho d hd
    rcases mem_cons.mp ho with rfl | ho
    · cases hc.symm.trans hd
    · exact h.obj o ho d hd
  case nonzero => exact forall_mem_cons.mpr ⟨hp, h.nonzero⟩
  case disjoint =>
    refine pairwise_cons.mpr ⟨fun o ho => Set.disjoint_left.mpr fun a ha ha' => ?_, h.disjoint⟩
    have ha := mem_blk_of_large (o := (p, size)) hc ha
    rcases hd : slabClass o.2 with _ | d
    · exact Block.apart_iff.mp (hap _ (.large ho hd)) a ha (mem_blk_of_large hd ha')
    · obtain ⟨t, ht, i, hi, he, -⟩ := h.obj o ho d hd
      exact Block.apart_iff.mp (hap _ (.slab (slabClass_spec hd).1 ht)) a ha
        (mem_slab_of_mem_slot hd hi he ha').1
  case exact =>
    intro t ht i hi hb
    obtain ⟨n, hn⟩ := h.exact t ht i hi hb
    exact ⟨n, mem_cons_of_mem _ hn⟩

/-- `kmalloc` in terms of the slab and the slot it takes. -/
theorem kmalloc_small {h h' : Heap} (h0 : size ≠ 0) (hc : slabClass size = some cls)
    (hfind : findSlab cls h = (s, h')) :
    kmalloc size h = if s = 0 then (s, h') else (slotAddr cls s (findSlot h'.mem s),
      { h' with mem := takeSlot h'.mem s (findSlot h'.mem s) }) := by
  unfold kmalloc
  rw [if_neg h0, hc]
  dsimp only
  rw [hfind]

theorem kmalloc_large (h : Heap) (h0 : size ≠ 0) (hc : slabClass size = none) :
    kmalloc size h = ((ammPhysAlloc (largeOrder size) h.phys).1,
      { h with phys := (ammPhysAlloc (largeOrder size) h.phys).2 }) := by
  unfold kmalloc
  rw [if_neg h0, hc]

theorem physCall_small {h : Heap} (hc : slabClass size = some cls) (ha : availSlab cls h = none) :
    physCall size h = some (slabOrder cls) := by
  unfold availSlab at ha
  unfold physCall
  rw [hc]
  dsimp only
  rw [ha]

theorem physCall_large (h : Heap) (hc : slabClass size = none) : physCall size h = some (largeOrder size) := by
  unfold physCall
  rw [hc]

/-- A call of `kmalloc` keeps the invariant, with the object it returns among the live ones. -/
theorem HeapInv.kmalloc (h : HeapInv r) {p : ℕ} {h' : Heap}
    (hf : ∀ order, physCall size r.heap = some order → FreshAlloc r order)
    (hm : kmalloc size r.heap = (p, h')) :
    (p = 0 → HeapInv ⟨h', r.live⟩) ∧
      (p ≠ 0 → SlotFree r.heap size → HeapInv ⟨h', (p, size) :: r.live⟩) := by
  by_cases h0 : size = 0
  · subst h0
    have : (0, r.heap) = (p, h') := hm
    cases this
    exact ⟨fun _ => h, fun hne => absurd rfl hne⟩
  rcases hc : slabClass size with _ | cls
  · rw [kmalloc_large _ h0 hc] at hm
    have hf := hf _ (physCall_large r.heap hc)
    rcases hr : ammPhysAlloc (largeOrder size) r.heap.phys with ⟨q, phys⟩
    rw [hr] at hm
    cases hm
    have hkept := hf.kept
    rw [hr] at hkept
    exact ⟨fun _ => h.phys hkept, fun hp _ => h.addLarge hc hf hp hr⟩
  · rcases hr : Mm.findSlab cls r.heap with ⟨s, h1⟩
    obtain ⟨hinv, hfound⟩ := h.findSlab hc (fun ha => hf _ (physCall_small hc ha)) hr
    rw [kmalloc_small h0 hc hr] at hm
    by_cases hs : s = 0
    · rw [if_pos hs] at hm
      cases hm
      exact ⟨fun _ => hinv, fun hne => absurd hs hne⟩
    rw [if_neg hs] at hm
    obtain ⟨hmem, hfree⟩ := hfound hs
    have hhdr := hinv.hdr cls (slabClass_spec hc).1 s hmem
    cases hm
    refine ⟨fun hp => absurd hp (slotAddr_ne_zero _ _ _), fun _ hg => ?_⟩
    obtain ⟨hlt, hclear⟩ := findSlot_spec (by rw [hhdr.cap]; exact hfree hg)
    rw [hhdr.cap] at hlt
    exact hinv.take hmem hc hlt hclear

end FreeAsd.Mm
