import FreeAsd.Mm.SlabFree

/-!
# What the kernel heap guarantees

As long as no `kmalloc` meets a slab of 8-byte objects whose bitmap is full, the invariant holds
(`HeapInv.of_run`) and live objects do not overlap (`kmalloc_disjoint_iff`, `kmalloc_alias`). `kfree` undoes
`kmalloc` except in the second page of a slab (`kfree_exact_iff`).
-/

namespace FreeAsd.Mm

open HeapRun Finset Relation

variable {r r' : HeapRun}

/-- Every step keeps the invariant. -/
theorem HeapInv.step (h : HeapInv r) (hs : HeapStep SlotFree r r') : HeapInv r' := by
  cases hs with
  | malloc hg hf hm hp => exact (h.kmalloc hf hm).2 hp hg
  | mallocFails hf hm => exact (h.kmalloc hf hm).1 rfl
  | free ho => exact h.kfree ho
  | @write m hm =>
    refine h.frame rfl (fun cls hcls s hs a hlo hhi => ?_) fun _ _ => rfl
    by_contra hne
    obtain ⟨o, ho, ha⟩ := hm a hne
    have := h.not_header ho ha hcls hs
    omega
  | @other m phys hm hp =>
    refine h.frame rfl (fun cls hcls s hs a hlo hhi => hm _ (.slab hcls hs) a ?_) hp
    have hle := slabHdrSz_le (slabOrder cls)
    rw [Block.mem_def, blk_end, blk_base]
    omega

/-- The invariant holds in every state that a run reaches. -/
theorem HeapInv.of_run {m : Mem} {phys : PhysState}
    (hr : ReflTransGen (HeapStep SlotFree) (HeapRun.start m phys) r) : HeapInv r :=
  Runs.invariant hr (HeapInv.start m phys) fun _ _ => HeapInv.step

/-! ## The physical allocator -/

/-- The buddy allocator returns fresh blocks while its invariant holds and the blocks of the heap are
among the outstanding ones. -/
theorem freshAlloc_of_physInv {L : List Block} {S : Set ℕ} {order : ℕ}
    (h : PhysInv r.heap.phys none L S) (he : r.heap.phys.g_early_boot = false)
    (hS : ∀ a ∈ S, a < 2^52) (hL : ∀ b, HeapBlock r b → b ∈ L) : FreshAlloc r order := by
  rcases h.ammPhysAlloc order he with hfail | hinv
  · have hp : (ammPhysAlloc order r.heap.phys).1 = 0 := congrArg Prod.fst hfail
    refine ⟨he, fun hne => absurd hp hne, fun hne => absurd hp hne, fun hne => absurd hp hne, ?_⟩
    intro b _
    rw [hfail]
  · rcases hq : ammPhysAlloc order r.heap.phys with ⟨p, t⟩
    rw [hq] at hinv
    have hmem : blk p order ∈ t.freeBlocks ++ blk p order :: L := by simp
    have happ : (t.freeBlocks ++ blk p order :: L).Pairwise Block.Apart := hinv.tiles.apart
    have hpair := (List.pairwise_append.mp happ).2.1
    refine ⟨he, ?_, ?_, ?_, ?_⟩ <;> rw [hq]
    · exact fun _ => (hinv.aligned _ hmem).1
    · exact fun _ b hb => (List.pairwise_cons.mp hpair).1 b (hL b hb)
    · -- The last address of the block is memory.
      intro _
      have hpos : 0 < 2^(order + pageShift) := by positivity
      have hlast : p + 2^(order + pageShift) - 1 ∈ blk p order := by
        rw [Block.mem_def, blk_end, blk_base]
        omega
      have hlt := hS _ ((hinv.tiles.cover _).mpr ⟨_, hmem, hlast⟩)
      show p + 2^(order + pageShift) ≤ 2^52
      omega
    · intro b hb
      rw [hinv.held b (List.mem_cons_of_mem _ (hL b hb)), h.held b (hL b hb)]

/-! ## `kmalloc` -/

/-- A call of `kmalloc` that meets a full slab of 8-byte objects returns its slot 0, which is
live. -/
theorem HeapInv.kmalloc_full (h : HeapInv r) {size p : ℕ} {h' : Heap} (hpos : 1 ≤ size)
    (hm : Mm.kmalloc size r.heap = (p, h')) (hp : p ≠ 0) (hfull : ¬ SlotFree r.heap size) :
    ∃ n, (p, n) ∈ r.live := by
  unfold SlotFree at hfull
  push Not at hfull
  obtain ⟨hc, s, ha, hall⟩ := hfull
  have hall : ∀ i < slabCap 0, slotBit r.heap.mem s i = true := by simpa using hall
  have hmem : s ∈ r.heap.slabs 0 := List.mem_of_find?_eq_some ha
  have hcap := (h.hdr 0 (by decide) s hmem).cap
  rw [kmalloc_small (by omega) hc (findSlab_of_availSlab ha)] at hm
  have hs0 : s ≠ 0 := by
    intro hz
    rw [if_pos hz] at hm
    exact hp ((congrArg Prod.fst hm).symm.trans hz)
  rw [if_neg hs0] at hm
  rw [findSlot_full (by rw [hcap]; exact hall)] at hm
  have hpe : slotAddr 0 s 0 = p := congrArg Prod.fst hm
  rw [← hpe]
  exact h.exact s hmem 0 (by decide) (hall 0 (by decide))

/-- In every state that a run reaches without meeting a full slab of 8-byte objects, a live small object
lies in a slab of its class after the header, no two live objects overlap, and that of the next `kmalloc`
overlaps none exactly when the call does not meet such a slab either. -/
theorem kmalloc_disjoint_iff {m : Mem} {phys : PhysState}
    (hr : ReflTransGen (HeapStep SlotFree) (HeapRun.start m phys) r) :
    (∀ o ∈ r.live, ∀ cls, slabClass o.2 = some cls → ∃ s ∈ r.heap.slabs cls,
      s + slabHdrSz ≤ o.1 ∧ o.1 + slabSize cls ≤ s + slabPages cls * pageSize) ∧
    r.live.Pairwise (fun o o' => Disjoint (objRange o) (objRange o')) ∧
    ∀ size p h', 1 ≤ size → size ≤ 4096 →
      (∀ order, physCall size r.heap = some order → FreshAlloc r order) →
      kmalloc size r.heap = (p, h') → p ≠ 0 →
      ((∀ o ∈ r.live, Disjoint (objRange (p, size)) (objRange o)) ↔ SlotFree r.heap size) := by
  have h := HeapInv.of_run hr
  refine ⟨fun o ho cls hc => ?_, h.disjoint, fun size p h' hpos _ hf hm hp => ⟨fun hdis => ?_, fun hg o ho => ?_⟩⟩
  · obtain ⟨s, hs, slot, hslot, he, -⟩ := h.obj o ho cls hc
    have hcls := (slabClass_spec hc).1
    obtain ⟨hlo, hhi⟩ := slot_inside (s := s) hcls hslot
    have hpages : ∀ c < 10, 2^(slabOrder c + pageShift) = slabPages c * pageSize := by decide
    rw [hpages cls hcls] at hhi
    exact ⟨s, hs, he ▸ hlo, he ▸ hhi⟩
  · by_contra hfull
    obtain ⟨n, hn⟩ := h.kmalloc_full hpos hm hp hfull
    exact Set.disjoint_left.mp (hdis _ hn) (base_mem_objRange (p, size)) (base_mem_objRange (p, n))
  · exact (List.pairwise_cons.mp ((h.kmalloc hf hm).2 hp hg).disjoint).1 o ho

/-- A buddy allocator with one free block of two pages. -/
def twoFrames : PhysState :=
  physFreeBlock { PhysState.start with g_early_boot := false } 0x2000 1

/-- The run that calls `kmalloc` once more. -/
def HeapRun.malloc (size : ℕ) (r : HeapRun) : HeapRun :=
  ⟨(kmalloc size r.heap).2, ((kmalloc size r.heap).1, size) :: r.live⟩

theorem HeapRun.malloc_step {guard : Heap → ℕ → Prop} {size : ℕ} (hg : guard r.heap size)
    (hf : ∀ order, physCall size r.heap = some order → FreshAlloc r order)
    (hp : (kmalloc size r.heap).1 ≠ 0) : HeapStep guard r (r.malloc size) :=
  .malloc r hg hf rfl hp

theorem fresh_of_physCall {size : ℕ} (h : physCall size r.heap = none) :
    ∀ order, physCall size r.heap = some order → FreshAlloc r order := by
  simp [h]

/-- The guard of a step may be dropped. -/
theorem HeapStep.weaken {guard : Heap → ℕ → Prop} (h : HeapStep guard r r') :
    HeapStep (fun _ _ => True) r r' := by
  cases h with
  | malloc _ hf hm hp => exact .malloc r trivial hf hm hp
  | mallocFails hf hm => exact .mallocFails r hf hm
  | free ho => exact .free r ho
  | write hm => exact .write r hm
  | other hm hp => exact .other r hm hp

/-- The first block of an empty heap is fresh. -/
theorem freshAlloc_twoFrames {m : Mem} {order : ℕ} (ho : order ≤ 1) : FreshAlloc (start m twoFrames) order := by
  have hnone := not_heapBlock_start m twoFrames
  have hfirst : ∀ k ≤ 1, (ammPhysAlloc k twoFrames).1 = 0x2000 := by decide
  have hal : ∀ k ≤ 1, 2^(k + pageShift) ∣ 0x2000 := by decide
  have hfit : ∀ k ≤ 1, 0x2000 + 2^(k + pageShift) ≤ 2^52 := by decide
  refine ⟨rfl, fun _ => ?_, fun _ b hb => absurd hb (hnone b), fun _ => ?_, fun b hb => absurd hb (hnone b)⟩
  · show (blk (ammPhysAlloc order twoFrames).1 order).Aligned
    rw [hfirst order ho]
    exact hal order ho
  · show (ammPhysAlloc order twoFrames).1 + _ ≤ _
    rw [hfirst order ho]
    exact hfit order ho

/-- The first call of `kmalloc` for 8 bytes takes one of the 504 slots of a new slab. -/
theorem malloc_first : HeapStep SlotFree (start (fun _ => 0) twoFrames)
    ((start (fun _ => 0) twoFrames).malloc 8) := by
  refine malloc_step (fun _ s hs => ?_) (fun order ho => ?_) (by decide)
  · simp [availSlab, start] at hs
  · cases ho
    exact freshAlloc_twoFrames (by decide)

/-- The second object of 8 bytes does not overlap the first. -/
theorem kmalloc_disjoint_iff_second : Disjoint (objRange (0x2048, 8)) (objRange (0x2040, 8)) := by
  obtain ⟨-, -, hnext⟩ := kmalloc_disjoint_iff (.single malloc_first)
  have hiff := hnext 8 0x2048 _ (by decide) (by decide) (fresh_of_physCall (by decide +kernel)) rfl (by decide)
  refine hiff.mpr (fun _ s hs => ?_) _ (by decide)
  cases hs
  exact ⟨1, by decide, by decide⟩

/-- The next call of `kmalloc` for 8 bytes, when the only slab has `free_count` above 0, is one slot
less. -/
theorem malloc_next {s : ℕ} (hs : r.heap.slabs 0 = [s]) (h0 : s ≠ 0) (hfc : freeCount r.heap.mem s ≠ 0) :
    availSlab 0 r.heap = some s ∧ physCall 8 r.heap = none ∧ (kmalloc 8 r.heap).1 ≠ 0 ∧
      (r.malloc 8).heap.slabs 0 = [s] ∧
      freeCount (r.malloc 8).heap.mem s = (freeCount r.heap.mem s + 2^32 - 1) % 2^32 := by
  have ha : availSlab 0 r.heap = some s := by
    unfold availSlab
    rw [hs]
    simp [hfc]
  have hc : slabClass 8 = some 0 := by decide
  have hm := kmalloc_small (by decide) hc (findSlab_of_availSlab ha)
  rw [if_neg h0] at hm
  have hcall : physCall 8 r.heap = none := by
    unfold availSlab at ha
    unfold physCall
    rw [hc]
    dsimp only
    rw [ha]
  refine ⟨ha, hcall, ?_, ?_, ?_⟩
  · rw [hm]
    exact slotAddr_ne_zero _ _ _
  · unfold malloc
    rw [hm]
    exact hs
  · unfold malloc
    rw [hm]
    exact (fields_change r.heap.mem s _ _ (· + 2^32 - 1)).1

/-- A slab of which not all slots are used has a free one. -/
theorem SlabHdr.exists_free_of_card {m : Mem} {cls s : ℕ} (hlt : (usedSlots m cls s).card < slabCap cls) :
    ∃ i < slabCap cls, slotBit m s i = false := by
  obtain ⟨i, hi, hn⟩ := exists_mem_notMem_of_card_lt_card (hlt.trans_eq (card_range (slabCap cls)).symm)
  refine ⟨i, mem_range.mp hi, ?_⟩
  by_contra hb
  exact hn (mem_usedSlots.mpr ⟨mem_range.mp hi, by simpa using hb⟩)

/-- The first 288 allocations of 8 bytes come from one slab and meet the guard. -/
theorem malloc_many (n : ℕ) (hn : n < 288) : ∃ r : HeapRun,
    ReflTransGen (HeapStep SlotFree) (HeapRun.start (fun _ => 0) twoFrames) r ∧
      r.heap.slabs 0 = [0x2000] ∧ freeCount r.heap.mem 0x2000 = 503 - n ∧
      r.live.length = n + 1 ∧ ∀ o ∈ r.live, o.2 = 8 := by
  induction n with
  | zero => exact ⟨_, .single malloc_first, by decide, by decide, rfl, by simp [malloc, start]⟩
  | succ n ih =>
    obtain ⟨r, hr, hs, hfc, hlen, hall⟩ := ih (by omega)
    obtain ⟨ha, hcall, hp, hs', hfc'⟩ := malloc_next hs (by decide) (by omega)
    have hhdr := (HeapInv.of_run hr).hdr 0 (by decide) 0x2000 (by rw [hs]; simp)
    have hslots : slabSlots 0 = 504 := by decide
    have hcap : slabCap 0 = 288 := by decide
    have hguard : SlotFree r.heap 8 := by
      intro _ s hsome
      obtain rfl : 0x2000 = s := Option.some.inj (ha.symm.trans hsome)
      have hcount := hhdr.count
      exact SlabHdr.exists_free_of_card (by omega)
    refine ⟨r.malloc 8, hr.tail (malloc_step hguard (fresh_of_physCall hcall) hp), hs', ?_, ?_, ?_⟩
    · rw [hfc', hfc]; omega
    · show r.live.length + 1 = _
      rw [hlen]
    · exact List.forall_mem_cons.mpr ⟨rfl, hall⟩

/-- A run that calls `kmalloc` 289 times for 8 bytes ends with two live objects at one address. -/
theorem kmalloc_alias : ∃ (r : HeapRun) (p : ℕ) (rest : List (ℕ × ℕ)),
    ReflTransGen (HeapStep fun _ _ => True) (HeapRun.start (fun _ => 0) twoFrames) r ∧
      r.live = (p, 8) :: rest ∧ rest.length = 288 ∧ (p, 8) ∈ rest := by
  obtain ⟨r, hr, hs, hfc, hlen, hall⟩ := malloc_many 287 (by decide)
  obtain ⟨ha, hcall, hp, -⟩ := malloc_next hs (by decide) (by omega)
  have h := HeapInv.of_run hr
  -- All 288 slots are used.
  have hfull : ¬ SlotFree r.heap 8 := by
    intro hg
    obtain ⟨i, hi, hb⟩ := hg (by decide) 0x2000 ha
    have hhdr := h.hdr 0 (by decide) 0x2000 (by rw [hs]; simp)
    have hslots : slabSlots 0 = 504 := by decide
    have hcap : slabCap 0 = 288 := by decide
    have hcount := hhdr.count
    have hsub : usedSlots r.heap.mem 0 0x2000 ⊆ (range (slabCap 0)).erase i := by
      intro j hj
      obtain ⟨hjlt, hjb⟩ := mem_usedSlots.mp hj
      refine mem_erase.mpr ⟨?_, mem_range.mpr hjlt⟩
      rintro rfl
      cases hjb.symm.trans hb
    have hcard := card_le_card hsub
    rw [card_erase_of_mem (mem_range.mpr hi), card_range] at hcard
    omega
  obtain ⟨n, hn⟩ := h.kmalloc_full (by decide : 1 ≤ 8) rfl hp hfull
  obtain rfl : n = 8 := hall _ hn
  have hrun : ReflTransGen (HeapStep fun _ _ => True)
      (start (fun _ => 0) twoFrames) r :=
    hr.lift id fun _ _ => HeapStep.weaken
  exact ⟨r.malloc 8, _, r.live, hrun.tail (malloc_step trivial (fresh_of_physCall hcall) hp), rfl, hlen, hn⟩

/-! ## `kfree` -/

/-- What releasing a slot of a slab is: its bit is cleared, `free_count` goes up by one, and nothing
else changes. -/
structure Released (h h' : Heap) (s slot : ℕ) : Prop where
  bit : slotBit h.mem s slot = true ∧ slotBit h'.mem s slot = false
  others : ∀ i, i ≠ slot → slotBit h'.mem s i = slotBit h.mem s i
  count : freeCount h'.mem s = freeCount h.mem s + 1
  mem : ∀ a, a < s ∨ s + 4 ≤ a → a ≠ bitmapByte s slot → h'.mem a = h.mem a
  slabs : h'.slabs = h.slabs
  phys : h'.phys = h.phys

/-- `kfree` releases exactly the object: the slot of a small one, the block of a large one. -/
def KfreeExact (h : Heap) (o : ℕ × ℕ) : Prop :=
  match slabClass o.2 with
  | some cls => ∃ s ∈ h.slabs cls, ∃ slot < slabCap cls, o.1 = slotAddr cls s slot ∧
      Released h (kfree o.1 h) s slot
  | none => kfree o.1 h = { h with phys := ammPhysFree o.1 (largeOrder o.2) h.phys }

/-- The object is not in the second page of a slab, or the record of that page says order 1. -/
def SecondPageOk (h : Heap) (o : ℕ × ℕ) : Prop :=
  ∀ cls, slabClass o.2 = some cls → slabOrder cls = 1 → pageSize ≤ o.1 % (2 * pageSize) →
    (h.phys.pageInfo o.1).order = 1

/-- The second page of a slab, in terms of the address alone. -/
theorem secondPageOk_iff {h : Heap} {o : ℕ × ℕ} {cls s slot : ℕ} (hc : slabClass o.2 = some cls)
    (hslot : slot < slabCap cls) (he : o.1 = slotAddr cls s slot)
    (hal : (blk s (slabOrder cls)).Aligned) :
    SecondPageOk h o ↔
      o.1 < s + pageSize ∨ (h.phys.pageInfo (s + pageSize)).order = 1 := by
  have hcls := (slabClass_spec hc).1
  have hpage : pageSize ∣ s := page_dvd_base hal (by simp)
  rcases slot_page (s := s) hcls hslot with ⟨hlo, hhi⟩ | ⟨rfl, hp⟩
  · rw [← he] at hlo hhi
    refine ⟨fun _ => .inl hhi, fun _ c hc' h1 hge => ?_⟩
    obtain rfl : cls = c := Option.some.inj (hc.symm.trans hc')
    have hal2 : 2^(1 + pageShift) ∣ s := by rw [← h1]; exact hal
    obtain ⟨i, rfl⟩ := hal2
    unfold pageSize pageShift at *
    omega
  · rw [← he] at hp
    have hal2 : 2^(1 + pageShift) ∣ s := hal
    have hge : pageSize ≤ o.1 % (2 * pageSize) := by
      obtain ⟨i, rfl⟩ := hal2
      rw [hp]
      unfold pageSize pageShift
      omega
    -- The address and the start of its page have one record.
    have hrec : h.phys.pageInfo o.1 = h.phys.pageInfo (s + pageSize) := by
      unfold PhysState.pageInfo
      congr 1
      obtain ⟨i, rfl⟩ := hpage
      rw [hp]
      simp only [Nat.shiftRight_eq_div_pow]
      unfold pageSize pageShift
      omega
    constructor
    · intro hok
      right
      rw [← hrec]
      exact hok 8 hc (by decide) hge
    · rintro (hlt | hok) c _ _ _
      · omega
      · rw [hrec]; exact hok

/-- `kfree` of a live object does exactly what it should if and only if the object is not in the
second page of a slab or the record of that page says order 1. -/
theorem kfree_exact_iff {m : Mem} {phys : PhysState}
    (hr : ReflTransGen (HeapStep SlotFree) (HeapRun.start m phys) r) {o : ℕ × ℕ}
    (ho : o ∈ r.live) : KfreeExact r.heap o ↔ SecondPageOk r.heap o := by
  have h := HeapInv.of_run hr
  have h0 := h.nonzero o ho
  unfold KfreeExact
  rcases hc : slabClass o.2 with _ | cls
  · have hfree : kfree o.1 r.heap =
        { r.heap with phys := ammPhysFree o.1 (largeOrder o.2) r.heap.phys } := by
      unfold kfree
      rw [if_neg h0, h.kfreeAction_large ho hc]
    exact ⟨fun _ c hc' => absurd (hc.symm.trans hc') (by simp), fun _ => hfree⟩
  · obtain ⟨s, hs, slot, hslot, he, hb, hact⟩ := h.kfree_cases ho hc
    have hcls := (slabClass_spec hc).1
    have hal := (h.block _ (.slab hcls hs)).1
    have hbits := (slab_class_facts cls hcls).2.2.1
    rw [secondPageOk_iff hc hslot he hal]
    constructor
    · -- With the wrong header the bit of the slot stays set.
      rintro ⟨t, ht, i, hi, he', hrel⟩
      by_contra hcond
      rw [if_neg hcond] at hact
      obtain ⟨rfl, hp, hact⟩ := hact
      have hkeep : slotBit (kfree o.1 r.heap).mem s slot = true := by
        unfold kfree
        rw [if_neg h0]
        rcases hact with hact | hact | hact <;> rw [hact]
        · exact hb
        · exact hb
        have hout : SameOutside (s + pageSize) r.heap.mem (releaseSlot r.heap.mem (s + pageSize) 0) :=
          change_frame (by decide)
        have hsame : ∀ a, s ≤ a → a < s + slabHdrSz →
            releaseSlot r.heap.mem (s + pageSize) 0 a = r.heap.mem a := fun a hlo hhi =>
          hout a (.inl (by unfold slabHdrSz at hhi; unfold pageSize; omega))
        exact ((header_congr hsame).2.2.2 slot (hslot.trans_le hbits)).trans hb
      obtain ⟨-, rfl, rfl⟩ := h.slot_eq hcls hs hslot hcls ht hi (he.symm.trans he')
      exact absurd (hkeep.symm.trans hrel.bit.2) (by decide)
    · intro hcond
      rw [if_pos hcond] at hact
      have hfree : kfree o.1 r.heap = { r.heap with mem := releaseSlot r.heap.mem s slot } := by
        unfold kfree
        rw [if_neg h0, hact]
      refine ⟨s, hs, slot, hslot, he, ?_⟩
      rw [hfree]
      constructor
      · exact ⟨hb, by simp [slotBit_releaseSlot]⟩
      · intro i hi
        simp [slotBit_releaseSlot, Ne.symm hi]
      · exact ((h.hdr cls hcls s hs).releaseSlot hcls hslot hb).2
      · intro a ha hne
        show releaseSlot r.heap.mem s slot a = _
        unfold releaseSlot clearSlot
        rw [Mem.wr_of_notMem ha, Function.update_of_ne hne]
      · rfl
      · rfl

/-- The state after three allocations of 2048 bytes. -/
def threeBlocks : HeapRun :=
  (((HeapRun.start (fun _ => 0) twoFrames).malloc 2048).malloc 2048).malloc 2048

theorem run_threeBlocks : ReflTransGen (HeapStep SlotFree) (start (fun _ => 0) twoFrames) threeBlocks := by
  have hguard : ∀ h, SlotFree h 2048 := fun _ hc => absurd hc (by decide)
  have h1 : HeapStep SlotFree (start (fun _ => 0) twoFrames)
      ((start (fun _ => 0) twoFrames).malloc 2048) := by
    refine malloc_step (hguard _) (fun order ho => ?_) (by decide)
    cases ho
    exact freshAlloc_twoFrames (by decide)
  have h2 : HeapStep SlotFree ((start (fun _ => 0) twoFrames).malloc 2048)
      (((start (fun _ => 0) twoFrames).malloc 2048).malloc 2048) :=
    malloc_step (hguard _) (fresh_of_physCall (by decide +kernel)) (by decide +kernel)
  have h3 : HeapStep SlotFree (((start (fun _ => 0) twoFrames).malloc 2048).malloc 2048)
      threeBlocks :=
    malloc_step (hguard _) (fresh_of_physCall (by decide +kernel)) (by decide +kernel)
  exact ((ReflTransGen.single h1).tail h2).tail h3

/-- The first of three objects of 2048 bytes is released exactly. -/
theorem kfree_exact_iff_first : KfreeExact threeBlocks.heap (0x2040, 2048) := by
  refine (kfree_exact_iff run_threeBlocks (by decide +kernel)).mpr fun cls _ _ hge => ?_
  exact absurd hge (by decide)

/-- The third of three objects of 2048 bytes is in the second page of its slab, and `kfree` does not
release it: its bit stays set. -/
theorem kfree_second_page : (0x3040, 2048) ∈ threeBlocks.live ∧
    ¬ KfreeExact threeBlocks.heap (0x3040, 2048) ∧
    slotBit (kfree 0x3040 threeBlocks.heap).mem 0x2000 2 = true := by
  have hbit : slotBit (kfree 0x3040 threeBlocks.heap).mem 0x2000 2 = true := by decide +kernel
  refine ⟨by decide +kernel, ?_, hbit⟩
  rintro ⟨s, hs, slot, hslot, he, hrel⟩
  have hs : s = 0x2000 := by
    have hlist : threeBlocks.heap.slabs 8 = [0x2000] := by decide +kernel
    rw [hlist] at hs
    exact List.mem_singleton.mp hs
  subst hs
  obtain rfl : slot = 2 := by
    have hsz : slabSize 8 = 2048 := by decide
    unfold slotAddr slabHdrSz at he
    rw [hsz] at he
    omega
  exact absurd (hbit.symm.trans hrel.bit.2) (by decide)

end FreeAsd.Mm
