import FreeAsd.Mm.PhysInvariant
import FreeAsd.Mm.Slab
import Mathlib.Tactic.IntervalCases

/-!
# The kernel heap's invariant
-/

namespace FreeAsd.Mm

open Nat Function Mem Finset

variable {m m' : Mem} {cls s slot i : ℕ}

/-- The header of a slab is read from its first 60 bytes. -/
theorem header_congr (h : ∀ a, s ≤ a → a < s + slabHdrSz → m' a = m a) :
    freeCount m' s = freeCount m s ∧ objSize m' s = objSize m s ∧ capacity m' s = capacity m s ∧
      ∀ i < slabBits, slotBit m' s i = slotBit m s i := by
  unfold slabHdrSz at h
  refine ⟨rd_congr fun x hx hx' => h x (by omega) (by omega),
    rd_congr fun x hx hx' => h x (by omega) (by omega),
    rd_congr fun x hx hx' => h x (by omega) (by omega), fun i hi => ?_⟩
  unfold slabBits at hi
  unfold slotBit bitmapByte
  rw [h _ (by omega) (by omega)]

/-! ## Size classes -/

/-- The number of slots that a slab uses: no more than the bitmap has bits for. -/
def slabCap (cls : ℕ) : ℕ := min (slabSlots cls) slabBits

theorem slabClass_spec {size : ℕ} (h : slabClass size = some cls) : cls < 10 ∧ size ≤ slabSize cls := by
  unfold slabClass at h
  rw [List.findIdx?_eq_some_iff_getElem] at h
  obtain ⟨hlt, hle, -⟩ := h
  refine ⟨hlt, ?_⟩
  unfold slabSize
  rw [List.getD_eq_getElem _ _ hlt]
  exact of_decide_eq_true hle

/-- What the arithmetic of `slab_new` comes to for the ten classes. -/
theorem slab_class_facts : ∀ cls < 10, 8 ≤ slabSize cls ∧ slabSize cls ≤ 4096 ∧
    slabCap cls ≤ slabBits ∧ slabSlots cls < 2^32 ∧ 1 ≤ slabCap cls ∧
    slabHdrSz + slabCap cls * slabSize cls ≤ 2^(slabOrder cls + pageShift) := by
  decide

theorem slabSize_injective : ∀ c < 10, ∀ d < 10, slabSize c = slabSize d → c = d := by decide

/-! ## Headers -/

/-- The slots of a slab whose bit is set. -/
def usedSlots (m : Mem) (cls s : ℕ) : Finset ℕ :=
  (Finset.range (slabCap cls)).filter fun i => slotBit m s i

theorem mem_usedSlots : i ∈ usedSlots m cls s ↔ i < slabCap cls ∧ slotBit m s i = true := by
  simp [usedSlots]

/-- The header of a slab of a class. -/
structure SlabHdr (m : Mem) (cls s : ℕ) : Prop where
  size : objSize m s = slabSize cls
  cap : capacity m s = slabCap cls
  /-- `free_count` was set before the capacity was cut to the bitmap. -/
  count : freeCount m s + (usedSlots m cls s).card = slabSlots cls

/-- Memory that agrees outside the header at `s` and in its fields differs nowhere else. -/
def SameOutside (s : ℕ) (m m' : Mem) : Prop := ∀ a, a < s ∨ s + slabHdrSz ≤ a → m' a = m a

theorem usedSlots_congr (hcls : cls < 10) (h : ∀ i < slabBits, slotBit m' s i = slotBit m s i) :
    usedSlots m' cls s = usedSlots m cls s := by
  have hcap := (slab_class_facts cls hcls).2.2.1
  ext i
  rw [mem_usedSlots, mem_usedSlots]
  refine and_congr_right fun hi => ?_
  rw [h i (by omega)]

theorem SlabHdr.congr (hcls : cls < 10) (h : SlabHdr m cls s)
    (he : ∀ a, s ≤ a → a < s + slabHdrSz → m' a = m a) : SlabHdr m' cls s := by
  obtain ⟨h1, h2, h3, h4⟩ := header_congr he
  exact ⟨h2.trans h.size, h3.trans h.cap, by rw [h1, usedSlots_congr hcls h4]; exact h.count⟩

/-- A write into the counter of a header does not change its other fields. -/
theorem fields_wr_count (m : Mem) (s v : ℕ) : freeCount (m.wr s 4 v) s = v % 2^32 ∧
    objSize (m.wr s 4 v) s = objSize m s ∧ capacity (m.wr s 4 v) s = capacity m s ∧
    ∀ i, slotBit (m.wr s 4 v) s i = slotBit m s i := by
  refine ⟨rd_wr_self, rd_wr_of_disjoint (by omega), rd_wr_of_disjoint (by omega), fun i => ?_⟩
  unfold slotBit
  rw [wr_of_notMem (by unfold bitmapByte; omega)]

/-- Taking and releasing a slot change a byte of the bitmap and the counter, and nothing outside the header. -/
theorem change_frame {v : ℕ} {c : UInt8} (hslot : slot < slabBits) :
    SameOutside s m (Mem.wr (update m (bitmapByte s slot) c) s 4 v) := by
  intro a ha
  unfold slabBits at hslot
  unfold slabHdrSz at ha
  have hne : a ≠ bitmapByte s slot := by unfold bitmapByte; omega
  rw [wr_of_notMem (by omega), update_of_ne hne]

/-- The fields, if the counter is set to a function of what it was. -/
theorem fields_change (m : Mem) (s slot : ℕ) (c : UInt8) (f : ℕ → ℕ) :
    let m₁ : Mem := update m (bitmapByte s slot) c
    let m₂ := m₁.wr s 4 (f (freeCount m₁ s))
    freeCount m₂ s = f (freeCount m s) % 2^32 ∧ objSize m₂ s = objSize m s ∧
      capacity m₂ s = capacity m s := by
  intro m₁ m₂
  have hfields : freeCount m₁ s = freeCount m s ∧ objSize m₁ s = objSize m s ∧ capacity m₁ s = capacity m s := by
    refine ⟨rd_update_of_notMem ?_, rd_update_of_notMem ?_, rd_update_of_notMem ?_⟩ <;>
      unfold bitmapByte <;> omega
  obtain ⟨h1, h2, h3⟩ := hfields
  obtain ⟨w1, w2, w3, -⟩ := fields_wr_count m₁ s (f (freeCount m₁ s))
  exact ⟨h1 ▸ w1, w2.trans h2, w3.trans h3⟩

/-- What is left of a bit. -/
theorem slotBit_change (m : Mem) (s slot i v : ℕ) (c : UInt8) :
    slotBit (Mem.wr (update m (bitmapByte s slot) c) s 4 v) s i =
      if bitmapByte s i = bitmapByte s slot then c.toNat.testBit (i % 8) else slotBit m s i := by
  rw [(fields_wr_count _ s v).2.2.2 i]
  unfold slotBit
  split_ifs with hb
  · rw [hb, update_self]
  · rw [update_of_ne hb]

theorem slotBit_takeSlot (m : Mem) (s slot i : ℕ) :
    slotBit (takeSlot m s slot) s i = (slotBit m s i || decide (slot = i)) := by
  refine (slotBit_change ..).trans ?_
  split_ifs with hb
  · have hdiv : i / 8 = slot / 8 := by unfold bitmapByte at hb; omega
    have hlt : (m (bitmapByte s slot)).toNat ||| 1 <<< (slot % 8) < 2^8 := by
      refine or_lt_two_pow (m _).toNat_lt ?_
      rw [one_shiftLeft]
      exact Nat.pow_lt_pow_right (by decide) (Nat.mod_lt _ (by decide))
    have hmod : slot % 8 = i % 8 ↔ slot = i := by omega
    rw [UInt8.toNat_ofNat_of_lt' hlt, testBit_or, one_shiftLeft, testBit_two_pow, slotBit, hb]
    simp only [hmod]
  · have hne : slot ≠ i := by rintro rfl; exact hb rfl
    simp [hne]

theorem slotBit_releaseSlot (m : Mem) (s slot i : ℕ) :
    slotBit (releaseSlot m s slot) s i = (slotBit m s i && decide (slot ≠ i)) := by
  refine (slotBit_change ..).trans ?_
  split_ifs with hb
  · have hdiv : i / 8 = slot / 8 := by unfold bitmapByte at hb; omega
    have hlt : (m (bitmapByte s slot)).toNat &&& (255 - 1 <<< (slot % 8)) < 2^8 :=
      and_lt_two_pow _ (lt_of_le_of_lt (sub_le _ _) (by decide))
    have hmask : ∀ k < 8, ∀ j < 8, (255 - 1 <<< k).testBit j = decide (k ≠ j) := by decide
    have hmod : slot % 8 = i % 8 ↔ slot = i := by omega
    rw [UInt8.toNat_ofNat_of_lt' hlt, testBit_and, hmask _ (mod_lt _ (by decide)) _ (mod_lt _ (by decide)),
      slotBit, hb]
    simp only [ne_eq, hmod]
  · have hne : slot ≠ i := by rintro rfl; exact hb rfl
    simp [hne]

/-- Taking a free slot. -/
theorem SlabHdr.takeSlot (hcls : cls < 10) (h : SlabHdr m cls s) (hslot : slot < slabCap cls)
    (hfree : slotBit m s slot = false) : SlabHdr (takeSlot m s slot) cls s := by
  obtain ⟨-, -, -, hbig, -⟩ := slab_class_facts cls hcls
  obtain ⟨hfree', hsize, hcap⟩ := fields_change m s slot
    (UInt8.ofNat ((m (bitmapByte s slot)).toNat ||| 1 <<< (slot % 8))) (· + 2^32 - 1)
  have hused : usedSlots (Mm.takeSlot m s slot) cls s = insert slot (usedSlots m cls s) := by
    ext i
    rw [mem_insert, mem_usedSlots, mem_usedSlots, slotBit_takeSlot]
    by_cases hi : i = slot
    · subst hi; simp [hslot]
    · simp [hi, Ne.symm hi]
  have hnot : slot ∉ usedSlots m cls s := by rw [mem_usedSlots, hfree]; simp
  have hlt : (usedSlots m cls s).card < slabCap cls := by
    rw [← card_range (slabCap cls)]
    exact card_lt_card (filter_ssubset.mpr ⟨slot, mem_range.mpr hslot, by simp [hfree]⟩)
  have hcount := h.count
  have hle : slabCap cls ≤ slabSlots cls := min_le_left _ _
  refine ⟨hsize.trans h.size, hcap.trans h.cap, ?_⟩
  have hfc : freeCount (Mm.takeSlot m s slot) s = freeCount m s - 1 := by
    refine hfree'.trans ?_
    omega
  rw [hfc, hused, card_insert_of_notMem hnot]
  omega

/-- Giving a used slot back. -/
theorem SlabHdr.releaseSlot (hcls : cls < 10) (h : SlabHdr m cls s) (hslot : slot < slabCap cls)
    (hused : slotBit m s slot = true) : SlabHdr (releaseSlot m s slot) cls s ∧
      freeCount (releaseSlot m s slot) s = freeCount m s + 1 := by
  obtain ⟨-, -, -, hbig, -⟩ := slab_class_facts cls hcls
  obtain ⟨hfree, hsize, hcap⟩ := fields_change m s slot
    (UInt8.ofNat ((m (bitmapByte s slot)).toNat &&& (255 - 1 <<< (slot % 8)))) (· + 1)
  have hset : usedSlots (Mm.releaseSlot m s slot) cls s = (usedSlots m cls s).erase slot := by
    ext i
    rw [mem_erase, mem_usedSlots, mem_usedSlots, slotBit_releaseSlot]
    by_cases hi : i = slot
    · subst hi; simp
    · simp [hi, Ne.symm hi]
  have hmem : slot ∈ usedSlots m cls s := mem_usedSlots.mpr ⟨hslot, hused⟩
  have hpos : 0 < (usedSlots m cls s).card := card_pos.mpr ⟨slot, hmem⟩
  have hcount := h.count
  have hfc : freeCount (Mm.releaseSlot m s slot) s = freeCount m s + 1 := by
    refine hfree.trans ?_
    omega
  refine ⟨⟨hsize.trans h.size, hcap.trans h.cap, ?_⟩, hfc⟩
  rw [hfc, hset, card_erase_of_mem hmem]
  omega

theorem slabInit_frame (m : Mem) (cls s : ℕ) : SameOutside s m (slabInit m cls s) := by
  intro a ha
  unfold slabHdrSz at ha
  unfold slabInit slabHdrSz
  split_ifs <;> simp (disch := omega) only [wr_of_notMem, fill_of_notMem]

/-- The bytes of the bitmap of a new slab are zero. -/
theorem slabInit_bitmap {a : ℕ} (h : s + 24 ≤ a ∧ a < s + slabHdrSz) : slabInit m cls s a = 0 := by
  unfold slabHdrSz at h
  unfold slabInit slabHdrSz
  split_ifs <;> simp (disch := omega) only [wr_of_notMem] <;>
    exact fill_of_mem _ (by omega)

theorem slotBit_slabInit (hi : i < slabBits) : slotBit (slabInit m cls s) s i = false := by
  unfold slabBits at hi
  have hz : slabInit m cls s (bitmapByte s i) = 0 := slabInit_bitmap (by unfold bitmapByte slabHdrSz; omega)
  unfold slotBit
  rw [hz]
  exact zero_testBit _

/-- The header of a new slab. -/
theorem SlabHdr.slabInit (hcls : cls < 10) : SlabHdr (slabInit m cls s) cls s := by
  obtain ⟨-, hsz, hbits, hbig, -⟩ := slab_class_facts cls hcls
  have hused : usedSlots (Mm.slabInit m cls s) cls s = ∅ := by
    ext i
    rw [mem_usedSlots]
    refine ⟨fun h => ?_, fun h => absurd h (notMem_empty _)⟩
    rw [slotBit_slabInit (h.1.trans_le hbits)] at h
    exact absurd h.2 (by decide)
  -- The three fields before the cut of the capacity.
  let m2 : Mem := ((m.fill s slabHdrSz 0).wr (s + 4) 4 (slabSize cls)).wr (s + 8) 4 (slabSlots cls)
  let m3 : Mem := m2.wr s 4 (capacity m2 s)
  have hc2 : capacity m2 s = slabSlots cls := by
    refine rd_wr_self.trans (mod_eq_of_lt ?_)
    exact hbig
  obtain ⟨w1, w2, w3, -⟩ := fields_wr_count m2 s (capacity m2 s)
  have hs2 : objSize m2 s = slabSize cls := by
    refine (rd_wr_of_disjoint (by omega)).trans (rd_wr_self.trans (mod_eq_of_lt ?_))
    exact lt_of_le_of_lt hsz (by decide)
  have hf3 : freeCount m3 s = slabSlots cls := by
    refine w1.trans ?_
    rw [hc2, mod_eq_of_lt hbig]
  have hfinal : Mm.slabInit m cls s = if slabSlots cls > slabBits then m3.wr (s + 8) 4 slabBits else m3 := by
    show (if capacity m3 s > slabBits then _ else _) = _
    rw [show capacity m3 s = slabSlots cls from w3.trans hc2]
  refine ⟨?_, ?_, ?_⟩
  · rw [hfinal]
    split_ifs
    · exact (rd_wr_of_disjoint (by omega)).trans (w2.trans hs2)
    · exact w2.trans hs2
  · rw [hfinal]
    unfold slabCap
    split_ifs with hgt
    · rw [min_eq_right hgt.le]
      exact rd_wr_self
    · rw [min_eq_left (Nat.le_of_not_lt hgt)]
      exact w3.trans hc2
  · rw [hused, card_empty, add_zero, hfinal]
    split_ifs
    · exact (rd_wr_of_disjoint (by omega)).trans hf3
    · exact hf3

end FreeAsd.Mm
