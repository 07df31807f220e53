import FreeAsd.Mm.SlabRuns

/-!
# `kfree`

An object in the second page of a slab is released only if the record of that page happens to say order 1;
otherwise `kfree` reads the end of the object before it as a header (`kfree_exact_iff`). All others are
released, whatever the objects contain.
-/

namespace FreeAsd.Mm

open List

variable {r : HeapRun} {cls s slot : ℕ}

theorem objBytes_pos (size : ℕ) : 0 < objBytes size := by
  unfold objBytes
  split
  · rename_i cls hc
    exact lt_of_lt_of_le (by decide) (slab_class_facts cls (slabClass_spec hc).1).1
  · rw [pageSize_shiftLeft]; positivity

theorem base_mem_objRange (o : ℕ × ℕ) : o.1 ∈ objRange o := ⟨le_rfl, Nat.lt_add_of_pos_right (objBytes_pos o.2)⟩

theorem HeapBlock.of_erase {h : Heap} {o : ℕ × ℕ} {b : Block}
    (hb : HeapBlock ⟨h, r.live.erase o⟩ b) (hs : h.slabs = r.heap.slabs) : HeapBlock r b := by
  cases hb with
  | slab hcls hmem => exact .slab hcls (hs ▸ hmem)
  | large ho hc => exact .large (mem_of_mem_erase ho) hc

/-! ## The decision -/

/-- `amm_phys_free` changes the record of the page it is given or of a page recorded as free. -/
theorem pageInfo_ammPhysFree {phys : PhysState} {p q o : ℕ}
    (hne : q >>> pageShift ≠ p >>> pageShift) (hfree : (phys.pageInfo q).flags &&& pageFree = 0) :
    (ammPhysFree p o phys).pageInfo q = phys.pageInfo q := by
  -- The merge loop changes no record and ends at the page it started from or at one recorded as free.
  have hmerge : ∀ n p o (phys : PhysState), (mergeUp n p o phys).2.2.page_info = phys.page_info ∧
      ((mergeUp n p o phys).1 = p ∨
        (phys.pageInfo (mergeUp n p o phys).1).flags &&& pageFree ≠ 0) := by
    intro n
    induction n with
    | zero => exact fun p o phys => ⟨rfl, .inl rfl⟩
    | succ n ih =>
      intro p o phys
      unfold mergeUp
      dsimp only
      rw [← min_def_lt]
      split_ifs with hcond
      · exact ⟨rfl, .inl rfl⟩
      obtain ⟨h1, h2⟩ := ih (min p (p ^^^ pageSize <<< o)) (o + 1) (unlink phys (p ^^^ pageSize <<< o) o)
      unfold PhysState.pageInfo at h2
      rw [page_info_unlink] at h1 h2
      refine ⟨h1, ?_⟩
      rcases h2 with h2 | h2
      · rw [h2]
        rcases min_choice p (p ^^^ pageSize <<< o) with e | e <;> rw [e]
        · exact .inl rfl
        · exact .inr fun hz => hcond (.inl hz)
      · exact .inr h2
  obtain ⟨h1, h2⟩ := hmerge (maxOrder - o) p o phys
  have hq : q >>> pageShift ≠ (mergeUp (maxOrder - o) p o phys).1 >>> pageShift := by
    rcases h2 with h2 | h2
    · rw [h2]; exact hne
    · intro e
      unfold PhysState.pageInfo at h2 hfree
      rw [← e] at h2
      exact h2 hfree
  unfold ammPhysFree
  rw [pageInfo_physFreeBlock_of_ne _ _ hq]
  unfold PhysState.pageInfo
  rw [h1]

/-- Where the slots of a slab are: in its first page, but for slot 2 of the slabs of 2048-byte
objects. -/
theorem slot_page (hcls : cls < 10) (hslot : slot < slabCap cls) :
    (s + 64 ≤ slotAddr cls s slot ∧ slotAddr cls s slot < s + pageSize) ∨
      (cls = 8 ∧ slotAddr cls s slot = s + pageSize + 64) := by
  unfold slotAddr
  have hone : ∀ c < 8, slabHdrSz + slabCap c * slabSize c ≤ pageSize := by decide
  by_cases h8 : cls < 8
  · left
    have hpos := (slab_class_facts cls hcls).1
    have hfit := hone cls h8
    have hmul : (slot + 1) * slabSize cls ≤ slabCap cls * slabSize cls := Nat.mul_le_mul_right _ hslot
    rw [Nat.succ_mul] at hmul
    unfold slabHdrSz at *
    omega
  · obtain rfl | rfl : cls = 8 ∨ cls = 9 := by omega
    · have hcap : slabCap 8 = 3 := by decide
      have hsz : slabSize 8 = 2048 := by decide
      rw [hsz]
      unfold slabHdrSz pageSize
      omega
    · have hcap : slabCap 9 = 1 := by decide
      obtain rfl : slot = 0 := by omega
      left
      unfold slabHdrSz pageSize
      omega

/-- The page of an address inside a page-aligned page. -/
theorem page_of_mem {p s : ℕ} (hal : pageSize ∣ s) (hlo : s ≤ p) (hhi : p < s + pageSize) :
    p / pageSize * pageSize = s := by
  obtain ⟨i, rfl⟩ := hal
  unfold pageSize at *
  omega

/-- The header that `kfree` uses for an object of a slab: the right one for an object in the first
page. For one in the second page it is the right one exactly when the record of that page says
order 1. -/
theorem kfreeHeader_slot {h : Heap} (hcls : cls < 10) (hslot : slot < slabCap cls)
    (hal : (blk s (slabOrder cls)).Aligned) (hrec : RecordOk h.phys (blk s (slabOrder cls))) :
    kfreeHeader (slotAddr cls s slot) h =
      if slotAddr cls s slot < s + pageSize ∨ (h.phys.pageInfo (s + pageSize)).order = 1 then s
      else s + pageSize := by
  have hpage : pageSize ∣ s := page_dvd_base hal (by simp)
  obtain ⟨-, horder⟩ := hrec
  rw [blk_base, blk_order] at horder
  unfold kfreeHeader
  rcases slot_page (s := s) hcls hslot with ⟨hlo, hhi⟩ | ⟨rfl, heq⟩
  · rw [page_of_mem hpage (by omega) hhi, if_pos (Or.inl hhi), if_neg]
    rintro ⟨h1, h2⟩
    -- Order 1 means that the slab starts a pair of pages.
    have h1 : slabOrder cls = 1 := by omega
    have hal2 : 2^(1 + pageShift) ∣ s := by rw [← h1]; exact hal
    obtain ⟨i, rfl⟩ := hal2
    unfold pageSize pageShift at *
    omega
  · have hal2 : 2^(1 + pageShift) ∣ s := hal
    rw [heq, page_of_mem (s := s + pageSize) (hpage.add (dvd_refl _)) (by omega) (by unfold pageSize; omega)]
    have hup : (s + pageSize + 64) % (2 * pageSize) ≥ pageSize := by
      obtain ⟨i, rfl⟩ := hal2
      unfold pageSize pageShift
      omega
    have hnot : ¬ s + pageSize + 64 < s + pageSize := by omega
    by_cases h1 : (h.phys.pageInfo (s + pageSize)).order = 1
    · rw [if_pos ⟨h1, hup⟩, if_pos (.inr h1), Nat.add_sub_cancel]
    · rw [if_neg (fun hc => h1 hc.1), if_neg (not_or.mpr ⟨hnot, h1⟩)]

/-- With the second page of a slab for a header, `kfree` of the object behind those 64 bytes calls
`amm_phys_free` for a part of the slab, does nothing, or writes into the object before it. -/
theorem kfreeAction_second {p : ℕ} {h : Heap} (hp : p % pageSize = 64)
    (hhead : kfreeHeader p h + slabHdrSz = p) :
    kfreeAction p h = .physFree p (h.phys.pageInfo p).order ∨ kfreeAction p h = .ignore ∨
      kfreeAction p h = .release (kfreeHeader p h) 0 := by
  unfold kfreeAction
  rw [if_neg (by omega)]
  dsimp only
  rw [hhead, Nat.add_sub_cancel_left, Nat.mod_self, Nat.zero_div, Nat.zero_mod]
  split_ifs
  · exact .inl rfl
  · exact .inr (.inl rfl)
  · exact .inr (.inl rfl)
  · exact .inr (.inr rfl)

variable (h : HeapInv r)

include h

theorem HeapInv.page_dvd {b : Block} (hb : HeapBlock r b) : pageSize ∣ b.base :=
  page_dvd_base (h.block b hb).1 (by cases hb <;> simp)

/-- With the right header, `kfree` releases the slot of a small object. -/
theorem HeapInv.kfreeAction_slot (hcls : cls < 10) (hs : s ∈ r.heap.slabs cls)
    (hslot : slot < slabCap cls) (hbit : slotBit r.heap.mem s slot = true)
    (hhead : kfreeHeader (slotAddr cls s slot) r.heap = s) :
    kfreeAction (slotAddr cls s slot) r.heap = .release s slot := by
  obtain ⟨hsz, hcap, -⟩ := h.hdr cls hcls s hs
  obtain ⟨hlo, hhi, hbits, -⟩ := slab_class_facts cls hcls
  have hpage : pageSize ∣ s := h.page_dvd (.slab hcls hs)
  -- No slot starts a page.
  have hnot : slotAddr cls s slot % pageSize ≠ 0 := by
    obtain ⟨i, rfl⟩ := hpage
    have := slot_page (s := pageSize * i) hcls hslot
    unfold pageSize at *
    omega
  have hindex : (slotAddr cls s slot + 2^64 - (s + slabHdrSz)) % 2^64 / slabSize cls % 2^32 = slot := by
    have hsub : slotAddr cls s slot + 2^64 - (s + slabHdrSz) = slot * slabSize cls + 2^64 := by
      unfold slotAddr; omega
    have hlt : slot * slabSize cls < 2^64 := by
      have hfit := h.fits _ (.slab hcls hs)
      have hin := (slot_inside (s := s) hcls hslot).2
      rw [blk_end] at hfit
      omega
    rw [hsub, Nat.add_mod_right, Nat.mod_eq_of_lt hlt, Nat.mul_div_cancel _ (by omega)]
    unfold slabBits at hbits
    omega
  unfold kfreeAction
  rw [if_neg (fun hc => hnot hc.1)]
  dsimp only
  rw [hhead, hsz, hcap, hindex, if_neg (by omega), if_neg (by omega), hbit]
  rfl

/-- A block of the heap that starts inside a slab is the slab. -/
theorem HeapInv.base_eq {b : Block} (hb : HeapBlock r b) (hcls : cls < 10)
    (hs : s ∈ r.heap.slabs cls) (hin : b.base ∈ blk s (slabOrder cls)) : b.base = s := by
  cases hb with
  | slab hd ht => exact (h.slab_eq hd ht hcls hs (Block.base_mem _) hin).2
  | large ho hc =>
    exact absurd hin (Block.apart_iff.mp (h.large_apart _ ho hc cls hcls s hs) _ (Block.base_mem _))

/-- A call of `amm_phys_free` for an address whose page is not the first of a block of the heap. -/
theorem HeapInv.physFree {p k : ℕ} (hp : ∀ b, HeapBlock r b → b.base >>> pageShift ≠ p >>> pageShift) :
    HeapInv ⟨{ r.heap with phys := ammPhysFree p k r.heap.phys }, r.live⟩ := by
  refine h.phys fun b hb => pageInfo_ammPhysFree (hp b hb) ?_
  rw [(h.block b hb).2.1]
  decide

variable {o : ℕ × ℕ} (ho : o ∈ r.live)

include ho

/-- A large object goes back to the physical allocator with the order it was allocated with. -/
theorem HeapInv.kfreeAction_large (hc : slabClass o.2 = none) :
    kfreeAction o.1 r.heap = .physFree o.1 (largeOrder o.2) := by
  obtain ⟨hal, -, horder⟩ := h.block _ (.large ho hc)
  have hpage : pageSize ∣ o.1 := h.page_dvd (.large ho hc)
  rw [blk_base, blk_order] at horder
  have horder : (r.heap.phys.pageInfo o.1).order = largeOrder o.2 := by omega
  have hself : o.1 / pageSize * pageSize = o.1 := Nat.div_mul_cancel hpage
  have hhead : kfreeHeader o.1 r.heap = o.1 := by
    unfold kfreeHeader
    rw [hself, if_neg]
    rintro ⟨h1, h2⟩
    have hal2 : 2^(1 + pageShift) ∣ o.1 := by rw [← h1, horder]; exact hal
    obtain ⟨i, hi⟩ := hal2
    rw [hi] at h2
    unfold pageSize pageShift at h2
    omega
  unfold kfreeAction
  rw [hhead, horder]
  have hmod : o.1 % pageSize = 0 := Nat.mod_eq_zero_of_dvd hpage
  by_cases hsz : objSize r.heap.mem o.1 ≥ 8 ∧ objSize r.heap.mem o.1 ≤ 4096
  · rw [if_pos ⟨hmod, hsz⟩]
  · rw [if_neg (fun hcon => hsz hcon.2), if_pos (by omega)]

/-! ## The step lemma of `kfree` -/

/-- What is left after an object is taken off the list is elsewhere. -/
theorem HeapInv.erase_ne {o' : ℕ × ℕ} (ho' : o' ∈ r.live.erase o) : o'.1 ≠ o.1 := by
  intro e
  have hperm := perm_cons_erase ho
  have hpair := (hperm.pairwise_iff (fun h => h.symm)).mp h.disjoint
  have hd := Set.disjoint_left.mp ((pairwise_cons.mp hpair).1 o' ho') (base_mem_objRange o)
  exact hd (e ▸ base_mem_objRange o')

/-- The object of a class other than that of 8-byte objects may be forgotten with its bit set. -/
theorem HeapInv.forget (hc : slabClass o.2 ≠ some 0) : HeapInv ⟨r.heap, r.live.erase o⟩ := by
  have hsub : ∀ o' ∈ r.live.erase o, o' ∈ r.live := fun o' ho' => mem_of_mem_erase ho'
  constructor
  case hdr => exact h.hdr
  case block => exact fun b hb => h.block b (hb.of_erase rfl)
  case fits => exact fun b hb => h.fits b (hb.of_erase rfl)
  case slabs_apart => exact h.slabs_apart
  case large_apart => exact fun o' ho' => h.large_apart o' (hsub o' ho')
  case obj => exact fun o' ho' => h.obj o' (hsub o' ho')
  case nonzero => exact fun o' ho' => h.nonzero o' (hsub o' ho')
  case disjoint => exact h.disjoint.sublist erase_sublist
  case exact =>
    intro t ht i hi hb
    obtain ⟨n, hn⟩ := h.exact t ht i hi hb
    refine ⟨n, (mem_erase_of_ne ?_).mpr hn⟩
    -- The forgotten object is not in a slab of 8-byte objects.
    rintro rfl
    rcases hd : slabClass n with _ | d
    · exact Block.apart_iff.mp (h.large_apart _ ho hd 0 (by decide) t ht) _ (Block.base_mem _)
        (slotAddr_mem (by decide) hi)
    obtain ⟨u, hu, j, hj, he, -⟩ := h.obj _ ho d hd
    obtain ⟨rfl, -⟩ := h.slot_eq (by decide) ht hi (slabClass_spec hd).1 hu hj he
    exact hc hd

/-- Releasing the slot of a small object. -/
theorem HeapInv.release (hc : slabClass o.2 = some cls) (hs : s ∈ r.heap.slabs cls)
    (hslot : slot < slabCap cls) (he : o.1 = slotAddr cls s slot)
    (hb : slotBit r.heap.mem s slot = true) :
    HeapInv ⟨{ r.heap with mem := releaseSlot r.heap.mem s slot }, r.live.erase o⟩ := by
  have hcls := (slabClass_spec hc).1
  have hcap := (slab_class_facts cls hcls).2.2.1
  have hout : SameOutside s r.heap.mem (releaseSlot r.heap.mem s slot) := change_frame (hslot.trans_le hcap)
  have hsub : ∀ o' ∈ r.live.erase o, o' ∈ r.live := fun o' ho' => mem_of_mem_erase ho'
  refine h.setHeader hs hcls hout ((h.hdr cls hcls s hs).releaseSlot hcls hslot hb).1
    (fun b hb => hb.of_erase rfl) (fun o' ho' _ => hsub o' ho') ?_
    (fun o' ho' => h.nonzero o' (hsub o' ho')) (h.disjoint.sublist erase_sublist) ?_
  · intro o' ho' d hd
    obtain ⟨t, ht, i, hi, he', hb'⟩ := h.obj o' (hsub o' ho') d hd
    refine ⟨t, ht, i, hi, he', ?_⟩
    by_cases hst : s = t
    · subst hst
      obtain rfl := h.class_eq hcls hs (slabClass_spec hd).1 ht
      have hne : slot ≠ i := by
        rintro rfl
        exact h.erase_ne ho ho' (he'.trans he.symm)
      rw [slotBit_releaseSlot, hb']
      simp [hne]
    · rw [h.slotBit_other hs hcls hout (slabClass_spec hd).1 ht hst hi, hb']
  · intro t ht i hi hbit
    by_cases hsame : o.1 = slotAddr 0 t i
    · -- The bit of the slot was cleared.
      obtain ⟨rfl, rfl, rfl⟩ := h.slot_eq hcls hs hslot (by decide) ht hi (he.symm.trans hsame)
      simp [slotBit_releaseSlot] at hbit
    have hold : slotBit r.heap.mem t i = true := by
      by_cases hst : s = t
      · subst hst
        rw [slotBit_releaseSlot, Bool.and_eq_true] at hbit
        exact hbit.1
      · rwa [h.slotBit_other hs hcls hout (by decide) ht hst hi] at hbit
    obtain ⟨n, hn⟩ := h.exact t ht i hi hold
    exact ⟨n, (mem_erase_of_ne fun e => hsame (congrArg Prod.fst e).symm).mpr hn⟩

/-- Where the object of a slot is, and what `kfree` decides about it. -/
theorem HeapInv.kfree_cases (hc : slabClass o.2 = some cls) :
    ∃ s ∈ r.heap.slabs cls, ∃ slot < slabCap cls, o.1 = slotAddr cls s slot ∧
      slotBit r.heap.mem s slot = true ∧
      if o.1 < s + pageSize ∨ (r.heap.phys.pageInfo (s + pageSize)).order = 1 then
        kfreeAction o.1 r.heap = .release s slot
      else cls = 8 ∧ o.1 = s + pageSize + 64 ∧
        (kfreeAction o.1 r.heap = .physFree o.1 (r.heap.phys.pageInfo o.1).order ∨
          kfreeAction o.1 r.heap = .ignore ∨
          kfreeAction o.1 r.heap = .release (s + pageSize) 0) := by
  obtain ⟨s, hs, slot, hslot, he, hb⟩ := h.obj o ho cls hc
  have hcls := (slabClass_spec hc).1
  obtain ⟨hal, hrec⟩ := h.block _ (.slab hcls hs)
  have hhead := kfreeHeader_slot hcls hslot hal hrec
  refine ⟨s, hs, slot, hslot, he, hb, ?_⟩
  rw [← he] at hhead
  split_ifs with hcond
  · rw [if_pos hcond] at hhead
    rw [he] at hhead ⊢
    exact h.kfreeAction_slot hcls hs hslot hb hhead
  rw [if_neg hcond] at hhead
  obtain ⟨rfl, hp⟩ : cls = 8 ∧ o.1 = s + pageSize + 64 := by
    rcases slot_page (s := s) hcls hslot with hfirst | hsecond
    · exact absurd (.inl (he ▸ hfirst.2)) hcond
    · exact ⟨hsecond.1, he.trans hsecond.2⟩
  have hpage : pageSize ∣ s := page_dvd_base hal (by simp)
  have hmod : o.1 % pageSize = 64 := by
    obtain ⟨i, rfl⟩ := hpage
    rw [hp]
    unfold pageSize
    omega
  have h3 := kfreeAction_second hmod (by rw [hhead, hp]; rfl)
  rw [hhead] at h3
  exact ⟨rfl, hp, h3⟩

/-- `kfree` of a live object keeps the invariant, without the object. -/
theorem HeapInv.kfree : HeapInv ⟨kfree o.1 r.heap, r.live.erase o⟩ := by
  unfold Mm.kfree
  rw [if_neg (h.nonzero o ho)]
  rcases hc : slabClass o.2 with _ | cls
  · -- A large object: its block is not the heap's any more.
    have hforget := h.forget ho (by rw [hc]; simp)
    rw [h.kfreeAction_large ho hc]
    refine hforget.physFree fun b hb e => ?_
    have hbase : b.base = o.1 := eq_of_shiftRight_eq (hforget.page_dvd hb) (h.page_dvd (.large ho hc)) e
    cases hb with
    | slab hcls hs =>
      exact Block.apart_iff.mp (h.large_apart o ho hc _ hcls _ hs) o.1 (Block.base_mem _)
        (hbase ▸ Block.base_mem _)
    | large ho' hc' => exact h.erase_ne ho ho' hbase
  · obtain ⟨s, hs, slot, hslot, he, hb, hact⟩ := h.kfree_cases ho hc
    have hcls := (slabClass_spec hc).1
    split_ifs at hact with hcond
    · rw [hact]
      exact h.release ho hc hs hslot he hb
    -- The second page of a slab: its header and the other blocks are not touched.
    obtain ⟨rfl, hp, hact⟩ := hact
    have hforget := h.forget ho (by rw [hc]; simp)
    have hsize : 2^(slabOrder 8 + pageShift) = 2 * pageSize := by decide
    rcases hact with hact | hact | hact <;> rw [hact]
    · refine hforget.physFree fun b hb e => ?_
      have hpage : pageSize ∣ s := h.page_dvd (.slab hcls hs)
      have hsecond : b.base = s + pageSize := by
        refine eq_of_shiftRight_eq (hforget.page_dvd hb) (hpage.add (dvd_refl _)) ?_
        rw [e, hp]
        obtain ⟨i, rfl⟩ := hpage
        simp only [Nat.shiftRight_eq_div_pow]
        unfold pageSize pageShift
        omega
      have hbase := h.base_eq (hb.of_erase rfl) hcls hs (by
        rw [hsecond, Block.mem_def, blk_end, hsize, blk_base]
        unfold pageSize
        omega)
      unfold pageSize at hsecond
      omega
    · exact hforget
    · refine hforget.frame rfl (fun d hd t ht a hlo hhi => ?_) fun b hb => rfl
      refine change_frame (by decide) a ?_
      -- The write is inside the slab but not in its header.
      by_cases hst : s = t
      · subst hst
        unfold slabHdrSz at hhi
        unfold pageSize
        omega
      · have hap := h.slabs_apart 8 hcls s hs d hd t ht hst
        have hle := slabHdrSz_le (slabOrder d)
        unfold Block.Apart at hap
        rw [blk_end, blk_end, blk_base, blk_base, hsize] at hap
        unfold slabHdrSz pageSize at *
        omega

end FreeAsd.Mm
