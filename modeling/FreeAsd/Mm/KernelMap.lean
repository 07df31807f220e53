import FreeAsd.Mm.AddressSpaceLife
import Mathlib.Tactic.Linarith

/-!
# The kernel's page tables after boot

`amm_kernel_pml4_init` builds three maps from the bump pool. Every table has a label with the entry of the
root through which it is reached (`KNode`), so that the maps do not touch each other's tables (`Wrote`); that
they use different entries follows from the room for the records (`phys_top_lt`). After a boot that succeeds
the low tables are as `KernelTables` says (`boot_spaceInv`).
-/

namespace FreeAsd.Mm

open Nat Function Paging List

/-! ## Labels -/

/-- The place of a table among the kernel's: the entry of the root through which it is reached, its
level, and its index in the table above. -/
structure KNode where
  region : ℕ
  level : ℕ
  index : ℕ
deriving DecidableEq

/-- The label of the root. -/
def KNode.root : KNode := ⟨0, 4, 0⟩

/-- The entry of the root for the records of pages. -/
def infoRegion : ℕ := 272

/-- The entry of the root for the map of physical memory. -/
def physRegion : ℕ := 400

/-- What the entries of the kernel's tables are. Tables of level 2 lead to last tables in the map of
the records, and hold pieces of 2 MiB in the others. -/
def kernelSlot (l : KNode) (_t i : ℕ) : Slot KNode :=
  if l.level = 4 then .table ⟨i, 3, i⟩
  else if l.level = 3 then .table ⟨l.region, 2, i⟩
  else if l.level = 2 ∧ l.region = infoRegion then .table ⟨l.region, 1, i⟩
  else .free

theorem mayBeEmpty_kernelSlot (l : KNode) (t i : ℕ) : (kernelSlot l t i).MayBeEmpty := by
  unfold kernelSlot
  split_ifs <;> trivial

/-- What holds while the tables are built, after the root has been taken. `ph` is the allocator
before. -/
structure EarlyInv (ph : PhysState) (s : Machine) (τ : ℕ → Option KNode) : Prop where
  early : ph.g_early_boot = true
  phys : s.phys = { ph with g_bump_cur := s.phys.g_bump_cur }
  fits : ph.g_bump_end ≤ 2^52
  aligned : 4096 ∣ s.phys.g_bump_cur
  pos : 0 < s.phys.g_bump_cur
  lo : ph.g_bump_base ≤ s.phys.g_bump_cur
  hi : s.phys.g_bump_cur ≤ ph.g_bump_end
  typed : Typed kernelSlot τ s.mem
  pool : ∀ t l, τ t = some l → ph.g_bump_base ≤ t ∧ t + 4096 ≤ s.phys.g_bump_cur
  root : τ s.g_kernel_cr3 = some .root

/-- The step from `s` to `s'` wrote only entries of tables that exist which `W` allows, and no present
entry above level 2. -/
structure Wrote (W : KNode → ℕ → Prop) (s : Machine) (τ : ℕ → Option KNode) (s' : Machine)
    (τ' : ℕ → Option KNode) : Prop where
  labels : ∀ t l, τ t = some l → τ' t = some l
  entries : ∀ t l, τ t = some l → ∀ i < 512,
    ¬W l i ∨ 3 ≤ l.level ∧ (entry s.mem t i).testBit 0 = true → entry s'.mem t i = entry s.mem t i
  cr3 : s'.g_kernel_cr3 = s.g_kernel_cr3
  counters : s'.g_region_next = s.g_region_next ∧ s'.g_vmap_next = s.g_vmap_next
  cur : s.phys.g_bump_cur ≤ s'.phys.g_bump_cur

variable {ph : PhysState} {s s' s'' : Machine} {τ τ' τ'' : ℕ → Option KNode} {t i p va : ℕ}
  {l k : KNode} {W : KNode → ℕ → Prop}

theorem Wrote.refl (W : KNode → ℕ → Prop) (s : Machine) (τ : ℕ → Option KNode) : Wrote W s τ s τ :=
  ⟨fun _ _ ht => ht, fun _ _ _ _ _ _ => rfl, rfl, ⟨rfl, rfl⟩, le_rfl⟩

theorem Wrote.trans (h : Wrote W s τ s' τ') (h' : Wrote W s' τ' s'' τ'') : Wrote W s τ s'' τ'' where
  labels t l ht := h'.labels t l (h.labels t l ht)
  entries t l ht i hi hw := by
    have e := h.entries t l ht i hi hw
    rw [h'.entries t l (h.labels t l ht) i hi (by rwa [e]), e]
  cr3 := h'.cr3.trans h.cr3
  counters := ⟨h'.counters.1.trans h.counters.1, h'.counters.2.trans h.counters.2⟩
  cur := h.cur.trans h'.cur

theorem Wrote.mono {W' : KNode → ℕ → Prop} (h : Wrote W s τ s' τ') (hW : ∀ l i, W l i → W' l i) :
    Wrote W' s τ s' τ' :=
  { h with
    entries := fun t l ht i hi hw => h.entries t l ht i hi (hw.imp_left fun hn hw => hn (hW l i hw)) }

/-- Present entries above level 2 are kept. -/
theorem Wrote.walk (h : Wrote W s τ s' τ') (ht : τ t = some l) (hl : 3 ≤ l.level) (hi : i < 512)
    {y : ℕ} (hw : Paging.walk s.mem t [i] = some y) : Paging.walk s'.mem t [i] = some y := by
  rw [walk_singleton_eq_some] at hw ⊢
  rwa [h.entries t l ht i hi (.inr ⟨hl, hw.1⟩)]

/-! ## Taking a page from the pool -/

theorem bumpAlloc_page {ps : PhysState} (h : 4096 ∣ ps.g_bump_cur) :
    bumpAlloc 0 ps = if ps.g_bump_cur + 4096 > ps.g_bump_end then (0, ps)
      else (ps.g_bump_cur, { ps with g_bump_cur := ps.g_bump_cur + 4096 }) := by
  have hsize : pageSize <<< 0 = 4096 := rfl
  have hround : (ps.g_bump_cur + 4096 - 1) / 4096 * 4096 = ps.g_bump_cur := by omega
  unfold bumpAlloc
  simp only [hsize, hround]

/-- During the early boot a page is the next one of the pool. -/
theorem takePage_early (he : s.phys.g_early_boot = true) (hal : 4096 ∣ s.phys.g_bump_cur)
    (hpos : 0 < s.phys.g_bump_cur) :
    Mm.takePage s = if s.phys.g_bump_cur + 4096 > s.phys.g_bump_end then (none, s)
      else (some s.phys.g_bump_cur, { s with
        mem := clearPage s.mem s.phys.g_bump_cur
        phys := { s.phys with g_bump_cur := s.phys.g_bump_cur + 4096 } }) := by
  unfold Mm.takePage allocPage
  rw [ammPhysAlloc, if_pos he, bumpAlloc_page hal]
  obtain ⟨c, hc⟩ := exists_eq_succ_of_ne_zero hpos.ne'
  split_ifs
  · rfl
  · rw [hc]
    rfl

/-- The pool gives its next page, until it is used up. -/
theorem EarlyInv.takePage (h : EarlyInv ph s τ) :
    (Mm.takePage s = (none, s) ∧ ph.g_bump_end < s.phys.g_bump_cur + 4096) ∨
    ∃ p s', Mm.takePage s = (some p, s') ∧ EarlyInv ph s' τ ∧ (∀ W, Wrote W s τ s' τ) ∧
      p = s.phys.g_bump_cur ∧ IsFrame p ∧ s'.phys.g_bump_cur = s.phys.g_bump_cur + 4096 ∧
      ∀ j < 512, entry s'.mem p j = 0 := by
  have hend : s.phys.g_bump_end = ph.g_bump_end := by rw [h.phys]
  rw [takePage_early (by rw [h.phys]; exact h.early) h.aligned h.pos, hend]
  split_ifs with hfull
  · exact .inl ⟨rfl, hfull⟩
  -- Tables lie below the new page.
  have hkeep : ∀ t l, τ t = some l → ∀ x, t ≤ x → x < t + 4096 →
      clearPage s.mem s.phys.g_bump_cur x = s.mem x := fun t l ht x hx hx' =>
    clearPage_of_notMem (.inl (lt_of_lt_of_le hx' (h.pool t l ht).2))
  obtain ⟨ph', hph'⟩ : ∃ ph' : PhysState,
      ph' = { s.phys with g_bump_cur := s.phys.g_bump_cur + 4096 } := ⟨_, rfl⟩
  have hcur : ph'.g_bump_cur = s.phys.g_bump_cur + 4096 := by rw [hph']
  have hsame : ph' = { ph with g_bump_cur := ph'.g_bump_cur } := by rw [hcur, hph', h.phys]
  rw [← hph']
  refine .inr ⟨s.phys.g_bump_cur, { s with mem := clearPage s.mem s.phys.g_bump_cur, phys := ph' },
    rfl, ⟨h.early, hsame, h.fits, hcur ▸ h.aligned.add ⟨1, rfl⟩, hcur ▸ succ_pos _,
    hcur ▸ h.lo.trans (Nat.le_add_right _ _), hcur ▸ Nat.le_of_not_lt hfull, ?_, fun t l ht => ?_,
    h.root⟩, fun W => ⟨fun _ _ ht => ht, fun t l ht i hi _ => ?_, rfl, ⟨rfl, rfl⟩,
    hcur ▸ le_add_right _ _⟩, rfl, ⟨h.aligned, ?_⟩, hcur, fun j hj => entry_clearPage_self hj⟩
  · exact h.typed.congr fun t l ht => .inr fun x hx hx' => hkeep t l ht x hx hx'
  · exact ⟨(h.pool t l ht).1, hcur ▸ (h.pool t l ht).2.trans (le_add_right _ _)⟩
  · exact entry_congr hi fun x hx hx' => hkeep t l ht x hx hx'
  · have := h.fits
    omega

/-! ## Walking -/

/-- One level of a walk: the entry leads to a table with the label that its slot prescribes. -/
theorem EarlyInv.walkLevel (h : EarlyInv ph s τ) (ht : τ t = some l) (hi : i < 512)
    (hslot : kernelSlot l t i = .table k) :
    (Mm.walkLevel t i s = (none, s) ∧ ph.g_bump_end < s.phys.g_bump_cur + 4096) ∨
    ∃ y s' τ', Mm.walkLevel t i s = (some y, s') ∧ EarlyInv ph s' τ' ∧
      Wrote (fun n j => n = l ∧ j = i) s τ s' τ' ∧ τ' y = some k ∧ walk s'.mem t [i] = some y ∧
      s'.phys.g_bump_cur ≤ s.phys.g_bump_cur + 4096 := by
  unfold Mm.walkLevel
  split_ifs with he
  · refine .inr ⟨_, s, τ, rfl, h, .refl _ _ _, ?_, walk_singleton_eq_some.mpr ⟨he, rfl⟩, le_add_right _ _⟩
    exact h.typed.child ht hi (by rw [hslot]; rfl) he
  rcases h.takePage with ⟨e, hfull⟩ | ⟨p, s', e, h', hw, hp, hframe, hcur, hzero⟩
  · rw [e]
    exact .inl ⟨rfl, hfull⟩
  rw [e]
  have hnone : τ p = none := by
    cases hl : τ p with
    | none => rfl
    | some n =>
      have := (h.pool p n hl).2
      omega
  have hmod : (p ||| pteTable) % 4096 = 7 := or_flags_mod hframe (by decide)
  have hbit : (p ||| pteTable).testBit 0 = true := testBit_of_mod hmod (by decide)
  have hptr : frame (p ||| pteTable) = p := frame_or_flags hframe (by decide)
  have hv : p ||| pteTable < 2^64 := by
    rw [or_flags hframe (by decide), pteTable]
    have := hframe.2
    omega
  have hkeep : ∀ x n, τ x = some n → update τ p (some k) x = some n := fun x n hx => by
    rw [update_of_ne, hx]
    rintro rfl
    rw [hnone] at hx
    cases hx
  have htyped := (h'.typed.label (l := k) hframe hnone (fun j hj => by
    rw [hzero j hj]
    exact slotOk_of_not_testBit (mayBeEmpty_kernelSlot k p j) rfl)).setEntry (hkeep t l ht) hi hv (by
      rw [hslot]
      exact fun _ => ⟨hmod, by rw [hptr, update_self]⟩)
  refine .inr ⟨p, { s' with mem := setEntry s'.mem t i (p ||| pteTable) },
    update τ p (some k), ?_, ⟨h'.early, h'.phys, h'.fits, h'.aligned, h'.pos, h'.lo,
    h'.hi, htyped,
    fun x n hx => ?_, hkeep _ _ h'.root⟩, ⟨hkeep, fun x n hx j hj hne => ?_, (hw fun _ _ => True).cr3,
    (hw fun _ _ => True).counters, (hw fun _ _ => True).cur⟩, update_self .., ?_, hcur.le⟩
  · dsimp only
    rw [entry_setEntry_self hv, hptr]
  · by_cases hxp : x = p
    · have hlo := h.lo
      exact ⟨by omega, by show x + 4096 ≤ s'.phys.g_bump_cur; omega⟩
    · rw [update_of_ne hxp] at hx
      exact h'.pool x n hx
  · have hold := (hw fun _ _ => False).entries x n hx j hj (.inl id)
    rw [← hold]
    refine entry_setEntry_of_ne (h.typed t l ht).1.1 (h.typed x n hx).1.1 hi hj ?_
    by_contra hsame
    have hsame : x = t ∧ j = i := by omega
    obtain ⟨rfl, rfl⟩ := hsame
    rw [ht] at hx
    rcases hne with hne | hne
    · exact hne ⟨(Option.some.inj hx).symm, rfl⟩
    · exact he hne.2
  · rw [walk_singleton_eq_some, entry_setEntry_self hv]
    exact ⟨hbit, hptr⟩

/-- An entry that is not for a table may be anything. -/
theorem EarlyInv.setFree (h : EarlyInv ph s τ) (ht : τ t = some l) (hl : l.level < 3) (hi : i < 512)
    (hslot : kernelSlot l t i = .free) {v : ℕ} (hv : v < 2^64) :
    EarlyInv ph { s with mem := setEntry s.mem t i v } τ ∧
      Wrote (fun n j => n = l ∧ j = i) s τ { s with mem := setEntry s.mem t i v } τ := by
  refine ⟨{ h with typed := h.typed.setEntry ht hi hv (by rw [hslot]; trivial) }, fun _ _ hx => hx,
    fun x n hx j hj hne => ?_, rfl, ⟨rfl, rfl⟩, le_rfl⟩
  refine entry_setEntry_of_ne (h.typed t l ht).1.1 (h.typed x n hx).1.1 hi hj ?_
  by_contra hsame
  have hsame : x = t ∧ j = i := by omega
  obtain ⟨rfl, rfl⟩ := hsame
  rw [ht] at hx
  cases hx
  rcases hne with hne | ⟨hlev, -⟩
  · exact hne ⟨rfl, rfl⟩
  · omega

/-! ## The maps of 2 MiB pieces -/

/-- The entries on the way to an address, down to level 2. -/
def OnPath (va : ℕ) (l : KNode) (i : ℕ) : Prop :=
  l = .root ∧ i = tableIdx 3 va ∨ l = ⟨tableIdx 3 va, 3, tableIdx 3 va⟩ ∧ i = tableIdx 2 va ∨
    l = ⟨tableIdx 3 va, 2, tableIdx 2 va⟩ ∧ i = tableIdx 1 va

/-- The kernel's tables map the piece of `va` by the entry `v`. -/
def MapsPiece (s : Machine) (τ : ℕ → Option KNode) (va v : ℕ) : Prop :=
  ∃ pdpt pd, τ pdpt = some ⟨tableIdx 3 va, 3, tableIdx 3 va⟩ ∧
    τ pd = some ⟨tableIdx 3 va, 2, tableIdx 2 va⟩ ∧
    walk s.mem s.g_kernel_cr3 [tableIdx 3 va] = some pdpt ∧ walk s.mem pdpt [tableIdx 2 va] = some pd ∧
    entry s.mem pd (tableIdx 1 va) = v

theorem EarlyInv.mapHuge (h : EarlyInv ph s τ) {pa : ℕ} (hg : tableIdx 3 va ≠ infoRegion)
    (hv : pa ||| 0x87 < 2^64) :
    (Mm.mapHuge va pa s = none ∧ ph.g_bump_end < s.phys.g_bump_cur + 8192) ∨
    ∃ s' τ', Mm.mapHuge va pa s = some s' ∧ EarlyInv ph s' τ' ∧ Wrote (OnPath va) s τ s' τ' ∧
      MapsPiece s' τ' va (pa ||| 0x87) ∧ s'.phys.g_bump_cur ≤ s.phys.g_bump_cur + 8192 := by
  unfold Mm.mapHuge
  rcases h.walkLevel h.root (tableIdx_lt 3 va) rfl with ⟨e₁, hfull⟩ |
    ⟨pdpt, s₁, τ₁, e₁, h₁, hw₁, hl₁, hk₁, hc₁⟩
  · rw [e₁]
    exact .inl ⟨rfl, by omega⟩
  rw [e₁]
  dsimp only
  rcases h₁.walkLevel hl₁ (tableIdx_lt 2 va) rfl with ⟨e₂, hfull⟩ |
    ⟨pd, s₂, τ₂, e₂, h₂, hw₂, hl₂, hk₂, hc₂⟩
  · rw [e₂]
    exact .inl ⟨rfl, by omega⟩
  rw [e₂]
  have hfree : kernelSlot ⟨tableIdx 3 va, 2, tableIdx 2 va⟩ pd (tableIdx 1 va) = .free := by
    simp [kernelSlot, hg]
  obtain ⟨h₃, hw₃⟩ := h₂.setFree hl₂ (lt_succ_self 2) (tableIdx_lt 1 va) hfree hv
  have hw : Wrote (OnPath va) s₁ τ₁ _ τ₂ :=
    (hw₂.mono fun n j hn => .inr (.inl hn)).trans (hw₃.mono fun n j hn => .inr (.inr hn))
  refine .inr ⟨_, τ₂, rfl, h₃, (hw₁.mono fun n j hn => .inl hn).trans hw, ?_, ?_⟩
  · have hcr3 : s₂.g_kernel_cr3 = s.g_kernel_cr3 := hw₂.cr3.trans hw₁.cr3
    refine ⟨pdpt, pd, hw₂.labels _ _ hl₁, hl₂, ?_, ?_, entry_setEntry_self hv⟩
    · show walk _ s₂.g_kernel_cr3 _ = _
      rw [hcr3]
      exact hw.walk (hw₁.labels _ _ h.root) (by decide) (tableIdx_lt 3 va) hk₁
    · exact hw₃.walk (hw₂.labels _ _ hl₁) le_rfl (tableIdx_lt 2 va) hk₂
  · show s₂.phys.g_bump_cur ≤ _
    omega

/-- The entries of one region: that of the root, and the tables behind it. -/
def InRegion (g : ℕ) (l : KNode) (i : ℕ) : Prop := l = .root ∧ i = g ∨ l.region = g ∧ l.level ≤ 3

theorem inRegion_of_onPath (h : OnPath va l i) : InRegion (tableIdx 3 va) l i := by
  rcases h with h | ⟨rfl, -⟩ | ⟨rfl, -⟩
  · exact .inl h
  · exact .inr ⟨rfl, le_rfl⟩
  · exact .inr ⟨rfl, le_succ 2⟩

/-- Pieces are kept by steps in other regions, and by steps for other pieces. -/
theorem MapsPiece.wrote {v : ℕ} (h : MapsPiece s τ va v) (hroot : τ s.g_kernel_cr3 = some .root)
    (hw : Wrote W s τ s' τ')
    (hW : ¬W ⟨tableIdx 3 va, 2, tableIdx 2 va⟩ (tableIdx 1 va)) : MapsPiece s' τ' va v := by
  obtain ⟨pdpt, pd, hl₁, hl₂, hk₁, hk₂, he⟩ := h
  refine ⟨pdpt, pd, hw.labels _ _ hl₁, hw.labels _ _ hl₂, ?_, hw.walk hl₁ le_rfl (tableIdx_lt 2 va) hk₂,
    by rw [hw.entries pd _ hl₂ _ (tableIdx_lt 1 va) (.inl hW), he]⟩
  rw [hw.cr3]
  exact hw.walk hroot (by decide) (tableIdx_lt 3 va) hk₁

theorem hugeEntry_lt {k : ℕ} (h : k * 2^21 < 2^52) : k * 2^21 ||| 0x87 < 2^64 := by
  have hframe : IsFrame (k * 2^21) := ⟨⟨k * 512, by ring⟩, h⟩
  have hsum : k * 2^21 ||| 0x87 = k * 2^21 + 0x87 := or_flags hframe (by decide)
  omega

/-- The loop of a map in one region maps every piece. -/
theorem EarlyInv.hugeLoop {base g : ℕ} (hbase : 2^21 ∣ base) (hg : g ≠ infoRegion) (n : ℕ) {k : ℕ}
    (h : EarlyInv ph s τ)
    (hva : ∀ j < k + n, tableIdx 3 ((base + j * 2^21) % 2^64) = g ∧ j * 2^21 < 2^48)
    (hold : ∀ j < k, MapsPiece s τ ((base + j * 2^21) % 2^64) (j * 2^21 ||| 0x87)) :
    (Mm.hugeLoop base n k s = none ∧ ph.g_bump_end < s.phys.g_bump_cur + n * 8192) ∨
    ∃ s' τ', Mm.hugeLoop base n k s = some s' ∧ EarlyInv ph s' τ' ∧ Wrote (InRegion g) s τ s' τ' ∧
      (∀ j < k + n, MapsPiece s' τ' ((base + j * 2^21) % 2^64) (j * 2^21 ||| 0x87)) ∧
      s'.phys.g_bump_cur ≤ s.phys.g_bump_cur + n * 8192 := by
  induction n generalizing s τ k with
  | zero => exact .inr ⟨s, τ, rfl, h, .refl _ _ _, hold, le_rfl⟩
  | succ n ih =>
    obtain ⟨hreg, hlt⟩ := hva k (by omega)
    unfold Mm.hugeLoop
    rcases h.mapHuge (hreg ▸ hg) (hugeEntry_lt (k := k) (by omega)) with ⟨e, hfull⟩ |
      ⟨s₁, τ₁, e, h₁, hw₁, hmap, hc₁⟩
    · rw [e]
      exact .inl ⟨rfl, by omega⟩
    rw [e]
    have hnew : ∀ j < k + 1, MapsPiece s₁ τ₁ ((base + j * 2^21) % 2^64) (j * 2^21 ||| 0x87) := by
      intro j hj
      rcases Nat.lt_succ_iff_lt_or_eq.mp hj with hj | rfl
      · refine (hold j hj).wrote h.root hw₁ ?_
        -- Different pieces have different entries.
        rintro (⟨e, -⟩ | ⟨e, -⟩ | ⟨e, e1⟩)
        · exact absurd (congrArg KNode.level e) (by simp [KNode.root])
        · exact absurd (congrArg KNode.level e) (by simp)
        · have e2 := congrArg KNode.index e
          have e3 := (hva j (by omega)).1.trans hreg.symm
          simp only [tableIdx_eq] at e1 e2 e3
          omega
      · exact hmap
    rcases ih h₁ (fun j hj => hva j (by omega)) hnew with ⟨e', hfull⟩ | ⟨s', τ', e', h', hw', hall, hc'⟩
    · exact .inl ⟨e', by omega⟩
    · exact .inr ⟨s', τ', e', h', (hw₁.mono fun l i hl => hreg ▸ inRegion_of_onPath hl).trans hw',
        fun j hj => hall j (by omega), by omega⟩

/-! ## The records of pages -/

theorem leafEntry_lt (pa prot : ℕ) : frame pa ||| mapFlags prot < 2^64 := by
  refine or_lt_two_pow ((isFrame_frame pa).2.trans (by decide)) ?_
  unfold mapFlags
  split_ifs <;> decide

/-- A page of the records is mapped, or the pool is used up and it is not. -/
theorem EarlyInv.mapPage (h : EarlyInv ph s τ) (hg : tableIdx 3 va = infoRegion) (pa prot : ℕ) :
    ∃ τ', EarlyInv ph (Mm.mapPage s.g_kernel_cr3 va pa prot s) τ' ∧
      Wrote (InRegion infoRegion) s τ (Mm.mapPage s.g_kernel_cr3 va pa prot s) τ' ∧
      (Mm.mapPage s.g_kernel_cr3 va pa prot s).phys.g_bump_cur ≤ s.phys.g_bump_cur + 12288 := by
  unfold Mm.mapPage Mm.ptWalkAlloc
  rw [frame_of_isFrame (h.typed _ _ h.root).1, hg]
  rcases h.walkLevel (i := infoRegion) h.root (by decide) rfl with ⟨e₁, -⟩ |
    ⟨pdpt, s₁, τ₁, e₁, h₁, hw₁, hl₁, -, hc₁⟩
  · rw [e₁]
    exact ⟨τ, h, .refl _ _ _, le_add_right _ _⟩
  rw [e₁]
  have hw₁ : Wrote (InRegion infoRegion) s τ s₁ τ₁ := hw₁.mono fun n j hn => .inl hn
  rcases h₁.walkLevel hl₁ (tableIdx_lt 2 va) rfl with ⟨e₂, -⟩ |
    ⟨pd, s₂, τ₂, e₂, h₂, hw₂, hl₂, -, hc₂⟩
  · dsimp only
    rw [e₂]
    exact ⟨τ₁, h₁, hw₁, by dsimp only; omega⟩
  dsimp only
  rw [e₂]
  have hw₂ : Wrote (InRegion infoRegion) s τ s₂ τ₂ :=
    hw₁.trans (hw₂.mono fun n j hn => .inr (hn.1 ▸ ⟨rfl, le_rfl⟩))
  rcases h₂.walkLevel hl₂ (tableIdx_lt 1 va) rfl with ⟨e₃, -⟩ |
    ⟨pt, s₃, τ₃, e₃, h₃, hw₃, hl₃, -, hc₃⟩
  · dsimp only
    rw [e₃]
    exact ⟨τ₂, h₂, hw₂, by dsimp only; omega⟩
  dsimp only
  rw [e₃]
  have hw₃ : Wrote (InRegion infoRegion) s τ s₃ τ₃ :=
    hw₂.trans (hw₃.mono fun n j hn => .inr (hn.1 ▸ ⟨rfl, le_succ 2⟩))
  -- The entries of a last table are for no table.
  obtain ⟨h₄, hw₄⟩ := h₃.setFree hl₃ (show 1 < 3 by decide) (tableIdx_lt 0 va) rfl (leafEntry_lt pa prot)
  exact ⟨τ₃, h₄, hw₃.trans (hw₄.mono fun n j hn => .inr (hn.1 ▸ ⟨rfl, show 1 ≤ 3 by decide⟩)),
    by dsimp only; omega⟩

/-- The pool has less than 128 MiB, so the loop of map 2 stays in its region: every round takes a page
at least. -/
theorem EarlyInv.pageInfoLoop (n : ℕ) {i : ℕ} (h : EarlyInv ph s τ)
    (hpool : ph.g_bump_end ≤ ph.g_bump_base + 2^27)
    (hi : ph.g_bump_base + i * 4096 ≤ s.phys.g_bump_cur) :
    (Mm.pageInfoLoop n i s = none ∧ ph.g_bump_end < s.phys.g_bump_cur + n * 16384) ∨
    ∃ s' τ', Mm.pageInfoLoop n i s = some s' ∧ EarlyInv ph s' τ' ∧
      Wrote (InRegion infoRegion) s τ s' τ' ∧ ph.g_bump_base + (i + n) * 4096 ≤ s'.phys.g_bump_cur ∧
      s'.phys.g_bump_cur ≤ s.phys.g_bump_cur + n * 16384 := by
  induction n generalizing s τ i with
  | zero => exact .inr ⟨s, τ, rfl, h, .refl _ _ _, hi, le_rfl⟩
  | succ n ih =>
    unfold Mm.pageInfoLoop
    rcases h.takePage with ⟨e, hfull⟩ | ⟨p, s₁, e, h₁, hw₁, -, -, hc₁, -⟩
    · rw [e]
      exact .inl ⟨rfl, by omega⟩
    rw [e]
    have hhi := h.hi
    have hreg : tableIdx 3 (pageInfoBase + i * pageSize) = infoRegion := by
      rw [tableIdx_eq, pageInfoBase, pageSize, infoRegion]
      omega
    obtain ⟨τ₂, h₂, hw₂, hc₂⟩ := h₁.mapPage hreg p (protRead ||| protWrite)
    dsimp only
    generalize Mm.mapPage s₁.g_kernel_cr3 _ p _ s₁ = s₂ at h₂ hw₂ hc₂ ⊢
    have hcur := hw₂.cur
    have hi' : ph.g_bump_base + (i + 1) * 4096 ≤ s₂.phys.g_bump_cur := by linarith
    rcases ih h₂ hi' with ⟨e', hfull⟩ | ⟨s', τ', e', h', hw', hlo, hc'⟩
    · exact .inl ⟨e', by omega⟩
    · exact .inr ⟨s', τ', e', h', ((hw₁ _).trans hw₂).trans hw', by linarith, by linarith⟩

/-! ## The pool -/

/-- What the bump pool is before its first page is taken. -/
structure PoolBounds (ph : PhysState) : Prop where
  early : ph.g_early_boot = true
  unused : ph.g_bump_cur = ph.g_bump_base
  base : 4096 ∣ ph.g_bump_base
  stop : 4096 ∣ ph.g_bump_end
  le : ph.g_bump_base ≤ ph.g_bump_end
  fits : ph.g_bump_end ≤ 2^52
  size : ph.g_bump_end ≤ ph.g_bump_base + 2^27

/-- Where no region has 64 MiB above 1 MiB, no region has more than 65 MiB. -/
theorem mmapRange_of_bumpInitFirst {mmap : List AsdMmapEntry} (h : bumpInitFirst mmap = none)
    {m : AsdMmapEntry} (hm : m ∈ mmap) (ht : m.type = .free) :
    (mmapRange m).2 ≤ (mmapRange m).1 + 2^27 := by
  induction mmap with
  | nil => simp at hm
  | cons n rest ih =>
    unfold bumpInitFirst at h
    dsimp only at h
    split_ifs at h with htype hsmall
    · rcases mem_cons.mp hm with rfl | hm
      · exact absurd ht htype
      · exact ih h hm
    · rcases mem_cons.mp hm with rfl | hm
      · rw [bumpSize] at hsmall
        omega
      · exact ih h hm

theorem PoolBounds.bumpInitLargest {m : AsdMmapEntry} (h : PoolBounds ph)
    (hm : m.type = .free → pageSize ∣ m.base ∧ m.limit ≤ 2^52 ∧ m.limit ≤ m.base + 2^27) :
    PoolBounds (bumpInitLargest ph m) := by
  unfold Mm.bumpInitLargest
  dsimp only
  split_ifs with ht hlt
  · exact h
  · obtain ⟨hb, hl, hsize⟩ := hm (not_not.mp ht)
    rw [mmapRange_eq hb hl] at hlt ⊢
    exact ⟨h.early, rfl, hb, hb.add (dvd_mul_left _ _), hlt.1.le, hl, hsize⟩
  · exact h

theorem poolBounds_ammEarlyPhysScan (mm : MemoryMap) : PoolBounds (ammEarlyPhysScan mm.entries .start) := by
  have hscan : PoolBounds (mm.entries.foldl ammEarlyPhysScanEntry PhysState.start.clear) := by
    refine foldlRecOn mm.entries _ ⟨rfl, rfl, dvd_zero _, dvd_zero _, le_rfl, zero_le _,
      zero_le _⟩ fun s hs m _ => ?_
    unfold ammEarlyPhysScanEntry
    dsimp only
    split_ifs <;> exact { hs with }
  unfold ammEarlyPhysScan bumpInit
  split
  · rename_i base stop hfirst
    obtain ⟨hb, -, rfl, m, hm, ht, -, hin⟩ := bumpInitFirst_spec hfirst
    rw [mmapRange_eq (mm.aligned m hm ht) (mm.fits m hm ht)] at hin
    exact ⟨hscan.early, rfl, hb, hb.add ⟨16384, rfl⟩, le_add_right _ _,
      hin.trans (mm.fits m hm ht), Nat.add_le_add_left (by decide) base⟩
  · rename_i hfirst
    refine foldlRecOn mm.entries _ hscan fun s hs m hm => hs.bumpInitLargest fun ht => ?_
    have hsize := mmapRange_of_bumpInitFirst hfirst hm ht
    rw [mmapRange_eq (mm.aligned m hm ht) (mm.fits m hm ht)] at hsize
    exact ⟨mm.aligned m hm ht, mm.fits m hm ht, hsize⟩

/-! ## The boot -/

/-- A pool at address 0 gives no page: its first page looks like a failure. -/
theorem takePage_of_base_zero (h : PoolBounds s.phys) (h0 : s.phys.g_bump_base = 0) :
    (Mm.takePage s).1 = none := by
  unfold Mm.takePage allocPage
  rw [ammPhysAlloc, if_pos h.early, bumpAlloc_page (h.unused ▸ h.base), h.unused, h0]
  split_ifs <;> rfl

/-- The root. -/
theorem EarlyInv.start (h : PoolBounds s.phys) (h0 : s.phys.g_bump_base ≠ 0) :
    (Mm.takePage s = (none, s) ∧ s.phys.g_bump_end < s.phys.g_bump_base + 4096) ∨
    ∃ p s' τ, Mm.takePage s = (some p, s') ∧ EarlyInv s.phys { s' with g_kernel_cr3 := p } τ ∧
      s'.phys.g_bump_cur = s.phys.g_bump_base + 4096 ∧ s'.g_vmap_next = s.g_vmap_next := by
  have hcur := h.unused
  rw [takePage_early h.early (hcur ▸ h.base) (hcur ▸ pos_of_ne_zero h0), hcur]
  split_ifs with hfull
  · exact .inl ⟨rfl, hfull⟩
  have hfits := h.fits
  have hframe : IsFrame s.phys.g_bump_base := ⟨h.base, by omega⟩
  refine .inr ⟨_, _, update (fun _ => none) s.phys.g_bump_base (some .root), rfl,
    ⟨h.early, rfl, hfits, h.base.add ⟨1, rfl⟩, succ_pos _, le_add_right _ _,
    Nat.le_of_not_lt hfull, ?_, fun t l ht => ?_, update_self ..⟩, rfl, rfl⟩
  · refine Typed.label (τ := fun _ => none) (fun t l ht => by simp at ht) hframe rfl fun j hj => ?_
    rw [entry_clearPage_self hj]
    exact slotOk_of_not_testBit (mayBeEmpty_kernelSlot .root _ j) rfl
  · by_cases htp : t = s.phys.g_bump_base
    · exact ⟨htp.ge, by subst htp; exact le_rfl⟩
    · simp [update_of_ne htp] at ht

/-- The number of pages that the tables and the records may take. -/
def tablePages (top : ℕ) : ℕ :=
  1 + hugePieces identityLimit * 2 + piPages top * 4 +
    hugePieces (if top = 0 then identityLimit else top) * 2

/-- A pool with room for the records of all pages bounds the physical addresses. -/
theorem phys_top_lt {top : ℕ} (h : piPages top * 4096 ≤ 2^27) : top < 2^36 := by
  unfold piPages pageShift pageSize at h
  omega

theorem tableIdx_physMap {top j : ℕ} (htop : top < 2^36) (hj : j < hugePieces top) :
    tableIdx 3 ((physMapBase + j * 2^21) % 2^64) = physRegion ∧ j * 2^21 < 2^48 := by
  unfold hugePieces at hj
  rw [tableIdx_eq, physMapBase, physRegion]
  omega

/-- The three maps fail only for want of pages; otherwise the identity map is complete, and they have
taken no more than that. -/
theorem EarlyInv.kernelMaps (h : EarlyInv ph s τ) (hsize : ph.g_bump_end ≤ ph.g_bump_base + 2^27) :
    (Mm.kernelMaps s = none ∧ ph.g_bump_end + 4096 <
      s.phys.g_bump_cur + tablePages ph.phys_top * 4096) ∨
    ∃ s' τ', Mm.kernelMaps s = some s' ∧ EarlyInv ph s' τ' ∧
      s'.g_vmap_next = s.g_vmap_next ∧
      s'.phys.g_bump_cur + 4096 ≤ s.phys.g_bump_cur + tablePages ph.phys_top * 4096 ∧
      ∀ j < 2048, MapsPiece s' τ' (j * 2^21) (j * 2^21 ||| 0x87) := by
  have htotal : tablePages ph.phys_top * 4096 = 4096 + hugePieces identityLimit * 8192 +
      piPages ph.phys_top * 16384 +
      hugePieces (if ph.phys_top = 0 then identityLimit else ph.phys_top) * 8192 := by
    unfold tablePages
    ring
  have hpieces : hugePieces identityLimit = 2048 := by decide
  unfold Mm.kernelMaps
  simp only [Option.bind_eq_bind]
  rw [htotal]
  generalize hugePieces identityLimit = n at hpieces ⊢
  generalize htop : (if ph.phys_top = 0 then identityLimit else ph.phys_top) = top
  have hva : ∀ j < 2048, (0 + j * 2^21) % 2^64 = j * 2^21 := by omega
  have h3 : ∀ j < 2048, tableIdx 3 (j * 2^21) = 0 := by
    intro j hj
    rw [tableIdx_eq]
    omega
  have hnone : ∀ {s τ base} (j : ℕ), j < 0 → MapsPiece s τ ((base + j * 2^21) % 2^64) (j * 2^21 ||| 0x87) :=
    fun j hj => absurd hj (not_lt_zero j)
  rcases h.hugeLoop (dvd_zero _) (g := 0) (by decide) n (k := 0)
    (fun j hj => ⟨by rw [hva j (by omega), h3 j (by omega)], by omega⟩) hnone with
    ⟨e, hfull⟩ | ⟨s₂, τ₂, e, h₂, hw₂, hmap, hc₂⟩
  · rw [e]
    exact .inl ⟨rfl, by linarith⟩
  have hptop : s₂.phys.phys_top = ph.phys_top := by rw [h₂.phys]
  rw [e, Option.bind_some, hptop]
  -- Map 2 bounds the addresses of map 3.
  rcases h₂.pageInfoLoop (piPages ph.phys_top) (i := 0) hsize (by simpa using h₂.lo) with
    ⟨e, hfull⟩ | ⟨s₃, τ₃, e, h₃, hw₃, hlo, hc₃⟩
  · rw [e]
    exact .inl ⟨rfl, by linarith⟩
  have hptop : s₃.phys.phys_top = ph.phys_top := by rw [h₃.phys]
  have hlt : top < 2^36 := by
    have hhi := h₃.hi
    have hphys : ph.phys_top < 2^36 := phys_top_lt (by rw [zero_add] at hlo; linarith)
    rw [← htop]
    split_ifs
    · decide
    · exact hphys
  rw [e, Option.bind_some, hptop, htop]
  rcases h₃.hugeLoop (by decide) (show physRegion ≠ infoRegion by decide) (hugePieces top) (k := 0)
    (fun j hj => tableIdx_physMap hlt (by omega)) hnone with ⟨e, hfull⟩ |
    ⟨s₄, τ₄, e, h₄, hw₄, -, hc₄⟩
  · rw [e]
    exact .inl ⟨rfl, by linarith⟩
  rw [e]
  refine .inr ⟨s₄, τ₄, rfl, h₄, ?_, by linarith, fun j hj => ?_⟩
  · rw [hw₄.counters.2, hw₃.counters.2, hw₂.counters.2]
  -- Maps 2 and 3 are in other regions than map 1.
  have hpiece := hmap j (by omega)
  rw [hva j hj] at hpiece
  refine (hpiece.wrote h₂.root hw₃ ?_).wrote h₃.root hw₄ ?_ <;>
  · rw [h3 j hj]
    rintro (⟨e, -⟩ | ⟨e, -⟩)
    · exact absurd (congrArg KNode.level e) (by simp [KNode.root])
    · exact absurd e (show (0 : ℕ) ≠ _ by decide)

/-- `amm_kernel_pml4_init` fails only for want of pages; otherwise the identity map is complete, and
all tables are in the pool. -/
theorem ammKernelPml4Init_spec (hp : PoolBounds s.phys) :
    (ammKernelPml4Init s = none ∧ (s.phys.g_bump_base = 0 ∨
      s.phys.g_bump_end < s.phys.g_bump_base + tablePages s.phys.phys_top * 4096)) ∨
    ∃ s' τ cur, ammKernelPml4Init s = some s' ∧
      s'.phys = { s.phys with g_bump_cur := cur, g_early_boot := false } ∧
      s.phys.g_bump_base ≠ 0 ∧
      (4096 ∣ cur ∧ s.phys.g_bump_base ≤ cur ∧ cur ≤ s.phys.g_bump_end ∧
        cur ≤ s.phys.g_bump_base + tablePages s.phys.phys_top * 4096) ∧
      s'.g_vmap_next = s.g_vmap_next ∧ τ s'.g_kernel_cr3 = some .root ∧
      (∀ t l, τ t = some l → IsFrame t ∧ s.phys.g_bump_base ≤ t ∧ t + 4096 ≤ s.phys.g_bump_end) ∧
      ∀ j < 2048, MapsPiece s' τ (j * 2^21) (j * 2^21 ||| 0x87) := by
  unfold ammKernelPml4Init
  by_cases h0 : s.phys.g_bump_base = 0
  · have hnone := takePage_of_base_zero hp h0
    generalize Mm.takePage s = r at hnone ⊢
    obtain ⟨r, s₁⟩ := r
    obtain rfl : r = none := hnone
    exact .inl ⟨rfl, .inl h0⟩
  have hone : 1 ≤ tablePages s.phys.phys_top := by
    unfold tablePages
    omega
  rcases EarlyInv.start hp h0 with ⟨e, hfull⟩ | ⟨p, s₁, τ₁, e, h₁, hc₁, hv₁⟩
  · rw [e]
    exact .inl ⟨rfl, .inr (by linarith)⟩
  rw [e]
  rcases h₁.kernelMaps hp.size with ⟨e', hfull⟩ | ⟨s₂, τ₂, e', h₂, hn, hused, hmap⟩
  · refine .inl ⟨?_, .inr ?_⟩
    · dsimp only
      rw [e']
    · have hcur : s.phys.g_bump_end + 4096 <
          s₁.phys.g_bump_cur + tablePages s.phys.phys_top * 4096 := hfull
      linarith
  refine .inr ⟨{ s₂ with phys := { s₂.phys with g_early_boot := false } }, τ₂, s₂.phys.g_bump_cur,
    ?_, ?_, h0, ⟨h₂.aligned, h₂.lo, h₂.hi, ?_⟩, hn.trans hv₁, h₂.root,
    fun t l ht => ?_, hmap⟩
  · dsimp only
    rw [e']
  · show { s₂.phys with g_early_boot := false } = _
    rw [h₂.phys]
  · have hused : s₂.phys.g_bump_cur + 4096 ≤
        s₁.phys.g_bump_cur + tablePages s.phys.phys_top * 4096 := hused
    omega
  · exact ⟨(h₂.typed t l ht).1, (h₂.pool t l ht).1, (h₂.pool t l ht).2.trans h₂.hi⟩

/-- The addresses that the allocator manages after the boot. -/
def managed (mm : MemoryMap) : Set ℕ := handedOver mm (ammEarlyPhysScan mm.entries .start)

/-- The tables of the low addresses, from the pieces of the identity map. -/
theorem kernelTables_of_mapsPiece {S : Set ℕ} (hframes : ∀ t l, τ t = some l → IsFrame t ∧ ∀ x ∈ blk t 0, x ∉ S)
    (hroot : τ s.g_kernel_cr3 = some .root)
    (hmap : ∀ j < 2048, MapsPiece s τ (j * 2^21) (j * 2^21 ||| 0x87)) :
    ∃ k3 k2, KernelTables S s.mem s.g_kernel_cr3 k3 k2 := by
  have h3 : ∀ j < 512, tableIdx 3 (j * 2^21) = 0 := fun j hj => by rw [tableIdx_eq]; omega
  have h2 : ∀ j < 512, tableIdx 2 (j * 2^21) = 0 := fun j hj => by rw [tableIdx_eq]; omega
  have h1 : ∀ j < 512, tableIdx 1 (j * 2^21) = j := fun j hj => by rw [tableIdx_eq]; omega
  obtain ⟨k3, k2, hl3, hl2, hw3, hw2, -⟩ := hmap 0 (by decide)
  rw [h3 0 (by decide)] at hw3
  rw [h2 0 (by decide)] at hw2
  refine ⟨k3, k2, ⟨?_, hw3, hw2, fun j hj => ?_⟩⟩
  · intro k hk
    simp only [mem_cons, not_mem_nil, or_false] at hk
    rcases hk with rfl | rfl | rfl
    · exact hframes _ _ hroot
    · exact hframes _ _ hl3
    · exact hframes _ _ hl2
  · -- All pieces of the first GiB lie in the same table.
    obtain ⟨k3', k2', -, -, hw3', hw2', he⟩ := hmap j (by omega)
    rw [h3 j hj, hw3] at hw3'
    cases hw3'
    rw [h2 j hj, hw2] at hw2'
    cases hw2'
    rw [h1 j hj] at he
    exact he

theorem managed_subset (mm : MemoryMap) : managed mm ⊆ {x | x ∉ (ammEarlyPhysScan mm.entries .start).pool} :=
  fun _ ⟨_, _, _, _, hnot⟩ => hnot

/-- The machine after a boot. The kernel's tables are in the pool. -/
theorem boot_spaceInv (mm : MemoryMap) {mem : Mem} (h : bootMachine mm.entries mem = some s) :
    SpaceInv (managed mm) s (fun _ => none) [] [] ∧
      s.phys.pool = (ammEarlyPhysScan mm.entries .start).pool ∧
      (∃ k3 k2, KernelTables {x | x ∉ s.phys.pool} s.mem s.g_kernel_cr3 k3 k2) ∧ s.g_vmap_next = 0 ∧
      ∃ cur, s.phys.boot = (bootPhys mm.entries cur).boot ∧
        (ammEarlyPhysScan mm.entries .start).g_bump_base ≠ 0 ∧ 4096 ∣ cur ∧
        (ammEarlyPhysScan mm.entries .start).g_bump_base ≤ cur ∧
        cur ≤ (ammEarlyPhysScan mm.entries .start).g_bump_end ∧
        cur ≤ (ammEarlyPhysScan mm.entries .start).g_bump_base +
          tablePages (ammEarlyPhysScan mm.entries .start).phys_top * 4096 := by
  have hp := poolBounds_ammEarlyPhysScan mm
  unfold bootMachine at h
  rcases ammKernelPml4Init_spec (s := ⟨mem, ammEarlyPhysScan mm.entries .start, 0, 0, 0⟩) hp with
    ⟨e, -⟩ | ⟨s', τ, cur, e, hphys, h0, hcur, hv, hroot, hpool, hmap⟩
  · rw [e] at h
    cases h
  rw [e] at h
  cases h
  have hboot : s'.phys = bootPhys mm.entries cur := hphys
  have hok : PoolOk (bootPhys mm.entries cur) := ⟨hp.base, hp.stop, hp.le, fun hz => absurd hz h0⟩
  have hafter : (ammPhysInit mm.entries s'.phys).boot = (bootPhys mm.entries cur).boot := by
    rw [hboot]
    exact boot_foldl_ammPhysInitEntry mm.entries (bootPhys mm.entries cur).clear
  have hsame : (ammPhysInit mm.entries s'.phys).pool = (ammEarlyPhysScan mm.entries .start).pool :=
    (pool_of_boot hafter).trans rfl
  refine ⟨⟨?_, congrArg Prod.fst hafter, ?_, by simp, fun t l ht => by simp at ht,
    fun t l ht => by simp at ht⟩, hsame, ?_, hv, cur, hafter, h0, hcur⟩
  · rintro a ⟨m, hm, ht, hin, -⟩
    exact hin.2.trans_le (mm.fits m hm ht)
  · show PhysInv (ammPhysInit mm.entries s'.phys) none [] (managed mm)
    rw [hboot]
    exact PhysInv.ammPhysInit mm hok (flags_bootPhys mm.entries cur)
  · rw [hsame]
    refine kernelTables_of_mapsPiece (s := s') (fun t l ht => ?_) hroot hmap
    obtain ⟨hf, hlo, hhi⟩ := hpool t l ht
    exact ⟨hf, fun x hx hS => hS ⟨hlo.trans hx.1, lt_of_lt_of_le hx.2 hhi⟩⟩

/-- The boot succeeds when the pool has room for the tables and the records. -/
theorem exists_bootMachine (mm : MemoryMap) (mem : Mem)
    (h0 : (ammEarlyPhysScan mm.entries .start).g_bump_base ≠ 0)
    (hroom : (ammEarlyPhysScan mm.entries .start).g_bump_base +
      tablePages (ammEarlyPhysScan mm.entries .start).phys_top * 4096 ≤
        (ammEarlyPhysScan mm.entries .start).g_bump_end) :
    ∃ s, bootMachine mm.entries mem = some s := by
  unfold bootMachine
  rcases ammKernelPml4Init_spec (s := ⟨mem, ammEarlyPhysScan mm.entries .start, 0, 0, 0⟩)
    (poolBounds_ammEarlyPhysScan mm) with ⟨-, h | h⟩ | ⟨s', τ, cur, e, -⟩
  · exact absurd h h0
  · exact absurd hroom (Nat.not_le_of_lt h)
  · rw [e]
    exact ⟨_, rfl⟩

/-! ## A machine with 128 MiB -/

/-- A machine with 128 MiB of free memory from 1 MiB on: the pool takes the first half. -/
def oneRegion : MemoryMap where
  entries := [⟨0x100000, 32768, .free⟩]
  aligned := by decide
  fits := by decide
  disjoint := by simp

theorem scan_oneRegion : (ammEarlyPhysScan oneRegion.entries .start).g_bump_base = 0x100000 ∧
    (ammEarlyPhysScan oneRegion.entries .start).g_bump_end = 0x4100000 ∧
    (ammEarlyPhysScan oneRegion.entries .start).phys_top = 0x8100000 := by
  decide

theorem managed_oneRegion : managed oneRegion = Set.Ico 0x4100000 0x8100000 := by
  obtain ⟨hbase, hstop, -⟩ := scan_oneRegion
  ext x
  unfold managed handedOver handed PhysState.pool
  rw [hbase, hstop]
  simp [oneRegion, AsdMmapEntry.mem_def, AsdMmapEntry.limit, pageSize]
  omega

/-- It boots, and 64 MiB are left. -/
theorem exists_boot_oneRegion (mem : Mem) : ∃ s, bootMachine oneRegion.entries mem = some s ∧
    s.phys.free_pages = 16384 := by
  obtain ⟨hbase, hstop, htop⟩ := scan_oneRegion
  have hroom : 0x100000 + tablePages 0x8100000 * 4096 ≤ 0x4100000 := by decide
  obtain ⟨s, hs⟩ := exists_bootMachine oneRegion mem (by rw [hbase]; decide)
    (by rw [hbase, hstop, htop]; exact hroom)
  refine ⟨s, hs, ?_⟩
  have hpages := (boot_spaceInv oneRegion hs).1.phys.pages_eq
  rw [managed_oneRegion] at hpages
  have hcard : (Set.Ico 0x4100000 0x8100000 : Set ℕ).ncard = 16384 * 4096 := by
    rw [← Finset.coe_Ico, Set.ncard_coe_finset, card_Ico]
  simp only [map_nil, append_nil, pageCount, sum_nil, pageSize] at hpages
  omega
end FreeAsd.Mm
