import FreeAsd.Mm.AddressSpace

/-!
# Creating address spaces

`amm_vmap_create` builds a root with the two tables below it and copies kernel entries into them. As
long as the kernel's own tables are as the boot made them (`KernelTables`), the new address space maps
nothing outside the kernel's window (`SpaceInv.ammVmapCreate`).
-/

namespace FreeAsd.Mm

open Paging List

/-! ## Copies of kernel entries -/

section

variable {m : Mem} {src dst j : ℕ} {is : List ℕ}

theorem copyEntries_of_notMem (his : ∀ i ∈ is, i < 512) {x : ℕ} (hx : x ∉ blk dst 0) :
    copyEntries src dst is m x = m x := by
  induction is generalizing m with
  | nil => rfl
  | cons i is ih =>
    rw [forall_mem_cons] at his
    rw [mem_page] at hx
    show copyEntries src dst is (setEntry m dst i (entry m src i)) x = m x
    rw [ih his.2, setEntry_of_notMem his.1 (by omega)]

theorem entry_copyEntries_of_ne {t : ℕ} (ht : 4096 ∣ t) (hd : 4096 ∣ dst) (hne : t ≠ dst)
    (his : ∀ i ∈ is, i < 512) (hj : j < 512) :
    entry (copyEntries src dst is m) t j = entry m t j := by
  obtain ⟨a, rfl⟩ := ht
  obtain ⟨b, rfl⟩ := hd
  exact entry_congr hj fun x hx hx' => copyEntries_of_notMem his (by rw [mem_page]; omega)

/-- The entries of the list are those of the source, the others are as before. -/
theorem entry_copyEntries (hs : 4096 ∣ src) (hd : 4096 ∣ dst) (hne : src ≠ dst)
    (his : ∀ i ∈ is, i < 512) (hj : j < 512) :
    entry (copyEntries src dst is m) dst j = if j ∈ is then entry m src j else entry m dst j := by
  induction is generalizing m with
  | nil => simp [copyEntries]
  | cons i is ih =>
    rw [forall_mem_cons] at his
    show entry (copyEntries src dst is (setEntry m dst i (entry m src i))) dst j = _
    rw [ih his.2, entry_setEntry_of_ne hd hs his.1 hj (.inl hne)]
    by_cases hji : j = i
    · subst hji
      rw [entry_setEntry_self Mem.rd_lt]
      simp
    · rw [entry_setEntry_of_ne hd hd his.1 hj (.inr hji)]
      simp [hji]

end

/-- The kernel's tables for the low addresses, as the boot builds them, in pages that the allocator
does not manage: `k4` is the root, `k3` is its first table and `k2` the first table of that. -/
structure KernelTables (S : Set ℕ) (m : Mem) (k4 k3 k2 : ℕ) : Prop where
  frames : ∀ k ∈ [k4, k3, k2], IsFrame k ∧ ∀ x ∈ blk k 0, x ∉ S
  root : walk m k4 [0] = some k3
  first : walk m k3 [0] = some k2
  identity : ∀ i < 512, entry m k2 i = identityEntry i

theorem KernelTables.congr {S : Set ℕ} {m m' : Mem} {k4 k3 k2 : ℕ} (h : KernelTables S m k4 k3 k2)
    (hm : ∀ x, x ∉ S → m' x = m x) : KernelTables S m' k4 k3 k2 := by
  have he : ∀ k ∈ [k4, k3, k2], ∀ i < 512, entry m' k i = entry m k i := fun k hk i hi =>
    entry_congr hi fun x hx hx' => hm x ((h.frames k hk).2 x ⟨hx, hx'⟩)
  have hw : ∀ k ∈ [k4, k3, k2], walk m' k [0] = walk m k [0] := fun k hk => by
    rw [walk, walk, he k hk 0 (by decide)]
    rfl
  exact ⟨h.frames, (hw k4 (by simp)).trans h.root, (hw k3 (by simp)).trans h.first,
    fun i hi => (he k2 (by simp) i hi).trans (h.identity i hi)⟩

theorem KernelTables.mono {S S' : Set ℕ} {m : Mem} {k4 k3 k2 : ℕ} (h : KernelTables S' m k4 k3 k2)
    (hS : S ⊆ S') : KernelTables S m k4 k3 k2 :=
  ⟨fun k hk => ⟨(h.frames k hk).1, fun x hx hs => (h.frames k hk).2 x hx (hS hs)⟩, h.root, h.first,
    h.identity⟩

/-- The low tables of a new address space, `r` the root and `q` and `d` the two tables below it, and
nothing else that differs between `m` and `m'`. -/
structure LowTables (m m' : Mem) (r q d : ℕ) : Prop where
  others : ∀ x, x ∉ blk r 0 → x ∉ blk q 0 → x ∉ blk d 0 → m' x = m x
  root : entry m' r 0 = q ||| pteTable
  root_rest : ∀ i, 0 < i → i < 256 → entry m' r i = 0
  first : entry m' q 0 = d ||| pteTable
  first_rest : ∀ i, 4 ≤ i → i < 512 → entry m' q i = 0
  low : ∀ i < 32, entry m' d i = 0
  identity : ∀ i, 32 ≤ i → i < 512 → entry m' d i = identityEntry i

/-- The end of `amm_vmap_create` on empty tables. -/
theorem lowTables_shareLow {S : Set ℕ} {m : Mem} {k4 k3 k2 r q d : ℕ}
    (hk : KernelTables S m k4 k3 k2) (hpages : ∀ p ∈ [r, q, d], IsFrame p ∧ p ∈ S)
    (hne : r ≠ q ∧ r ≠ d ∧ q ≠ d) (hr : ∀ i < 256, entry m r i = 0)
    (hq : ∀ i < 512, entry m q i = 0) (hd : ∀ i < 512, entry m d i = 0) :
    LowTables m (shareLow k4 r q d m) r q d := by
  obtain ⟨⟨fr, hrS⟩, ⟨fq, hqS⟩, ⟨fd, hdS⟩, -⟩ :=
    (forall_mem_cons.mp hpages).imp id fun h => (forall_mem_cons.mp h).imp id
      forall_mem_cons.mp
  obtain ⟨⟨f4, o4⟩, ⟨f3, o3⟩, ⟨f2, o2⟩, -⟩ :=
    (forall_mem_cons.mp hk.frames).imp id fun h => (forall_mem_cons.mp h).imp id
      forall_mem_cons.mp
  -- The kernel's tables are none of the new ones.
  have hkne : ∀ {k p : ℕ}, (∀ x ∈ blk k 0, x ∉ S) → p ∈ S → k ≠ p := fun ho hp e =>
    ho _ (Block.base_mem _) (e ▸ hp)
  have hlt : ∀ {p : ℕ}, IsFrame p → p ||| pteTable < 2^64 := fun {p} hp => by
    rw [or_flags hp (by decide), pteTable]
    have := hp.2
    omega
  have h13 : ∀ i ∈ [1, 2, 3], i < 512 := by decide
  have h32 : ∀ i ∈ List.range' 32 480, i < 512 := fun i hi => by
    rw [mem_range'_1] at hi
    omega
  -- The memory after each of the four writes.
  obtain ⟨m₁, hm₁⟩ : ∃ m₁, m₁ = setEntry m r 0 (q ||| pteTable) := ⟨_, rfl⟩
  obtain ⟨m₂, hm₂⟩ : ∃ m₂, m₂ = setEntry m₁ q 0 (d ||| pteTable) := ⟨_, rfl⟩
  obtain ⟨m₃, hm₃⟩ : ∃ m₃, m₃ = copyEntries k3 q [1, 2, 3] m₂ := ⟨_, rfl⟩
  obtain ⟨m₄, hm₄⟩ : ∃ m₄, m₄ = copyEntries k2 d (List.range' 32 480) m₃ := ⟨_, rfl⟩
  have hkernel : ∀ k, IsFrame k → (∀ x ∈ blk k 0, x ∉ S) → ∀ i < 512, entry m₂ k i = entry m k i ∧
      entry m₃ k i = entry m k i := by
    intro k fk ok i hi
    have e₂ : entry m₂ k i = entry m k i := by
      rw [hm₂, entry_setEntry_of_ne fq.1 fk.1 (by decide) hi (.inl (hkne ok hqS)), hm₁,
        entry_setEntry_of_ne fr.1 fk.1 (by decide) hi (.inl (hkne ok hrS))]
    exact ⟨e₂, by rw [hm₃, entry_copyEntries_of_ne fk.1 fq.1 (hkne ok hqS) h13 hi, e₂]⟩
  have hshare : shareLow k4 r q d m = m₄ := by
    obtain ⟨b4, e4⟩ := walk_singleton_eq_some.mp hk.root
    obtain ⟨b3, e3⟩ := walk_singleton_eq_some.mp hk.first
    unfold shareLow
    dsimp only
    rw [← hm₁, ← hm₂, (hkernel k4 f4 o4 0 (by decide)).1, if_pos b4, e4, ← hm₃,
      (hkernel k3 f3 o3 0 (by decide)).2, if_pos b3, e3, ← hm₄]
  rw [hshare]
  have hroot : ∀ i < 512, entry m₄ r i = entry m₁ r i := fun i hi => by
    rw [hm₄, entry_copyEntries_of_ne fr.1 fd.1 hne.2.1 h32 hi, hm₃,
      entry_copyEntries_of_ne fr.1 fq.1 hne.1 h13 hi, hm₂,
      entry_setEntry_of_ne fq.1 fr.1 (by decide) hi (.inl hne.1)]
  have hfirst : ∀ i < 512, entry m₄ q i = if i ∈ [1, 2, 3] then entry m₂ k3 i else entry m₂ q i :=
    fun i hi => by
      rw [hm₄, entry_copyEntries_of_ne fq.1 fd.1 hne.2.2 h32 hi, hm₃,
        entry_copyEntries f3.1 fq.1 (hkne o3 hqS) h13 hi]
  have hlow : ∀ i < 512, entry m₄ d i = if i ∈ List.range' 32 480 then identityEntry i else 0 :=
    fun i hi => by
      rw [hm₄, entry_copyEntries f2.1 fd.1 (hkne o2 hdS) h32 hi, (hkernel k2 f2 o2 i hi).2,
        hk.identity i hi, hm₃, entry_copyEntries_of_ne fd.1 fq.1 hne.2.2.symm h13 hi, hm₂,
        entry_setEntry_of_ne fq.1 fd.1 (by decide) hi (.inl hne.2.2.symm), hm₁,
        entry_setEntry_of_ne fr.1 fd.1 (by decide) hi (.inl hne.2.1.symm), hd i hi]
  refine ⟨fun x hxr hxq hxd => ?_, ?_, fun i h0 hi => ?_, ?_, fun i h4 hi => ?_, fun i hi => ?_,
    fun i h0 hi => ?_⟩
  · rw [hm₄, copyEntries_of_notMem h32 hxd, hm₃, copyEntries_of_notMem h13 hxq]
    rw [mem_page] at hxr hxq
    rw [hm₂, setEntry_of_notMem (by decide) (by omega), hm₁, setEntry_of_notMem (by decide) (by omega)]
  · rw [hroot 0 (by decide), hm₁, entry_setEntry_self (hlt fq)]
  · rw [hroot i (by omega), hm₁,
      entry_setEntry_of_ne fr.1 fr.1 (by decide) (by omega) (.inr (by omega)), hr i hi]
  · rw [hfirst 0 (by decide), if_neg (by decide), hm₂, entry_setEntry_self (hlt fd)]
  · have hnot : i ∉ [1, 2, 3] := by simp; omega
    rw [hfirst i hi, if_neg hnot, hm₂, entry_setEntry_of_ne fq.1 fq.1 (by decide) hi (.inr (by omega)), hm₁,
      entry_setEntry_of_ne fr.1 fq.1 (by decide) hi (.inl hne.1.symm), hq i hi]
  · rw [hlow i (by omega), if_neg (by rw [mem_range'_1]; omega)]
  · rw [hlow i hi, if_pos (by rw [mem_range'_1]; omega)]

/-! ## Creating -/

/-- The label of the first table below a root. -/
def Node.first (r : ℕ) : Node := (Node.root r).child r 0

/-- The label of the first table below that. -/
def Node.low2 (r q : ℕ) : Node := (Node.first r).child q 0

/-- The labels with a new address space. -/
def newLabels (τ : ℕ → Option Node) (r q d : ℕ) (x : ℕ) : Option Node :=
  if x = r then some (.root r) else if x = q then some (.first r)
  else if x = d then some (.low2 r q) else τ x

theorem nodeSlot_root (r i : ℕ) : nodeSlot (.root r) r i = if 256 ≤ i then .free
    else if i = 0 then .always (.first r) else .table ((Node.root r).child r i) := by
  unfold nodeSlot
  by_cases hi : 256 ≤ i
  · simp [hi]
  · by_cases h0 : i = 0
    · subst h0
      rfl
    · simp [hi, h0]

theorem nodeSlot_first (r q i : ℕ) : nodeSlot (.first r) q i = if 1 ≤ i ∧ i ≤ 3 then .free
    else if i = 0 then .always (.low2 r q) else .table ((Node.first r).child q i) := by
  unfold nodeSlot Node.first
  by_cases hi : 1 ≤ i ∧ i ≤ 3
  · simp [hi, Node.child, Node.root]
  by_cases h0 : i = 0
  · subst h0
    rfl
  · have hlow : ((Node.root r).child r 0).low = true := rfl
    simp [hi, h0, hlow]

theorem nodeSlot_low2 (r q d i : ℕ) : nodeSlot (.low2 r q) d i =
    if 32 ≤ i then .fixed (identityEntry i) else .table ((Node.low2 r q).child d i) := by
  have hlow : (Node.low2 r q).low = true := rfl
  have hlev : (Node.low2 r q).level = 2 := rfl
  unfold nodeSlot
  simp [hlow, hlev]

variable {S : Set ℕ} {s s' : Machine} {τ τ' : ℕ → Option Node} {pages pages' : List ℕ}
  {held held' : List Block} {m' : Mem} {r q d t va : ℕ} {l : Node}

theorem ne_of_apart {p q : ℕ} (h : (blk p 0).Apart (blk q 0)) : p ≠ q := by
  rintro rfl
  exact absurd (Block.base_mem _) (Block.apart_iff.mp h _ (Block.base_mem _))

theorem mem_three : ∀ p ∈ [r, q, d], blk p 0 ∈ blk r 0 :: blk q 0 :: blk d 0 :: held := by
  intro p hp
  simp only [mem_cons, not_mem_nil, or_false] at hp
  rcases hp with rfl | rfl | rfl <;> simp

theorem SpaceInv.three_ne (h : SpaceInv S s τ pages (blk r 0 :: blk q 0 :: blk d 0 :: held)) :
    r ≠ q ∧ r ≠ d ∧ q ≠ d := by
  have hap := h.held_apart
  simp only [pairwise_cons] at hap
  exact ⟨ne_of_apart (hap.1 _ (by simp)), ne_of_apart (hap.1 _ (by simp)), ne_of_apart (hap.2.1 _ (by simp))⟩

/-- Three held pages become an address space. -/
theorem SpaceInv.attachRoot (h : SpaceInv S s τ pages (blk r 0 :: blk q 0 :: blk d 0 :: held))
    (hm : LowTables s.mem s.mem r q d) :
    Grew S s τ held s (newLabels τ r q d) (r :: q :: d :: pages) held := by
  have hnr : τ r = none := h.label_eq_none (by simp)
  have hnq : τ q = none := h.label_eq_none (by simp)
  have hnd : τ d = none := h.label_eq_none (by simp)
  have hframe : ∀ p ∈ [r, q, d], IsFrame p := fun p hp =>
    h.isFrame (mem_append_right _ (mem_three p hp))
  obtain ⟨hrq, hrd, hqd⟩ := h.three_ne
  have hkeep : ∀ x n, τ x = some n → newLabels τ r q d x = some n := by
    intro x n hx
    have hne : ∀ p, τ p = none → x ≠ p := fun p hp e => by
      rw [e, hp] at hx
      cases hx
    rw [newLabels, if_neg (hne r hnr), if_neg (hne q hnq), if_neg (hne d hnd), hx]
  have hlr : newLabels τ r q d r = some (.root r) := if_pos rfl
  have hlq : newLabels τ r q d q = some (.first r) := by
    rw [newLabels, if_neg hrq.symm, if_pos rfl]
  have hld : newLabels τ r q d d = some (.low2 r q) := by
    rw [newLabels, if_neg hrd.symm, if_neg hqd.symm, if_pos rfl]
  have hcases : ∀ x n, newLabels τ r q d x = some n →
      (x = r ∧ n = .root r) ∨ (x = q ∧ n = .first r) ∨ (x = d ∧ n = .low2 r q) ∨ τ x = some n := by
    intro x n hx
    unfold newLabels at hx
    split_ifs at hx with h1 h2 h3
    · exact .inl ⟨h1, (Option.some.inj hx).symm⟩
    · exact .inr (.inl ⟨h2, (Option.some.inj hx).symm⟩)
    · exact .inr (.inr (.inl ⟨h3, (Option.some.inj hx).symm⟩))
    · exact .inr (.inr (.inr hx))
  have hptr : ∀ p ∈ [r, q, d], (p ||| pteTable) % 4096 = 7 ∧ frame (p ||| pteTable) = p :=
    fun p hp => ⟨or_flags_mod (hframe p hp) (by decide), frame_or_flags (hframe p hp) (by decide)⟩
  have hempty : ∀ k : Node, SlotOk (newLabels τ r q d) 0 (.table k) := fun k =>
    slotOk_of_not_testBit trivial rfl
  have htyped : Typed nodeSlot (newLabels τ r q d) s.mem := by
    intro x n hx
    rcases hcases x n hx with ⟨rfl, rfl⟩ | ⟨rfl, rfl⟩ | ⟨rfl, rfl⟩ | hx
    · refine ⟨hframe x (by simp), fun i hi => ?_⟩
      rw [nodeSlot_root]
      split_ifs with h256 h0
      · trivial
      · rw [h0, hm.root]
        exact ⟨(hptr q (by simp)).1, by rw [(hptr q (by simp)).2, hlq]⟩
      · rw [hm.root_rest i (by omega) (by omega)]
        exact hempty _
    · refine ⟨hframe x (by simp), fun i hi => ?_⟩
      rw [nodeSlot_first]
      split_ifs with h13 h0
      · trivial
      · rw [h0, hm.first]
        exact ⟨(hptr d (by simp)).1, by rw [(hptr d (by simp)).2, hld]⟩
      · rw [hm.first_rest i (by omega) hi]
        exact hempty _
    · refine ⟨hframe x (by simp), fun i hi => ?_⟩
      rw [nodeSlot_low2]
      split_ifs with h32
      · exact hm.identity i h32 hi
      · rw [hm.low i (by omega)]
        exact hempty _
    · exact ⟨(h.typed x n hx).1, fun i hi => ((h.typed x n hx).2 i hi).mono fun k hk => hkeep _ k hk⟩
  have hwalk : ∀ p ∈ [r, q, d], ∀ t, entry s.mem t 0 = p ||| pteTable → walk s.mem t [0] = some p := by
    intro p hp t he
    rw [walk_singleton_eq_some, he]
    exact ⟨testBit_of_mod (hptr p hp).1 (by decide), (hptr p hp).2⟩
  have hlinked : Linked (newLabels τ r q d) s.mem := by
    intro x n hx
    rcases hcases x n hx with ⟨rfl, rfl⟩ | ⟨rfl, rfl⟩ | ⟨rfl, rfl⟩ | hx
    · exact .inl rfl
    · exact .inr ⟨show 3 < 4 by decide, .root r, hlr, show 0 < 512 by decide,
        by rw [show (Node.first r).parent = r from rfl, show (Node.first r).index = 0 from rfl,
          nodeSlot_root]; rfl, hwalk x (by simp) r hm.root⟩
    · exact .inr ⟨show 2 < 4 by decide, .first r, hlq, show 0 < 512 by decide,
        by rw [show (Node.low2 r q).parent = q from rfl, show (Node.low2 r q).index = 0 from rfl,
          nodeSlot_first]; rfl, hwalk x (by simp) q hm.first⟩
    · exact (h.linked x n hx).imp_right fun ⟨hlev, k, hk, hrest⟩ => ⟨hlev, k, hkeep _ k hk, hrest⟩
  have hinv : SpaceInv S s (newLabels τ r q d) (r :: q :: d :: pages) held := by
    refine ⟨h.fits, h.late, h.phys.perm ?_, fun x => ?_, htyped, hlinked⟩
    · have hswap : (pages.map (blk · 0) ++ [blk r 0, blk q 0, blk d 0]).Perm
          ([blk r 0, blk q 0, blk d 0] ++ pages.map (blk · 0)) := perm_append_comm
      simpa using hswap.append_right held
    by_cases h1 : x = r
    · simp [h1, hlr]
    by_cases h2 : x = q
    · simp [h2, hlq]
    · by_cases h3 : x = d
      · simp [h3, hld]
      · rw [newLabels, if_neg h1, if_neg h2, if_neg h3, ← h.labelled x]
        simp [h1, h2, h3]
  exact .of_mem h.typed hinv hkeep (List.Subset.refl _) (fun _ _ _ _ _ => rfl) (fun _ _ _ _ => rfl)
    (fun _ _ => rfl) ⟨rfl, rfl, rfl⟩

/-- A new address space maps nothing outside the kernel's window. -/
theorem LowTables.pte_eq_none {m : Mem} (hm : LowTables m m' r q d) (hq : IsFrame q) (hd : IsFrame d)
    (hva : Clear va) : pte m' r va = none := by
  obtain ⟨h3, h2, h1, -⟩ := userPath_of_clear hva
  have hbit : ∀ p, IsFrame p → (p ||| pteTable).testBit 0 = true := fun p hp =>
    testBit_of_mod (or_flags_mod hp (by decide)) (by decide)
  have hzero : Nat.testBit 0 0 = false := rfl
  unfold pte userPath
  rw [lastEntry_cons]
  by_cases e3 : tableIdx 3 va = 0
  · rw [e3] at h2 h1 ⊢
    rw [hm.root, if_pos (hbit q hq), frame_or_flags hq (by decide), lastEntry_cons]
    by_cases e2 : tableIdx 2 va = 0
    · rw [e2] at h1 ⊢
      have hlow : tableIdx 1 va < 32 := by
        have := h1.2.2.2
        simp at this
        exact this
      rw [hm.first, if_pos (hbit d hd), frame_or_flags hd (by decide), lastEntry_cons, hm.low _ hlow, hzero]
      rfl
    · have hhigh : 4 ≤ tableIdx 2 va := by
        have := h2.2.2.1
        simp at this
        omega
      rw [hm.first_rest _ hhigh h2.1, hzero]
      rfl
  · have hhalf : tableIdx 3 va < 256 := by
      have := h3.2.1
      simp at this
      exact this
    rw [hm.root_rest _ (by omega) hhalf, hzero]
    rfl

/-- The entries of the identity map give user mode access to 2 MiB each. -/
theorem identityEntry_bits {i : ℕ} (hi : i < 512) : userPasses (identityEntry i) = true ∧
    (identityEntry i).testBit 1 = true ∧ (identityEntry i).testBit 7 = true ∧
    frame (identityEntry i) = i * 2^21 := by
  have hf : IsFrame (i * 2^21) := ⟨⟨i * 512, by ring⟩, by omega⟩
  have hmod : identityEntry i % 4096 = 0x87 := or_flags_mod hf (by decide)
  unfold userPasses
  rw [testBit_of_mod hmod (by decide), testBit_of_mod hmod (by decide),
    testBit_of_mod hmod (by decide), testBit_of_mod hmod (by decide)]
  exact ⟨by decide, by decide, by decide, frame_or_flags hf (by decide)⟩

/-- From 64 MiB to 1 GiB, user mode can read and write physical memory at its own address. -/
theorem LowTables.userWalk_eq {m : Mem} (hm : LowTables m m' r q d) (hr : IsFrame r)
    (hq : IsFrame q) (hd : IsFrame d) (hlo : 2^26 ≤ va) (hhi : va < 2^30) :
    userWalk m' r va = some (va, true) := by
  have e3 : tableIdx 3 va = 0 := by
    rw [tableIdx_eq]
    omega
  have e2 : tableIdx 2 va = 0 := by
    rw [tableIdx_eq]
    omega
  have e1 : tableIdx 1 va = va / 2^21 := by
    rw [tableIdx_eq]
    omega
  obtain ⟨hp, hw, hb, hf⟩ := identityEntry_bits (i := va / 2^21) (by omega)
  have hbits := fun p hp => bits_of_table (or_flags_mod (p := p) (f := pteTable) hp (by decide))
  unfold userWalk
  dsimp only
  rw [frame_of_isFrame hr, e3, hm.root, (hbits q hq).1, frame_or_flags hq (by decide), e2, hm.first,
    (hbits d hd).1, frame_or_flags hd (by decide), e1, hm.identity _ (by omega) (by omega)]
  simp only [hp, hb, hw, hf, (hbits q hq).2.1, (hbits d hd).2.1, Bool.not_true, Bool.false_eq_true,
    if_false, if_true, Bool.and_true, Option.some.injEq, Prod.mk.injEq, and_true]
  omega

/-- The invariant does not depend on the counters of the two pools. -/
theorem SpaceInv.counters (h : SpaceInv S s τ pages held) (a b : ℕ) :
    SpaceInv S { s with g_region_next := a, g_vmap_next := b } τ pages held :=
  { h with }

/-- `amm_vmap_create` fails if the pool has no record or memory for three pages is short. Otherwise the
new address space maps nothing outside the kernel's window, and inside it what the kernel's identity map
does. -/
theorem SpaceInv.ammVmapCreate (h : SpaceInv S s τ pages held) {k3 k2 : ℕ}
    (hk : KernelTables S s.mem s.g_kernel_cr3 k3 k2) :
    (∃ s' held', ammVmapCreate s = (none, s') ∧
      Grew S { s with g_vmap_next := s'.g_vmap_next } τ held s' τ pages held' ∧
      (maxVmaps ≤ s.g_vmap_next ∨ 0 ∈ S ∨ s.phys.free_pages ≤ 2)) ∨
    ∃ r s' τ' pages', ammVmapCreate s = (some ⟨[], r, 0⟩, s') ∧ s.g_vmap_next < maxVmaps ∧
      Grew S { s with g_vmap_next := s.g_vmap_next + 1 } τ held s' τ' pages' held ∧
      τ' r = some (.root r) ∧ r ≠ 0 ∧ (∀ va, Clear va → pte s'.mem r va = none) ∧
      (∀ va, 2^26 ≤ va → va < 2^30 → userWalk s'.mem r va = some (va, true)) ∧
      s.phys.free_pages = s'.phys.free_pages + 3 := by
  unfold Mm.ammVmapCreate
  split_ifs with hfull
  · exact .inl ⟨s, held, rfl, .of_eq h.typed h (List.Subset.refl _) rfl ⟨rfl, rfl, rfl⟩, .inl hfull⟩
  have h₀ : SpaceInv S { s with g_vmap_next := s.g_vmap_next + 1 } τ pages held := h.counters s.g_region_next _
  rcases h₀.takePage with ⟨s₁, held₁, e₁, hg₁, hz⟩ | ⟨r, s₁, e₁, hr0, hg₁, hzero, hf₁⟩
  · rw [e₁]
    refine .inl ⟨s₁, held₁, rfl, ?_, .inr (hz.imp_right fun h0 => ?_)⟩
    · rw [hg₁.vars.2.2]
      exact hg₁
    · have h0 : s.phys.free_pages = 0 := h0
      omega
  rw [e₁]
  dsimp only at hf₁ ⊢
  have hcr3 : s₁.g_kernel_cr3 = s.g_kernel_cr3 := hg₁.vars.1
  have hk₁ : KernelTables S s₁.mem s₁.g_kernel_cr3 k3 k2 := hcr3 ▸ hk.congr hg₁.rest
  have hfr : IsFrame r := hg₁.inv.isFrame (mem_append_right _ (mem_cons_self ..))
  have hrS : r ∈ S := hg₁.inv.mem_ram (mem_append_right _ (mem_cons_self ..)) (Block.base_mem _)
  have hkr : s₁.g_kernel_cr3 ≠ r := fun e =>
    (hk₁.frames s₁.g_kernel_cr3 (by simp)).2 _ (Block.base_mem (blk _ 0)) (by
      rw [blk_base, e]
      exact hrS)
  have h256 : ∀ i ∈ List.range' 256 256, i < 512 := fun i hi => by
    rw [mem_range'_1] at hi
    omega
  -- The copy of the kernel's upper half stays inside the new root.
  obtain ⟨m₂, hm₂⟩ : ∃ m₂, m₂ = copyEntries s₁.g_kernel_cr3 r (List.range' 256 256) s₁.mem := ⟨_, rfl⟩
  have hsame : ∀ x, (∀ b ∈ [blk r 0], x ∉ b) → m₂ x = s₁.mem x := fun x hx => by
    rw [hm₂, copyEntries_of_notMem h256 (hx _ (mem_singleton_self _))]
  have hg₂ := hg₁.inv.scratch [blk r 0] hsame
  have hroot : ∀ i < 256, entry m₂ r i = 0 := fun i hi => by
    rw [hm₂, entry_copyEntries (hk₁.frames _ (by simp)).1.1 hfr.1 hkr h256 (by omega),
      if_neg (by rw [mem_range'_1]; omega), hzero i (by omega)]
  rw [← hm₂]
  obtain ⟨q, ph₃, held₃, e₃, hg₃, hq⟩ := hg₂.inv.allocPage
  rw [e₃]
  obtain ⟨d, ph₄, held₄, e₄, hg₄, hd⟩ := hg₃.inv.allocPage
  rw [e₄]
  have hg : Grew S { s with g_vmap_next := s.g_vmap_next + 1 } τ held
      { s₁ with mem := m₂, phys := ph₄ } τ pages held₄ :=
    ((hg₁.trans hg₂ (List.Subset.refl _)).trans hg₃ (subset_cons_self _ _)).trans hg₄
      fun b hb => hg₃.sub (mem_cons_of_mem _ hb)
  split_ifs with hfail
  · refine .inl ⟨_, held₄, rfl, ?_, .inr ?_⟩
    · have hv : s₁.g_vmap_next = s.g_vmap_next + 1 := hg₁.vars.2.2
      rw [← hv] at hg
      exact hg
    rcases hq with ⟨-, hz⟩ | ⟨hq0, -, hf₃⟩
    · exact hz.imp_right fun h0 => by
        have h0 : s₁.phys.free_pages = 0 := h0
        omega
    · rcases hd with ⟨-, hz⟩ | ⟨hd0, -, -⟩
      · exact hz.imp_right fun h0 => by
          have h0 : ph₃.free_pages = 0 := h0
          have hf₃ : s₁.phys.free_pages = ph₃.free_pages + 1 := hf₃
          omega
      · exact absurd hfail (not_or.mpr ⟨hq0, hd0⟩)
  · -- Both tables are there.
    rw [not_or] at hfail
    obtain ⟨-, rfl, hf₃⟩ := hq.resolve_left fun h0 => hfail.1 h0.1
    obtain ⟨-, rfl, hf₄⟩ := hd.resolve_left fun h0 => hfail.2 h0.1
    have hinv : SpaceInv S { s₁ with mem := m₂, phys := ph₄ } τ pages
        (blk r 0 :: blk q 0 :: blk d 0 :: held) :=
      hg₄.inv.perm ((reverse_perm [blk d 0, blk q 0, blk r 0]).symm.append_right held)
    have hfq : IsFrame q := hinv.isFrame (mem_append_right _ (by simp))
    have hfd : IsFrame d := hinv.isFrame (mem_append_right _ (by simp))
    obtain ⟨hrq, hrd, hqd⟩ := hinv.three_ne
    have hpages : ∀ p ∈ [r, q, d], IsFrame p ∧ p ∈ S := fun p hp =>
      have hmem := mem_append_right (pages.map (blk · 0)) (mem_three p hp)
      ⟨hinv.isFrame hmem, hinv.mem_ram hmem (Block.base_mem _)⟩
    have hcleared : ∀ x, x ∉ blk q 0 → x ∉ blk d 0 →
        clearPage (clearPage m₂ q) d x = m₂ x := fun x hxq hxd => by
      rw [mem_page] at hxq hxd
      rw [clearPage_of_notMem (by omega), clearPage_of_notMem (by omega)]
    have hk₄ : KernelTables S (clearPage (clearPage m₂ q) d) s₁.g_kernel_cr3 k3 k2 := by
      refine (hk₁.congr hg₂.rest).congr fun x hx => hcleared x (fun hxq => hx ?_) fun hxd => hx ?_
      · exact hinv.mem_ram (mem_append_right _ (b := blk q 0) (by simp)) hxq
      · exact hinv.mem_ram (mem_append_right _ (b := blk d 0) (by simp)) hxd
    have hlow := lowTables_shareLow hk₄ hpages ⟨hrq, hrd, hqd⟩
      (fun i hi => by
        rw [entry_clearPage_of_ne hfr.1 hfd.1 (by omega) hrd,
          entry_clearPage_of_ne hfr.1 hfq.1 (by omega) hrq, hroot i hi])
      (fun i hi => by
        rw [entry_clearPage_of_ne hfq.1 hfd.1 hi hqd, entry_clearPage_self hi])
      (fun i hi => entry_clearPage_self hi)
    have hg₅ := hinv.scratch [blk r 0, blk q 0, blk d 0] fun x hx =>
      (hlow.others x (hx _ (by simp)) (hx _ (by simp)) (hx _ (by simp))).trans
        (hcleared x (hx _ (by simp)) (hx _ (by simp)))
    have hlow' : LowTables _ (shareLow s₁.g_kernel_cr3 r q d (clearPage (clearPage m₂ q) d)) r q d :=
      ⟨fun _ _ _ _ => rfl, hlow.root, hlow.root_rest, hlow.first, hlow.first_rest, hlow.low,
        hlow.identity⟩
    refine .inr ⟨r, _, _, _, rfl, Nat.lt_of_not_le hfull, (hg.trans hg₅ fun b hb => by simp [hb]).trans
      (hg₅.inv.attachRoot hlow') (List.Subset.refl _), if_pos rfl, hr0,
      fun va hva => hlow'.pte_eq_none hfq hfd hva,
      fun va hlo hhi => hlow'.userWalk_eq hfr hfq hfd hlo hhi, ?_⟩
    have hf₃ : s₁.phys.free_pages = ph₃.free_pages + 1 := hf₃
    have hf₄ : ph₃.free_pages = ph₄.free_pages + 1 := hf₄
    show s.phys.free_pages = ph₄.free_pages + 3
    omega

end FreeAsd.Mm
