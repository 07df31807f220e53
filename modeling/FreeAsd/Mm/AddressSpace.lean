import FreeAsd.Mm.Machine
import FreeAsd.Mm.PhysRuns

/-!
# The invariant of address spaces

Every page of an address space has a label (`Node`): its root, its level, and the table and index through
which it is reached. `nodeSlot` says what its entries are, so no page is reached in two ways. `SpaceInv` ties
this to the allocator. Outside the kernel's window (`Clear`) an address space is a partial function, `pte`.
-/

namespace FreeAsd.Mm

open Paging List

/-! ## Labels -/

/-- The place of a page in the tables of an address space. -/
structure Node where
  /-- The root. -/
  owner : ℕ
  /-- 4 for a root, 1 for a last table, 0 for a page of data. -/
  level : ℕ
  /-- Whether all indices on the way from the root are 0. -/
  low : Bool
  /-- The table with the entry for the page. -/
  parent : ℕ
  /-- The index of the entry. -/
  index : ℕ
deriving DecidableEq

/-- The label of a root. -/
def Node.root (r : ℕ) : Node := ⟨r, 4, true, 0, 0⟩

/-- The label of the page that entry `i` of the table at `t` leads to. -/
def Node.child (l : Node) (t i : ℕ) : Node := ⟨l.owner, l.level - 1, l.low && i == 0, t, i⟩

@[simp] theorem Node.root_level (r : ℕ) : (Node.root r).level = 4 := rfl

@[simp] theorem Node.child_level (l : Node) (t i : ℕ) : (l.child t i).level = l.level - 1 := rfl

/-- The entry of the identity map for the 2 MiB with index `i`. -/
def identityEntry (i : ℕ) : ℕ := i * 2^21 ||| 0x87

/-- What entry `i` of a table with label `l` at `t` is. -/
def nodeSlot (l : Node) (t i : ℕ) : Slot Node :=
  if l.level = 0 then .free
  else if l.level = 1 then .page (l.child t i)
  else if l.level = 4 ∧ 256 ≤ i then .free
  else if l.low ∧ l.level = 3 ∧ 1 ≤ i ∧ i ≤ 3 then .free
  else if l.low ∧ l.level = 2 ∧ 32 ≤ i then .fixed (identityEntry i)
  else if l.low ∧ 3 ≤ l.level ∧ i = 0 then .always (l.child t i)
  else .table (l.child t i)

/-- Entry `i` of a table of the given level is not one of the kernel's. -/
def UserIndex (level : ℕ) (low : Bool) (i : ℕ) : Prop :=
  i < 512 ∧ ¬(level = 4 ∧ 256 ≤ i) ∧ ¬(low ∧ level = 3 ∧ 1 ≤ i ∧ i ≤ 3) ∧
    ¬(low ∧ level = 2 ∧ 32 ≤ i)

theorem nodeSlot_child {l : Node} {t i : ℕ} (hl : l.level ≠ 0) (hi : UserIndex l.level l.low i) :
    (nodeSlot l t i).child = some (l.child t i) := by
  unfold nodeSlot
  rw [if_neg hl, if_neg hi.2.1, if_neg hi.2.2.1, if_neg hi.2.2.2]
  split_ifs <;> rfl

/-! ## Addresses -/

/-- An address that a user may map: below the upper half, and not between 64 MiB and 4 GiB, where the
kernel's identity map is. -/
def Clear (va : ℕ) : Prop := va < 2^47 ∧ (va < 2^26 ∨ identityLimit ≤ va)

instance (va : ℕ) : Decidable (Clear va) := inferInstanceAs (Decidable (_ ∧ _))

/-- The indices from a root to the last table. -/
def userPath (va : ℕ) : List ℕ := [tableIdx 3 va, tableIdx 2 va, tableIdx 1 va]

/-- A list of indices that stays clear of the kernel's entries. -/
def IsUserPath (level : ℕ) (low : Bool) : List ℕ → Prop
  | [] => True
  | i :: is => UserIndex level low i ∧ IsUserPath (level - 1) (low && i == 0) is

theorem userPath_of_clear {va : ℕ} (h : Clear va) : IsUserPath 4 true (userPath va) := by
  obtain ⟨hlt, hwin⟩ := h
  have e3 := tableIdx_eq 3 va
  have e2 := tableIdx_eq 2 va
  have e1 := tableIdx_eq 1 va
  simp only [Nat.reduceMul, Nat.reduceAdd, Nat.reducePow, identityLimit] at *
  simp only [IsUserPath, userPath, UserIndex, Bool.true_and, Bool.and_eq_true, beq_iff_eq, and_true, true_and]
  omega

/-! ## Walks through labelled tables -/

section

variable {τ : ℕ → Option Node} {m m' : Mem} {t i r va : ℕ} {l : Node} {is : List ℕ}

/-- The entry for an address in the last table, if it is present. -/
def presentEntry (m : Mem) (t i : ℕ) : Option ℕ :=
  if (entry m t i).testBit 0 then some (entry m t i) else none

/-- The last entry on the way from a table. -/
def lastEntry (m : Mem) (t : ℕ) (is : List ℕ) (i : ℕ) : Option ℕ :=
  (walk m t is).bind (presentEntry m · i)

/-- The entry that maps an address in the address space with root `r`. -/
def pte (m : Mem) (r va : ℕ) : Option ℕ := lastEntry m r (userPath va) (tableIdx 0 va)

theorem lastEntry_cons (j : ℕ) : lastEntry m t (j :: is) i =
    if (entry m t j).testBit 0 then lastEntry m (frame (entry m t j)) is i else none := by
  unfold lastEntry
  rw [walk]
  split_ifs <;> rfl

/-- From an empty table nothing is reached. -/
theorem lastEntry_of_zero (h0 : ∀ j < 512, entry m t j = 0) (hi : i < 512)
    (his : ∀ j ∈ is, j < 512) : lastEntry m t is i = none := by
  cases is with
  | nil => simp [lastEntry, walk, presentEntry, h0 i hi]
  | cons j is =>
    rw [lastEntry_cons, h0 j (his j (by simp))]
    rfl

theorem IsUserPath.lt {level : ℕ} {low : Bool} (h : IsUserPath level low is) : ∀ j ∈ is, j < 512 := by
  induction is generalizing level low with
  | nil => simp
  | cons i is ih => exact forall_mem_cons.mpr ⟨h.1.1, ih h.2⟩

/-- New empty tables are not seen. -/
theorem lastEntry_congr (h : Typed nodeSlot τ m)
    (hm : ∀ t l, τ t = some l → l.level ≠ 0 → ∀ j < 512, entry m' t j = entry m t j ∨
      2 ≤ l.level ∧ (entry m t j).testBit 0 = false ∧
        ∀ k < 512, entry m' (frame (entry m' t j)) k = 0)
    (ht : τ t = some l) (hp : IsUserPath l.level l.low is) (hlen : is.length + 1 = l.level)
    (hi : i < 512) : lastEntry m' t is i = lastEntry m t is i := by
  induction is generalizing t l with
  | nil =>
    have hlev : l.level = 1 := hlen.symm
    rcases hm t l ht (by omega) i hi with e | ⟨h2, -⟩
    · simp only [lastEntry, walk, Option.bind_some, presentEntry, e]
    · omega
  | cons j is ih =>
    rw [length_cons] at hlen
    rw [lastEntry_cons, lastEntry_cons]
    rcases hm t l ht (by omega) j hp.1.1 with e | ⟨-, habs, hzero⟩
    · rw [e]
      split_ifs with he
      · have hc := h.child ht hp.1.1 (nodeSlot_child (by omega) hp.1) he
        have hlev := l.child_level t j
        exact ih hc hp.2 (by omega)
      · rfl
    · rw [habs, lastEntry_of_zero hzero hi hp.2.lt]
      simp

end

/-! ## The invariant -/

/-- Every labelled page is a root or the page that the entry in its label leads to. -/
def Linked (τ : ℕ → Option Node) (m : Mem) : Prop :=
  ∀ t l, τ t = some l → l = .root t ∨ l.level < 4 ∧ ∃ k, τ l.parent = some k ∧ l.index < 512 ∧
    (nodeSlot k l.parent l.index).child = some l ∧ walk m l.parent [l.index] = some t

/-- What holds of the machine once the boot is over: the labelled pages and the blocks that others
hold are the outstanding allocations, and the labelled pages are tables and pages of data as their
labels say. `S` is the memory that the allocator manages. -/
structure SpaceInv (S : Set ℕ) (s : Machine) (τ : ℕ → Option Node) (pages : List ℕ)
    (held : List Block) : Prop where
  fits : ∀ a ∈ S, a < 2^52
  late : s.phys.g_early_boot = false
  phys : PhysInv s.phys none (pages.map (blk · 0) ++ held) S
  labelled : ∀ p, p ∈ pages ↔ (τ p).isSome
  typed : Typed nodeSlot τ s.mem
  linked : Linked τ s.mem

theorem mem_page {a p : ℕ} : a ∈ blk p 0 ↔ p ≤ a ∧ a < p + 4096 := Iff.rfl

variable {S : Set ℕ} {s : Machine} {τ : ℕ → Option Node} {pages : List ℕ} {held : List Block}
  {m' : Mem} {p t i v : ℕ} {l k : Node} {b : Block}

namespace SpaceInv

variable (h : SpaceInv S s τ pages held)

include h

/-- Outstanding blocks are memory. -/
theorem mem_ram (hb : b ∈ pages.map (blk · 0) ++ held) {a : ℕ} (ha : a ∈ b) : a ∈ S :=
  (h.phys.tiles.cover a).mpr ⟨b, mem_append_right _ (mem_append_right _ hb), ha⟩

theorem isFrame (hp : blk p 0 ∈ pages.map (blk · 0) ++ held) : IsFrame p := by
  have hal : (blk p 0).Aligned := (h.phys.aligned _ (mem_append_right _ (mem_append_right _ hp))).1
  exact ⟨hal, h.fits _ (h.mem_ram hp (Block.base_mem _))⟩

/-- What others hold is apart from the labelled pages. -/
theorem apart (ht : τ t = some l) (hb : b ∈ held) : (blk t 0).Apart b := by
  have hall := (pairwise_append.mp h.phys.tiles.apart).2.1
  have hlive := (pairwise_append.mp hall).2.1
  exact (pairwise_append.mp hlive).2.2 _ (mem_map_of_mem ((h.labelled t).mpr (by rw [ht]; rfl))) b hb

theorem label_eq_none (hp : blk p 0 ∈ held) : τ p = none := by
  cases hl : τ p with
  | none => rfl
  | some l =>
    exact absurd (Block.base_mem _) (Block.apart_iff.mp (h.apart hl hp) _ (Block.base_mem _))

/-- Only the tables matter. -/
theorem congr (hm : ∀ t l, τ t = some l → l.level ≠ 0 → ∀ x ∈ blk t 0, m' x = s.mem x) :
    SpaceInv S { s with mem := m' } τ pages held := by
  refine ⟨h.fits, h.late, h.phys, h.labelled, h.typed.congr fun t l ht => ?_, fun t l ht => ?_⟩
  · by_cases hl : l.level = 0
    · exact .inl fun i _ => by rw [nodeSlot, if_pos hl]
    · exact .inr fun x hx hx' => hm t l ht hl x ⟨hx, hx'⟩
  · refine (h.linked t l ht).imp_right fun ⟨hlev, k, hk, hi, hc, hw⟩ => ⟨hlev, k, hk, hi, hc, ?_⟩
    have hk0 : k.level ≠ 0 := fun h0 => by
      rw [nodeSlot, if_pos h0] at hc
      cases hc
    have he : entry m' l.parent l.index = entry s.mem l.parent l.index :=
      entry_congr hi fun x hx hx' => hm _ k hk hk0 x ⟨hx, hx'⟩
    rw [walk_singleton_eq_some] at hw ⊢
    rwa [he]

end SpaceInv

/-- The processor goes through an entry for a table, with the right to write. -/
theorem bits_of_table {e : ℕ} (h : e % 4096 = 7) :
    userPasses e = true ∧ e.testBit 1 = true ∧ e.testBit 7 = false := by
  unfold userPasses
  rw [testBit_of_mod h (by decide), testBit_of_mod h (by decide), testBit_of_mod h (by decide),
    testBit_of_mod h (by decide)]
  decide

/-! ## Steps that add -/

/-- The step from `s` to `s'` only adds: it keeps the invariant, the labels and the present entries, the
contents of data pages and of blocks held outside, memory that the allocator does not manage, and the
other variables, and no address is mapped in another way. -/
structure Grew (S : Set ℕ) (s : Machine) (τ : ℕ → Option Node) (held : List Block) (s' : Machine)
    (τ' : ℕ → Option Node) (pages' : List ℕ) (held' : List Block) : Prop where
  inv : SpaceInv S s' τ' pages' held'
  sub : held ⊆ held'
  data : ∀ t l, τ t = some l → l.level = 0 → ∀ x ∈ blk t 0, s'.mem x = s.mem x
  others : ∀ b ∈ held, ∀ x ∈ b, s'.mem x = s.mem x
  rest : ∀ x, x ∉ S → s'.mem x = s.mem x
  vars : s'.g_kernel_cr3 = s.g_kernel_cr3 ∧ s'.g_region_next = s.g_region_next ∧
    s'.g_vmap_next = s.g_vmap_next
  labels : ∀ t l, τ t = some l → τ' t = some l
  entries : ∀ t l, τ t = some l → ∀ i < 512, (entry s.mem t i).testBit 0 = true →
    entry s'.mem t i = entry s.mem t i
  ptes : ∀ r va, τ r = some (.root r) → Clear va → pte s'.mem r va = pte s.mem r va

variable {s' s'' : Machine} {τ' τ'' : ℕ → Option Node} {pages' pages'' : List ℕ}
  {held' held'' : List Block}

/-- Steps that only add follow each other, even if the first leaves more blocks outside. -/
theorem Grew.trans {held₁ : List Block} (h : Grew S s τ held s' τ' pages' held')
    (h' : Grew S s' τ' held₁ s'' τ'' pages'' held'') (hsub : held ⊆ held₁) :
    Grew S s τ held s'' τ'' pages'' held'' where
  inv := h'.inv
  sub _ hb := h'.sub (hsub hb)
  data t l ht hl x hx := (h'.data t l (h.labels t l ht) hl x hx).trans (h.data t l ht hl x hx)
  others b hb x hx := (h'.others b (hsub hb) x hx).trans (h.others b hb x hx)
  rest x hx := (h'.rest x hx).trans (h.rest x hx)
  vars := ⟨h'.vars.1.trans h.vars.1, h'.vars.2.1.trans h.vars.2.1, h'.vars.2.2.trans h.vars.2.2⟩
  labels t l ht := h'.labels t l (h.labels t l ht)
  entries t l ht i hi he := by
    have e := h.entries t l ht i hi he
    rw [h'.entries t l (h.labels t l ht) i hi (by rw [e]; exact he), e]
  ptes r va hr hva := (h'.ptes r va (h.labels r _ hr) hva).trans (h.ptes r va hr hva)

/-- A step that changes no byte of a labelled page or a held block only adds. -/
theorem Grew.of_mem (h : Typed nodeSlot τ s.mem) (h' : SpaceInv S s' τ' pages' held')
    (hlabels : ∀ t l, τ t = some l → τ' t = some l) (hsub : held ⊆ held')
    (hm : ∀ t l, τ t = some l → ∀ x ∈ blk t 0, s'.mem x = s.mem x)
    (hh : ∀ b ∈ held, ∀ x ∈ b, s'.mem x = s.mem x) (hr : ∀ x, x ∉ S → s'.mem x = s.mem x)
    (hv : s'.g_kernel_cr3 = s.g_kernel_cr3 ∧ s'.g_region_next = s.g_region_next ∧
      s'.g_vmap_next = s.g_vmap_next) : Grew S s τ held s' τ' pages' held' where
  inv := h'
  sub := hsub
  data t l ht _ := hm t l ht
  others := hh
  rest := hr
  vars := hv
  labels := hlabels
  entries t l ht _ hi _ := entry_congr hi fun x hx hx' => hm t l ht x ⟨hx, hx'⟩
  ptes _ va hr hva := lastEntry_congr h
    (fun t l ht _ _ hj => .inl (entry_congr hj fun x hx hx' => hm t l ht x ⟨hx, hx'⟩)) hr
    (userPath_of_clear hva) rfl (tableIdx_lt 0 va)

/-- A step that leaves memory and the variables alone only adds. -/
theorem Grew.of_eq (h : Typed nodeSlot τ s.mem) (h' : SpaceInv S s' τ pages held') (hsub : held ⊆ held')
    (hmem : s'.mem = s.mem) (hv : s'.g_kernel_cr3 = s.g_kernel_cr3 ∧
      s'.g_region_next = s.g_region_next ∧ s'.g_vmap_next = s.g_vmap_next) :
    Grew S s τ held s' τ pages held' := by
  have hsame : ∀ x, s'.mem x = s.mem x := congrFun hmem
  exact .of_mem h h' (fun _ _ ht => ht) hsub (fun _ _ _ x _ => hsame x) (fun _ _ x _ => hsame x)
    (fun x _ => hsame x) hv

/-! ## Taking a page -/

/-- `amm_phys_alloc(0)` fails only if no page is free, or if page 0 is one of them. -/
theorem SpaceInv.allocPage (h : SpaceInv S s τ pages held) :
    ∃ p ph held', Mm.allocPage s = (p, { s with phys := ph }) ∧
      Grew S s τ held { s with phys := ph } τ pages held' ∧
      (p = 0 ∧ (0 ∈ S ∨ s.phys.free_pages = 0) ∨
        p ≠ 0 ∧ held' = blk p 0 :: held ∧ s.phys.free_pages = ph.free_pages + 1) := by
  have hboot := boot_ammPhysAlloc 0 h.late
  have hzero := fun h0 hf => h.phys.ammPhysAlloc_ne_zero h0 h.late hf
  unfold Mm.allocPage
  rcases h.phys.ammPhysAlloc 0 h.late with e | hinv
  · rw [e] at hzero ⊢
    exact ⟨0, s.phys, held, rfl, .of_eq h.typed h (List.Subset.refl _) rfl ⟨rfl, rfl, rfl⟩,
      .inl ⟨rfl, by tauto⟩⟩
  generalize ammPhysAlloc 0 s.phys = r at hboot hzero hinv ⊢
  obtain ⟨p, ph⟩ := r
  dsimp only at hinv ⊢
  have hlate : ph.g_early_boot = false := (congrArg Prod.fst hboot).trans h.late
  have hmid : (pages.map (blk · 0) ++ blk p 0 :: held).Perm (blk p 0 :: (pages.map (blk · 0) ++ held)) :=
    perm_middle
  refine ⟨p, ph, blk p 0 :: held, rfl, .of_eq h.typed ⟨h.fits, hlate, hinv.perm hmid.symm, h.labelled,
    h.typed, h.linked⟩ (subset_cons_self _ _) rfl ⟨rfl, rfl, rfl⟩, ?_⟩
  by_cases hp : p = 0
  · exact .inl ⟨hp, by tauto⟩
  refine .inr ⟨hp, rfl, ?_⟩
  have e := h.phys.pages_eq.trans hinv.pages_eq.symm
  have hone : 2^((blk p 0).order - pageShift) = 1 := rfl
  rw [pageCount_cons, pageSize, hone] at e
  omega

/-- Blocks that are held are different. -/
theorem SpaceInv.held_apart (h : SpaceInv S s τ pages held) : held.Pairwise Block.Apart :=
  (pairwise_append.mp
    (pairwise_append.mp (pairwise_append.mp h.phys.tiles.apart).2.1).2.1).2.1

/-- What is held outside may be written. -/
theorem SpaceInv.scratch (bs : List Block) (h : SpaceInv S s τ pages (bs ++ held)) {m' : Mem}
    (hm : ∀ x, (∀ b ∈ bs, x ∉ b) → m' x = s.mem x) :
    Grew S s τ held { s with mem := m' } τ pages (bs ++ held) := by
  have hlab : ∀ t l, τ t = some l → ∀ x ∈ blk t 0, m' x = s.mem x := fun t l ht x hx =>
    hm x fun b hb => Block.apart_iff.mp (h.apart ht (mem_append_left _ hb)) x hx
  have hheld : ∀ c ∈ held, ∀ x ∈ c, m' x = s.mem x := fun c hc x hx => hm x fun b hb hxb =>
    Block.apart_iff.mp ((pairwise_append.mp h.held_apart).2.2 b hb c hc) x hxb hx
  have hram : ∀ x, x ∉ S → m' x = s.mem x := fun x hx => hm x fun b hb hxb =>
    hx (h.mem_ram (mem_append_right _ (mem_append_left _ hb)) hxb)
  exact .of_mem h.typed (h.congr fun t l ht _ => hlab t l ht) (fun _ _ ht => ht)
    (subset_append_right _ _) hlab hheld hram ⟨rfl, rfl, rfl⟩

/-- Taking a page: as `amm_phys_alloc`, and the page is empty. -/
theorem SpaceInv.takePage (h : SpaceInv S s τ pages held) :
    (∃ s' held', Mm.takePage s = (none, s') ∧ Grew S s τ held s' τ pages held' ∧
      (0 ∈ S ∨ s.phys.free_pages = 0)) ∨
    ∃ p s', Mm.takePage s = (some p, s') ∧ p ≠ 0 ∧ Grew S s τ held s' τ pages (blk p 0 :: held) ∧
      (∀ j < 512, entry s'.mem p j = 0) ∧ s.phys.free_pages = s'.phys.free_pages + 1 := by
  unfold Mm.takePage
  obtain ⟨p, ph, held', e, hg, ⟨rfl, hz⟩ | ⟨hp, rfl, hf⟩⟩ := h.allocPage
  · rw [e]
    exact .inl ⟨_, held', rfl, hg, hz⟩
  rw [e]
  have hclear : ∀ x, (∀ b ∈ [blk p 0], x ∉ b) → clearPage s.mem p x = s.mem x := fun x hx => by
    have hx := hx _ (mem_singleton_self _)
    rw [mem_page] at hx
    exact clearPage_of_notMem (by omega)
  refine .inr ⟨p, { s with mem := clearPage s.mem p, phys := ph }, ?_, hp,
    hg.trans (hg.inv.scratch [_] hclear) (List.Subset.refl _),
    fun j hj => entry_clearPage_self hj, hf⟩
  cases p with
  | zero => exact absurd rfl hp
  | succ p => rfl

theorem SpaceInv.perm (h : SpaceInv S s τ pages held) (hp : held.Perm held') : SpaceInv S s τ pages held' :=
  { h with phys := h.phys.perm (hp.append_left _) }

end FreeAsd.Mm
