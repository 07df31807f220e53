import FreeAsd.Lib.LinkedList
import FreeAsd.Lib.Runs
import FreeAsd.Mm.Machine

/-!
# The regions of an address space

`amm_region_add`, `amm_region_remove` and `amm_region_find` on records of a pool that are linked in both
directions (`RegionPool.regions`). The loops stop early because the list is `Sorted`, and the links follow the
list (`RegionPool.Inv.add`, `RegionPool.Inv.remove`).
-/

namespace FreeAsd.Mm

open List

/-! ## Sorted lists -/

/-- Regions that are not empty and do not wrap, each before the next. -/
structure Sorted (rs : List Region) : Prop where
  apart : rs.Pairwise fun r r' => r.base + r.size ≤ r'.base
  proper : ∀ r ∈ rs, 0 < r.size ∧ r.base + r.size < 2^64

/-- The range from `base` to `stop` meets no region. -/
def Avoids (base stop : ℕ) (rs : List Region) : Prop :=
  ∀ r ∈ rs, stop ≤ r.base ∨ r.base + r.size ≤ base

theorem sorted_cons {r : Region} {rs : List Region} : Sorted (r :: rs) ↔
    (0 < r.size ∧ r.base + r.size < 2^64) ∧ (∀ r' ∈ rs, r.base + r.size ≤ r'.base) ∧ Sorted rs := by
  constructor
  · rintro ⟨hapart, hproper⟩
    obtain ⟨hr, hrs⟩ := forall_mem_cons.mp hproper
    exact ⟨hr, (pairwise_cons.mp hapart).1, (pairwise_cons.mp hapart).2, hrs⟩
  · rintro ⟨hr, hbefore, hapart, hproper⟩
    exact ⟨pairwise_cons.mpr ⟨hbefore, hapart⟩, forall_mem_cons.mpr ⟨hr, hproper⟩⟩

theorem overlapsLoop_eq_false_iff {base stop : ℕ} {rs : List Region} (h : Sorted rs) :
    overlapsLoop base stop rs = false ↔ Avoids base stop rs := by
  induction rs with
  | nil => simp [overlapsLoop, Avoids]
  | cons r rs ih =>
    obtain ⟨⟨hpos, hfits⟩, hbefore, hrs⟩ := sorted_cons.mp h
    rw [overlapsLoop, Nat.mod_eq_of_lt hfits, Avoids, forall_mem_cons, if_neg (by omega)]
    by_cases hmeets : base < r.base + r.size ∧ stop > r.base
    · rw [if_pos hmeets]
      exact iff_of_false (by decide) fun hno => by omega
    rw [if_neg hmeets]
    by_cases hend : r.base ≥ stop
    · -- The regions behind this one begin even later.
      rw [if_pos hend]
      exact iff_of_true rfl ⟨.inl hend, fun r' hr' => .inl (by have := hbefore r' hr'; omega)⟩
    · rw [if_neg hend, ih hrs]
      exact ⟨fun hno => ⟨by omega, hno⟩, fun hno => hno.2⟩

theorem ammRegionOverlaps_eq_false_iff {map : Vmap} {base size : ℕ} (h : Sorted map.regions)
    (hpos : 0 < size) (hbase : base < 2^64) (hsize : size < 2^64) :
    ammRegionOverlaps map base size = false ↔
      base + size < 2^64 ∧ Avoids base (base + size) map.regions := by
  rw [ammRegionOverlaps, if_neg (by omega)]
  by_cases hwrap : base + size < 2^64
  · rw [Nat.mod_eq_of_lt hwrap, if_neg (by omega), overlapsLoop_eq_false_iff h]
    exact (and_iff_right hwrap).symm
  · rw [if_pos (by omega)]
    exact iff_of_false (by decide) fun hno => hwrap hno.1

/-- A region goes between those before it and those behind it. -/
theorem Sorted.insert {nr : Region} {a b : List Region} (h : Sorted (a ++ b))
    (hnr : 0 < nr.size ∧ nr.base + nr.size < 2^64) (havoid : Avoids nr.base (nr.base + nr.size) (a ++ b))
    (ha : ∀ r ∈ a, r.base ≤ nr.base) (hb : ∀ r ∈ b.head?, nr.base ≤ r.base) : Sorted (a ++ nr :: b) := by
  obtain ⟨hapart, hproper⟩ := h
  obtain ⟨hpa, hpb, hab⟩ := pairwise_append.mp hapart
  have hbefore : ∀ r ∈ a, r.base + r.size ≤ nr.base := by
    intro r hr
    have hle := ha r hr
    rcases havoid r (mem_append_left _ hr) with hno | hno <;> omega
  have hbehind : ∀ r ∈ b, nr.base + nr.size ≤ r.base := by
    intro r hr
    have hpos := (hproper r (mem_append_right _ hr)).1
    have hle : nr.base ≤ r.base := by
      cases b with
      | nil => exact absurd hr not_mem_nil
      | cons r₀ b =>
        have hle := hb r₀ rfl
        rcases mem_cons.mp hr with rfl | hr
        · exact hle
        · have := (pairwise_cons.mp hpb).1 r hr
          omega
    rcases havoid r (mem_append_right _ hr) with hno | hno <;> omega
  constructor
  · refine pairwise_append.mpr ⟨hpa, pairwise_cons.mpr ⟨hbehind, hpb⟩, ?_⟩
    intro r hr r' hr'
    rcases mem_cons.mp hr' with rfl | hr'
    · exact hbefore r hr
    · exact hab r hr r' hr'
  · intro r hr
    rcases mem_append.mp hr with hr | hr
    · exact hproper r (mem_append_left _ hr)
    · rcases mem_cons.mp hr with rfl | hr
      · exact hnr
      · exact hproper r (mem_append_right _ hr)

/-! ## The functions -/

/-- A `vmap_t` and the pool of regions: the records by their place in the pool, less their links, and the
links with the list of this address space. -/
structure RegionPool where
  info : ℕ → Region
  list : LinkedList ℕ
  g_region_next : ℕ
  cr3 : ℕ
  region_count : ℕ

/-- The loop of `amm_region_add` from `cur` on, with the records behind it: where it stops. -/
def place (info : ℕ → Region) (base : ℕ) : ℕ → List ℕ → ℕ
  | cur, [] => cur
  | cur, n :: rest => if (info n).base < base then place info base n rest else cur

/-- The loop of `amm_region_find`. -/
def findLoop (info : ℕ → Region) (addr : ℕ) : List ℕ → Option ℕ
  | [] => none
  | r :: rest =>
    if (info r).base ≤ addr ∧ addr < ((info r).base + (info r).size) % 2^64 then some r
    else if (info r).base > addr then none
    else findLoop info addr rest

namespace RegionPool

/-- The records that a loop over the list meets. There are no more than the pool has. -/
def nodes (s : RegionPool) : List ℕ := s.list.walk maxRegions s.list.head

/-- The address space with its regions as a list. -/
def vmap (s : RegionPool) : Vmap := ⟨s.nodes.map s.info, s.cr3, s.region_count⟩

/-- The record behind which `amm_region_add` inserts, if it is not inserted at the head. -/
def insertPoint (s : RegionPool) (base : ℕ) : Option ℕ :=
  match s.nodes with
  | [] => none
  | h :: rest => if (s.info h).base > base then none else some (place s.info base h rest)

/-- `amm_region_add` from the new record on. Its links are zero at first. -/
def addRecord (s : RegionPool) (nr : Region) : RegionPool :=
  { s with
    info := Function.update s.info s.g_region_next nr
    list := s.list.insertBehind (s.insertPoint nr.base) s.g_region_next
    g_region_next := s.g_region_next + 1
    region_count := (s.region_count + 1) % 2^32 }

/-- `amm_region_add`. -/
def ammRegionAdd (s : RegionPool) (nr : Region) : Bool × RegionPool :=
  if nr.size = 0 then (false, s)
  else if ammRegionOverlaps s.vmap nr.base nr.size then (false, s)
  else if s.g_region_next ≥ maxRegions then (false, s)
  else (true, s.addRecord nr)

/-- `amm_region_remove`. The record does not go back to the pool. -/
def ammRegionRemove (s : RegionPool) (base : ℕ) : Bool × RegionPool :=
  match s.nodes.find? fun r => (s.info r).base = base with
  | none => (false, s)
  | some r =>
    (true, { s with list := s.list.remove r, region_count := (s.region_count + 2^32 - 1) % 2^32 })

/-- `amm_region_find`. -/
def ammRegionFind (s : RegionPool) (addr : ℕ) : Option ℕ := findLoop s.info addr s.nodes

/-- One call, with arguments of 64 bits. Other address spaces take records of the pool too, and write
only their own. -/
inductive Step : RegionPool → RegionPool → Prop
  | add (s : RegionPool) (base size : UInt64) (prot : ℕ) (kind : RegionKind) (fd : ℤ) :
    Step s (s.ammRegionAdd ⟨base.toNat, size.toNat, prot, kind, fd⟩).2
  | remove (s : RegionPool) (base : UInt64) : Step s (s.ammRegionRemove base.toNat).2
  | other (s : RegionPool) (info : ℕ → Region) (next prev : ℕ → Option ℕ) (g : ℕ)
      (hown : ∀ i ∈ s.nodes, info i = s.info i ∧ next i = s.list.next i ∧ prev i = s.list.prev i)
      (hg : s.g_region_next ≤ g) (hmax : g ≤ maxRegions) :
    Step s { s with info := info, list := ⟨next, prev, s.list.head⟩, g_region_next := g }

/-- A new address space. -/
structure Fresh (s : RegionPool) : Prop where
  head : s.list.head = none
  count : s.region_count = 0
  next : s.g_region_next ≤ maxRegions

/-! ## The invariant -/

/-- The list has the records `l`, taken from the pool, with sorted regions. -/
structure Inv (s : RegionPool) (l : List ℕ) : Prop where
  shows : s.list.Shows l
  taken : ∀ i ∈ l, i < s.g_region_next
  bound : s.g_region_next ≤ maxRegions
  sorted : Sorted (l.map s.info)
  count : s.region_count = l.length

variable {s t : RegionPool} {l : List ℕ}

theorem Inv.length_le (h : s.Inv l) : l.length ≤ s.g_region_next := by
  have hsub : l ⊆ List.range s.g_region_next := fun i hi => mem_range.mpr (h.taken i hi)
  exact ((h.shows.nodup.subperm hsub).length_le).trans_eq length_range

theorem Inv.nodes_eq (h : s.Inv l) : s.nodes = l := h.shows.seg.walk_eq (h.length_le.trans h.bound)

/-- Where the insertion goes, in the list and in the links. -/
theorem place_spec (info : ℕ → Region) (nr : Region) (h : ℕ) (rest : List ℕ) :
    ∃ a b, h :: rest = a ++ b ∧ a.getLast? = some (place info nr.base h rest) ∧
      (∀ x ∈ a, x = h ∨ (info x).base < nr.base) ∧ (∀ y ∈ b.head?, nr.base ≤ (info y).base) ∧
      info h :: insertTail nr (rest.map info) = a.map info ++ nr :: b.map info := by
  induction rest generalizing h with
  | nil => exact ⟨[h], [], rfl, rfl, by simp, by simp, rfl⟩
  | cons n rest ih =>
    rw [place, map_cons, insertTail]
    split_ifs with hlt
    · obtain ⟨a, b, hsplit, hlast, ha, hb, heq⟩ := ih n
      refine ⟨h :: a, b, congrArg (h :: ·) hsplit, ?_, ?_, hb, congrArg (info h :: ·) heq⟩
      · rw [getLast?_cons, hlast]
        rfl
      · refine forall_mem_cons.mpr ⟨.inl rfl, fun x hx => .inr ?_⟩
        rcases ha x hx with rfl | hx
        · exact hlt
        · exact hx
    · refine ⟨[h], n :: rest, rfl, rfl, by simp, ?_, rfl⟩
      rintro y ⟨⟩
      exact Nat.le_of_not_lt hlt

theorem Inv.insertPoint (h : s.Inv l) (nr : Region) :
    ∃ a b, l = a ++ b ∧ s.insertPoint nr.base = a.getLast? ∧ (∀ x ∈ a, (s.info x).base ≤ nr.base) ∧
      (∀ y ∈ b.head?, nr.base ≤ (s.info y).base) ∧
      insertRegion nr (l.map s.info) = a.map s.info ++ nr :: b.map s.info := by
  rw [RegionPool.insertPoint, h.nodes_eq]
  cases l with
  | nil => exact ⟨[], [], rfl, rfl, by simp, by simp, rfl⟩
  | cons i l =>
    dsimp only
    rw [map_cons, insertRegion]
    split_ifs with hfirst
    · refine ⟨[], i :: l, rfl, rfl, by simp, ?_, rfl⟩
      rintro y ⟨⟩
      exact hfirst.le
    · obtain ⟨a, b, hsplit, hlast, ha, hb, heq⟩ := place_spec s.info nr i l
      refine ⟨a, b, hsplit, hlast.symm, fun x hx => ?_, hb, heq⟩
      rcases ha x hx with rfl | hx
      · exact Nat.le_of_not_lt hfirst
      · exact hx.le

/-- The region has a place beside the regions of `l`, and the pool a record. -/
def Room (s : RegionPool) (l : List ℕ) (nr : Region) : Prop :=
  0 < nr.size ∧ nr.base + nr.size < 2^64 ∧ Avoids nr.base (nr.base + nr.size) (l.map s.info) ∧
    s.g_region_next < maxRegions

theorem Inv.ammRegionAdd_cases (h : s.Inv l) (nr : Region) (hbase : nr.base < 2^64)
    (hsize : nr.size < 2^64) : s.Room l nr ∧ s.ammRegionAdd nr = (true, s.addRecord nr) ∨
      ¬s.Room l nr ∧ s.ammRegionAdd nr = (false, s) := by
  have hvmap : s.vmap.regions = l.map s.info := by rw [vmap, h.nodes_eq]
  rw [ammRegionAdd]
  by_cases hzero : nr.size = 0
  · exact .inr ⟨fun hroom => hroom.1.ne' hzero, if_pos hzero⟩
  have hover := ammRegionOverlaps_eq_false_iff (hvmap ▸ h.sorted) (Nat.pos_of_ne_zero hzero) hbase hsize
  rw [if_neg hzero]
  by_cases hmeets : ammRegionOverlaps s.vmap nr.base nr.size = true
  · refine .inr ⟨fun hroom => ?_, if_pos hmeets⟩
    rw [hover.mpr ⟨hroom.2.1, hvmap ▸ hroom.2.2.1⟩] at hmeets
    cases hmeets
  obtain ⟨hfits, havoid⟩ := hover.mp (Bool.eq_false_of_not_eq_true hmeets)
  rw [if_neg hmeets]
  by_cases hfull : s.g_region_next ≥ maxRegions
  · exact .inr ⟨fun hroom => hroom.2.2.2.not_ge hfull, if_pos hfull⟩
  · exact .inl ⟨⟨Nat.pos_of_ne_zero hzero, hfits, hvmap ▸ havoid, Nat.lt_of_not_le hfull⟩, if_neg hfull⟩

/-- The new record is linked where its region belongs. -/
theorem Inv.addRecord (h : s.Inv l) {nr : Region} (hroom : s.Room l nr) :
    ∃ l', (s.addRecord nr).Inv l' ∧
      l'.map (s.addRecord nr).info = insertRegion nr (l.map s.info) := by
  obtain ⟨hpos, hfits, havoid, hnext⟩ := hroom
  obtain ⟨a, b, rfl, hpoint, ha, hb, hins⟩ := h.insertPoint nr
  have hnew : s.g_region_next ∉ a ++ b := fun hmem => (h.taken _ hmem).false
  have hinfo : ∀ c ⊆ a ++ b, c.map (Function.update s.info s.g_region_next nr) = c.map s.info :=
    fun c hc => map_congr_left fun x hx =>
      Function.update_of_ne (ne_of_mem_of_not_mem (hc hx) hnew) _ _
  have hmap : (a ++ s.g_region_next :: b).map (s.addRecord nr).info = a.map s.info ++ nr :: b.map s.info := by
    unfold RegionPool.addRecord
    rw [map_append, map_cons, hinfo a (subset_append_left _ _), hinfo b (subset_append_right _ _)]
    dsimp only
    rw [Function.update_self]
  have hsorted := h.sorted
  rw [map_append] at hsorted havoid
  refine ⟨a ++ s.g_region_next :: b, ⟨?_, fun i hi => ?_, hnext, ?_, ?_⟩, hmap.trans hins.symm⟩
  · rw [RegionPool.addRecord, hpoint]
    exact h.shows.insertBehind hnew
  · rcases mem_cons.mp (perm_middle.mem_iff.mp hi) with rfl | hi
    · exact Nat.lt_succ_self _
    · exact (h.taken i hi).trans (Nat.lt_succ_self _)
  · rw [hmap]
    refine hsorted.insert ⟨hpos, hfits⟩ havoid (by simpa using ha) fun r hr => ?_
    rw [head?_map] at hr
    obtain ⟨y, hy, rfl⟩ := Option.map_eq_some_iff.mp hr
    exact hb y hy
  · have hlen := h.length_le
    have hcount := h.count
    have hmax : maxRegions = 16384 := rfl
    have hlength : (a ++ s.g_region_next :: b).length = (a ++ b).length + 1 := by
      rw [length_append, length_append, length_cons, add_assoc]
    rw [hlength, RegionPool.addRecord, ← hcount]
    exact Nat.mod_eq_of_lt (by omega)

/-- `Machine.lean` does to the list what happens to the links. -/
theorem Inv.vmap_ammRegionAdd (h : s.Inv l) (nr : Region) (hbase : nr.base < 2^64) (hsize : nr.size < 2^64)
    (m : Machine) (hm : m.g_region_next = s.g_region_next) :
    (Mm.ammRegionAdd s.vmap nr.base nr.size nr.prot nr.kind nr.fd m).2.1 = (s.ammRegionAdd nr).2.vmap := by
  have hcases := h.ammRegionAdd_cases nr hbase hsize
  rw [Mm.ammRegionAdd, hm]
  rw [ammRegionAdd] at hcases ⊢
  split_ifs at hcases ⊢ with hzero hmeets hfull
  · rfl
  · rfl
  · rfl
  · obtain ⟨hroom, -⟩ | ⟨-, heq⟩ := hcases
    · obtain ⟨l', hinv, hl'⟩ := h.addRecord hroom
      rw [vmap, vmap, hinv.nodes_eq, hl', h.nodes_eq]
      rfl
    · cases heq

theorem Inv.ammRegionRemove (h : s.Inv l) (base : ℕ) : ∃ l', (s.ammRegionRemove base).2.Inv l' := by
  rw [RegionPool.ammRegionRemove, h.nodes_eq]
  cases hfind : l.find? fun r => (s.info r).base = base with
  | none => exact ⟨l, h⟩
  | some r =>
    obtain ⟨a, b, rfl⟩ := append_of_mem (mem_of_find?_eq_some hfind)
    have hsub : (a ++ b).Sublist (a ++ r :: b) := (sublist_cons_self r b).append_left a
    have hlen := h.length_le
    have hcount := h.count
    have hmax := h.bound
    have hregions : maxRegions = 16384 := rfl
    have hlength : (a ++ r :: b).length = (a ++ b).length + 1 := by
      rw [length_append, length_append, length_cons, add_assoc]
    refine ⟨a ++ b, h.shows.remove, fun i hi => h.taken i (hsub.subset hi), h.bound,
      ⟨h.sorted.apart.sublist (hsub.map _), fun x hx => h.sorted.proper x ((hsub.map _).subset hx)⟩, ?_⟩
    dsimp only
    omega

theorem Inv.step (h : ∃ l, s.Inv l) (hstep : Step s t) : ∃ l, t.Inv l := by
  obtain ⟨l, h⟩ := h
  cases hstep with
  | add base size prot kind fd =>
    rcases h.ammRegionAdd_cases ⟨base.toNat, size.toNat, prot, kind, fd⟩ base.toNat_lt
      size.toNat_lt with ⟨hroom, heq⟩ | ⟨-, heq⟩
    · rw [heq]
      obtain ⟨l', hinv, -⟩ := h.addRecord hroom
      exact ⟨l', hinv⟩
    · rw [heq]
      exact ⟨l, h⟩
  | remove base => exact h.ammRegionRemove _
  | other info next prev g hown hg hmax =>
    rw [h.nodes_eq] at hown
    have hinfo : l.map info = l.map s.info := map_congr_left fun i hi => (hown i hi).1
    exact ⟨l, ⟨h.shows.seg.congr fun i hi => (hown i hi).2, h.shows.nodup⟩,
      fun i hi => (h.taken i hi).trans_le hg, hmax, hinfo ▸ h.sorted, h.count⟩

theorem Fresh.inv (h : s.Fresh) : s.Inv [] :=
  ⟨⟨h.head, nodup_nil⟩, by simp, h.next, ⟨List.Pairwise.nil, by simp⟩, h.count⟩

/-- `amm_region_find` finds the region that has the address. -/
theorem findLoop_eq_some_iff {info : ℕ → Region} {l : List ℕ} (h : Sorted (l.map info)) {addr i : ℕ} :
    findLoop info addr l = some i ↔
      i ∈ l ∧ (info i).base ≤ addr ∧ addr < (info i).base + (info i).size := by
  induction l with
  | nil => simp [findLoop]
  | cons r l ih =>
    obtain ⟨⟨hpos, hfits⟩, hbefore, hl⟩ := sorted_cons.mp h
    have hlater : ∀ j ∈ l, (info r).base + (info r).size ≤ (info j).base := by simpa using hbefore
    rw [findLoop, Nat.mod_eq_of_lt hfits, mem_cons]
    by_cases hhere : (info r).base ≤ addr ∧ addr < (info r).base + (info r).size
    · -- The regions behind this one begin after the address.
      rw [if_pos hhere, Option.some.injEq]
      refine ⟨fun e => ⟨.inl e.symm, e ▸ hhere⟩, ?_⟩
      rintro ⟨rfl | hi, haddr⟩
      · rfl
      · have := hlater i hi
        omega
    rw [if_neg hhere]
    split_ifs with hpast
    · refine iff_of_false (by simp) ?_
      rintro ⟨rfl | hi, haddr⟩
      · exact hhere haddr
      · have := hlater i hi
        omega
    · rw [ih hl]
      refine ⟨fun hi => ⟨.inr hi.1, hi.2⟩, ?_⟩
      rintro ⟨rfl | hi, haddr⟩
      · exact absurd haddr hhere
      · exact ⟨hi, haddr⟩

/-! ## Runs -/

/-- In every run the list is linked in both directions, sorted and counted; a region is added exactly if
there is room for it, and found by each of its addresses. -/
theorem region_lists (hstart : s.Fresh) (hrun : Relation.ReflTransGen Step s t) :
    ∃ l, t.list.Shows l ∧ Sorted (l.map t.info) ∧ t.region_count = l.length ∧
      (∀ (base size : UInt64) (prot : ℕ) (kind : RegionKind) (fd : ℤ),
        (t.ammRegionAdd ⟨base.toNat, size.toNat, prot, kind, fd⟩).1 = true ↔
          t.Room l ⟨base.toNat, size.toNat, prot, kind, fd⟩) ∧
      ∀ (addr : UInt64) (i : ℕ), t.ammRegionFind addr.toNat = some i ↔
        i ∈ l ∧ (t.info i).base ≤ addr.toNat ∧ addr.toNat < (t.info i).base + (t.info i).size := by
  obtain ⟨l, h⟩ := Runs.invariant (P := fun s => ∃ l, s.Inv l) hrun ⟨[], hstart.inv⟩
    fun _ _ => Inv.step
  refine ⟨l, h.shows, h.sorted, h.count, fun base size prot kind fd => ?_, fun addr i => ?_⟩
  · rcases h.ammRegionAdd_cases ⟨base.toNat, size.toNat, prot, kind, fd⟩ base.toNat_lt
      size.toNat_lt with ⟨hroom, heq⟩ | ⟨hroom, heq⟩
    · rw [heq]
      exact iff_of_true rfl hroom
    · rw [heq]
      exact iff_of_false (by simp) hroom
  · rw [RegionPool.ammRegionFind, h.nodes_eq]
    exact findLoop_eq_some_iff h.sorted

/-- A new address space, and a pool of which nothing is taken. -/
def empty : RegionPool := ⟨fun _ => ⟨0, 0, 0, .code, -1⟩, ⟨fun _ => none, fun _ => none, none⟩, 0, 0, 0⟩

/-- Two regions, the higher one first. -/
theorem region_lists_empty : ∃ t l, Relation.ReflTransGen Step empty t ∧ t.region_count = 2 ∧
    t.list.Shows l ∧ l.length = 2 ∧ Sorted (l.map t.info) := by
  let high : Region := ⟨(0x3000 : UInt64).toNat, (0x1000 : UInt64).toNat, 3, .heap, -1⟩
  let low : Region := ⟨(0x1000 : UInt64).toNat, (0x2000 : UInt64).toNat, 1, .code, -1⟩
  have hrun : Relation.ReflTransGen Step empty ((empty.ammRegionAdd high).2.ammRegionAdd low).2 :=
    .tail (.single (.add _ 0x3000 0x1000 3 .heap (-1))) (.add _ 0x1000 0x2000 1 .code (-1))
  have hcount : ((empty.ammRegionAdd high).2.ammRegionAdd low).2.region_count = 2 := by decide +kernel
  obtain ⟨l, hshows, hsorted, hlen, -⟩ := region_lists ⟨rfl, rfl, Nat.zero_le _⟩ hrun
  exact ⟨_, l, hrun, hcount, hshows, hlen.symm.trans hcount, hsorted⟩

end RegionPool

end FreeAsd.Mm
