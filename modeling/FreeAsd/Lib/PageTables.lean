import FreeAsd.Lib.Bytes
import Mathlib.Data.Nat.Bitwise

/-!
# Page tables in memory

Four-level page tables of x86-64 in byte-addressed memory (`entry`, `setEntry`), and the walk of the
processor for a user-mode access (`userWalk`). `Typed slot τ m` says that the pages to which `τ` gives a label
hold tables as `slot` prescribes: an entry is absent or leads to a page with a given label.
-/

namespace FreeAsd.Paging

open Nat Function Mem

/-! ## Entries -/

/-- The bits of an entry that hold the address of a frame. -/
def frame (e : ℕ) : ℕ := e &&& 0x000FFFFFFFFFF000

/-- A frame is a page of 52-bit physical memory. -/
def IsFrame (p : ℕ) : Prop := 4096 ∣ p ∧ p < 2^52

theorem frame_eq (e : ℕ) : frame e = e / 2^12 % 2^40 * 2^12 := by
  have hmask : 0x000FFFFFFFFFF000 = (2^40 - 1) <<< 12 := rfl
  calc e &&& 0x000FFFFFFFFFF000
      = ((e >>> 12) &&& (2^40 - 1)) <<< 12 := by
        apply eq_of_testBit_eq
        intro i
        rw [hmask, testBit_and, testBit_shiftLeft, testBit_shiftLeft, testBit_and, testBit_shiftRight]
        by_cases hi : 12 ≤ i
        · simp [hi]
        · simp [hi]
    _ = e / 2^12 % 2^40 * 2^12 := by
        rw [and_two_pow_sub_one_eq_mod, shiftRight_eq_div_pow, shiftLeft_eq]

theorem isFrame_frame (e : ℕ) : IsFrame (frame e) := by
  rw [frame_eq]
  exact ⟨⟨e / 2^12 % 2^40, by ring⟩, by omega⟩

theorem frame_of_isFrame {p : ℕ} (h : IsFrame p) : frame p = p := by
  obtain ⟨⟨k, rfl⟩, hlt⟩ := h
  rw [frame_eq]
  omega

/-- Flags in the low twelve bits are beside the address of a frame. -/
theorem or_flags {p f : ℕ} (hp : IsFrame p) (hf : f < 4096) : p ||| f = p + f := by
  obtain ⟨⟨k, rfl⟩, -⟩ := hp
  have h := two_pow_add_eq_or_of_lt (i := 12) hf k
  exact h.symm

/-- An entry made of a frame and low flags gives both back. -/
theorem frame_or_flags {p f : ℕ} (hp : IsFrame p) (hf : f < 4096) : frame (p ||| f) = p := by
  rw [or_flags hp hf, frame_eq]
  obtain ⟨⟨k, rfl⟩, hlt⟩ := hp
  omega

theorem or_flags_mod {p f : ℕ} (hp : IsFrame p) (hf : f < 4096) : (p ||| f) % 4096 = f := by
  rw [or_flags hp hf]
  obtain ⟨⟨k, rfl⟩, -⟩ := hp
  omega

/-- The low bits of an entry are those of its flags. -/
theorem testBit_of_mod {e f i : ℕ} (h : e % 4096 = f) (hi : i < 12) : e.testBit i = f.testBit i := by
  rw [← h, show (4096 : ℕ) = 2^12 from rfl, testBit_mod_two_pow]
  simp [hi]

/-! ## Tables -/

/-- Entry `i` of the table at `t`. -/
def entry (m : Mem) (t i : ℕ) : ℕ := m.rd (t + 8 * i) 8

/-- Write entry `i` of the table at `t`. -/
def setEntry (m : Mem) (t i v : ℕ) : Mem := m.wr (t + 8 * i) 8 v

/-- Zero a page. -/
def clearPage (m : Mem) (p : ℕ) : Mem := m.fill p 4096 0

section

variable {m m' : Mem} {t t' i j v p x : ℕ}

/-- Entries depend on the page of their table only. -/
theorem entry_congr (hi : i < 512) (h : ∀ x, t ≤ x → x < t + 4096 → m x = m' x) : entry m t i = entry m' t i :=
  rd_congr fun x hx hx' => h x (by omega) (by omega)

theorem entry_setEntry_self (hv : v < 2^64) : entry (setEntry m t i v) t i = v := by
  unfold entry setEntry
  rw [rd_wr_self]
  exact mod_eq_of_lt hv

/-- Bytes outside the table's page are not changed. -/
theorem setEntry_of_notMem (hi : i < 512) (h : x < t ∨ t + 4096 ≤ x) : setEntry m t i v x = m x :=
  wr_of_notMem (by omega)

theorem entry_setEntry_of_ne (ht : 4096 ∣ t) (ht' : 4096 ∣ t') (hi : i < 512) (hj : j < 512)
    (h : t' ≠ t ∨ j ≠ i) : entry (setEntry m t i v) t' j = entry m t' j := by
  obtain ⟨a, rfl⟩ := ht
  obtain ⟨b, rfl⟩ := ht'
  exact rd_wr_of_disjoint (by omega)

theorem clearPage_of_notMem (h : x < p ∨ p + 4096 ≤ x) : clearPage m p x = m x := fill_of_notMem _ h

theorem entry_clearPage_self (hi : i < 512) : entry (clearPage m t) t i = 0 :=
  rd_eq_zero fun x hx hx' => fill_of_mem _ (by omega)

theorem entry_clearPage_of_ne (ht : 4096 ∣ t) (hp : 4096 ∣ p) (hi : i < 512) (h : t ≠ p) :
    entry (clearPage m p) t i = entry m t i := by
  obtain ⟨a, rfl⟩ := ht
  obtain ⟨b, rfl⟩ := hp
  exact entry_congr hi fun x hx hx' => clearPage_of_notMem (by omega)

end

/-! ## The walk -/

/-- The index that level `l` takes from an address: level 3 is the root, level 0 the last table. -/
def tableIdx (l va : ℕ) : ℕ := va >>> (12 + 9 * l) &&& 0x1FF

theorem tableIdx_eq (l va : ℕ) : tableIdx l va = va / 2^(12 + 9 * l) % 512 := by
  unfold tableIdx
  rw [shiftRight_eq_div_pow, show (0x1FF : ℕ) = 2^9 - 1 from rfl, and_two_pow_sub_one_eq_mod]

theorem tableIdx_lt (l va : ℕ) : tableIdx l va < 512 := by
  rw [tableIdx_eq]
  exact mod_lt _ (by decide)

/-- An entry lets user mode pass: it is present and has the user bit. -/
def userPasses (e : ℕ) : Bool := e.testBit 0 && e.testBit 2

/-- The translation of an address for user mode: the physical address, and whether writes are
allowed, which every level must do. -/
def userWalk (m : Mem) (cr3 va : ℕ) : Option (ℕ × Bool) :=
  let e4 := entry m (frame cr3) (tableIdx 3 va)
  if !userPasses e4 then none
  else
    let e3 := entry m (frame e4) (tableIdx 2 va)
    if !userPasses e3 then none
    else
      let e2 := entry m (frame e3) (tableIdx 1 va)
      if !userPasses e2 then none
      else if e2.testBit 7 then
        some (frame e2 / 2^21 * 2^21 + va % 2^21, e4.testBit 1 && e3.testBit 1 && e2.testBit 1)
      else
        let e1 := entry m (frame e2) (tableIdx 0 va)
        if !userPasses e1 then none
        else some (frame e1 + va % 4096,
          e4.testBit 1 && e3.testBit 1 && e2.testBit 1 && e1.testBit 1)

/-- Follow present entries from a table. -/
def walk (m : Mem) (t : ℕ) : List ℕ → Option ℕ
  | [] => some t
  | i :: is => if (entry m t i).testBit 0 then walk m (frame (entry m t i)) is else none

theorem walk_singleton_eq_some {m : Mem} {t i p : ℕ} :
    walk m t [i] = some p ↔ (entry m t i).testBit 0 = true ∧ frame (entry m t i) = p := by
  simp [walk]

/-! ## Typed tables -/

/-- What an entry of a table may be: absent or the address of a table with a label, the address of a
table with a label, absent or the address of a page with a label, one value, or anything. -/
inductive Slot (L : Type)
  | table (l : L)
  | always (l : L)
  | page (l : L)
  | fixed (v : ℕ)
  | free

/-- The label of the page to which a slot leads. -/
def Slot.child {L : Type} : Slot L → Option L
  | .table l => some l
  | .always l => some l
  | .page l => some l
  | .fixed _ => none
  | .free => none

variable {L : Type}

/-- The entry is what its slot prescribes. Tables are entered with the present, write and user bits,
pages with the present and user bits and perhaps the write bit. -/
def SlotOk (τ : ℕ → Option L) (e : ℕ) : Slot L → Prop
  | .table l => e.testBit 0 = true → e % 4096 = 7 ∧ τ (frame e) = some l
  | .always l => e % 4096 = 7 ∧ τ (frame e) = some l
  | .page l => e.testBit 0 = true → (e % 4096 = 5 ∨ e % 4096 = 7) ∧ τ (frame e) = some l
  | .fixed v => e = v
  | .free => True

/-- Labelled pages are frames whose entries are what `slot` prescribes for the label, the address and
the index. -/
def Typed (slot : L → ℕ → ℕ → Slot L) (τ : ℕ → Option L) (m : Mem) : Prop :=
  ∀ t l, τ t = some l → IsFrame t ∧ ∀ i < 512, SlotOk τ (entry m t i) (slot l t i)

/-- A slot may be empty. -/
def Slot.MayBeEmpty : Slot L → Prop
  | .always _ => False
  | .fixed _ => False
  | _ => True

/-- A slot that may be empty may hold any entry that is not present. -/
theorem slotOk_of_not_testBit {τ : ℕ → Option L} {s : Slot L} {e : ℕ} (h : s.MayBeEmpty)
    (he : e.testBit 0 = false) : SlotOk τ e s := by
  cases s with
  | table l | page l => exact fun h0 => absurd (he.symm.trans h0) (by simp)
  | always l => exact h.elim
  | fixed v => exact h.elim
  | free => trivial

/-- More labels do not hurt. -/
theorem SlotOk.mono {τ τ' : ℕ → Option L} {e : ℕ} {s : Slot L} (h : SlotOk τ e s)
    (hτ : ∀ l, τ (frame e) = some l → τ' (frame e) = some l) : SlotOk τ' e s := by
  cases s with
  | table l | page l => exact fun h0 => ⟨(h h0).1, hτ l (h h0).2⟩
  | always l => exact ⟨h.1, hτ l h.2⟩
  | fixed v => exact h
  | free => trivial

section

variable {slot : L → ℕ → ℕ → Slot L} {τ : ℕ → Option L} {m m' : Mem} {t i v p : ℕ} {l : L}
  (h : Typed slot τ m)

include h

/-- Only the labelled pages matter, and of them only those whose entries are not free. -/
theorem Typed.congr (hm : ∀ t l, τ t = some l → (∀ i < 512, slot l t i = .free) ∨
      ∀ x, t ≤ x → x < t + 4096 → m' x = m x) : Typed slot τ m' := by
  intro t l ht
  refine ⟨(h t l ht).1, fun i hi => ?_⟩
  rcases hm t l ht with hfree | hsame
  · rw [hfree i hi]
    trivial
  · rw [entry_congr hi hsame]
    exact (h t l ht).2 i hi

/-- A present entry leads to the page that its slot prescribes. -/
theorem Typed.child {k : L} (ht : τ t = some l) (hi : i < 512) (hk : (slot l t i).child = some k)
    (he : (entry m t i).testBit 0 = true) : τ (frame (entry m t i)) = some k := by
  have hok := (h t l ht).2 i hi
  generalize slot l t i = s at hk hok
  cases s with
  | table k' | page k' => exact (hok he).2.trans hk
  | always k' => exact hok.2.trans hk
  | fixed v | free => exact absurd hk (by simp [Slot.child])

/-- A page without a label may get one that fits its contents. -/
theorem Typed.label (hp : IsFrame p) (hfresh : τ p = none)
    (hok : ∀ i < 512, SlotOk (update τ p (some l)) (entry m p i) (slot l p i)) :
    Typed slot (update τ p (some l)) m := by
  intro t k ht
  by_cases htp : t = p
  · subst htp
    rw [update_self] at ht
    cases ht
    exact ⟨hp, hok⟩
  · rw [update_of_ne htp] at ht
    refine ⟨(h t k ht).1, fun i hi => ((h t k ht).2 i hi).mono fun k' hk' => ?_⟩
    rw [update_of_ne, hk']
    rintro rfl
    rw [hfresh] at hk'
    cases hk'

/-- An entry of a labelled page may be written as its slot prescribes. -/
theorem Typed.setEntry (ht : τ t = some l) (hi : i < 512) (hv : v < 2^64)
    (hok : SlotOk τ v (slot l t i)) : Typed slot τ (setEntry m t i v) := by
  intro t' k ht'
  refine ⟨(h t' k ht').1, fun j hj => ?_⟩
  by_cases heq : t' = t ∧ j = i
  · obtain ⟨rfl, rfl⟩ := heq
    obtain rfl := Option.some.inj (ht'.symm.trans ht)
    rw [entry_setEntry_self hv]
    exact hok
  · rw [entry_setEntry_of_ne (h t l ht).1.1 (h t' k ht').1.1 hi hj (by omega)]
    exact (h t' k ht').2 j hj

end

end FreeAsd.Paging
