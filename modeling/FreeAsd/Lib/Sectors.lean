import FreeAsd.Lib.Words
import Mathlib.Data.List.Nodup

/-!
# Sectors and fields

A disk is a function from sector numbers to their bytes. A transfer replaces a run of whole sectors
(`putSectors`). Records are little-endian fields, read from the front (`takeNum`).
-/

namespace FreeAsd

open Function List

/-- The bytes of a sector. -/
abbrev sectorSize : ℕ := 512

/-- The sectors of a disk. -/
abbrev Sectors := ℕ → List UInt8

/-- The bytes of a run of sectors. -/
def getSectors (d : Sectors) (lba count : ℕ) : List UInt8 :=
  (List.range count).flatMap fun i => d (lba + i)

/-- A run of sectors is replaced. -/
def putSectors (d : Sectors) (lba : ℕ) (data : List UInt8) : Sectors := fun s =>
  if lba ≤ s ∧ s < lba + data.length / sectorSize then
    (data.drop (sectorSize * (s - lba))).take sectorSize
  else d s

variable {d : Sectors} {lba n : ℕ} {data : List UInt8}

theorem putSectors_of_notMem {s : ℕ} (h : s < lba ∨ lba + data.length / sectorSize ≤ s) :
    putSectors d lba data s = d s :=
  if_neg (by omega)

/-- A sector that is replaced alone. -/
theorem putSectors_one (h : data.length = sectorSize) : putSectors d lba data = update d lba data := by
  funext s
  rw [putSectors, h, Nat.div_self (by decide), update_apply]
  by_cases hs : s = lba
  · rw [if_pos (by omega), if_pos hs, hs, Nat.sub_self, Nat.mul_zero, drop_zero, take_of_length_le h.le]
  · rw [if_neg (by omega), if_neg hs]

/-- The pieces of some bytes, put together again. -/
theorem flatMap_chunks (h : data.length = sectorSize * n) :
    ((List.range n).flatMap fun i => (data.drop (sectorSize * i)).take sectorSize) = data := by
  have hfront : ∀ k, ((List.range k).flatMap fun i => (data.drop (sectorSize * i)).take sectorSize) =
      data.take (sectorSize * k) := by
    intro k
    induction k with
    | zero => rfl
    | succ k ih =>
      rw [range_succ, flatMap_append, ih, flatMap_singleton, Nat.mul_succ, take_add]
  rw [hfront, ← h, take_length]

theorem getSectors_congr {e : Sectors} (h : ∀ i < n, d (lba + i) = e i) :
    getSectors d lba n = (List.range n).flatMap e := by
  unfold getSectors
  rw [flatMap_def, flatMap_def]
  congr 1
  exact map_congr_left fun i hi => h i (mem_range.mp hi)

/-- What was transferred is there. -/
theorem getSectors_putSectors (h : data.length = sectorSize * n) :
    getSectors (putSectors d lba data) lba n = data := by
  have hdiv : data.length / sectorSize = n := by
    rw [h]
    exact Nat.mul_div_cancel_left n (by decide)
  have hpiece : ∀ i < n, putSectors d lba data (lba + i) = (data.drop (sectorSize * i)).take sectorSize := by
    intro i hi
    rw [putSectors, if_pos ⟨Nat.le_add_right .., by rw [hdiv]; omega⟩, Nat.add_sub_cancel_left]
  rw [getSectors_congr hpiece, flatMap_chunks h]

/-- Single sectors are replaced one after the other. -/
def putEach (writes : List (ℕ × List UInt8)) (d : Sectors) : Sectors :=
  writes.foldl (fun d w => Function.update d w.1 w.2) d

theorem putEach_of_notMem {writes : List (ℕ × List UInt8)} {s : ℕ} (h : s ∉ writes.map Prod.fst) :
    putEach writes d s = d s := by
  induction writes generalizing d with
  | nil => rfl
  | cons w writes ih =>
    rw [map_cons, mem_cons, not_or] at h
    exact (ih h.2).trans (update_of_ne h.1 _ _)

/-- If no sector is written twice, then each has what was written to it. -/
theorem putEach_of_mem {writes : List (ℕ × List UInt8)} (hnodup : (writes.map Prod.fst).Nodup)
    {w : ℕ × List UInt8} (h : w ∈ writes) : putEach writes d w.1 = w.2 := by
  induction writes generalizing d with
  | nil => exact absurd h not_mem_nil
  | cons v writes ih =>
    rw [map_cons, nodup_cons] at hnodup
    rcases mem_cons.mp h with rfl | hmem
    · exact (putEach_of_notMem hnodup.1).trans (update_self ..)
    · exact ih hnodup.2 hmem

/-! ## Fields -/

/-- The number in the first `n` bytes, and the rest. -/
def takeNum (n : ℕ) (bs : List UInt8) : ℕ × List UInt8 := (leNum (bs.take n), bs.drop n)

theorem takeNum_leBytes (n v : ℕ) (rest : List UInt8) :
    takeNum n (leBytes n v ++ rest) = (v % 256^n, rest) := by
  rw [takeNum, take_left' (length_leBytes n v), drop_left' (length_leBytes n v), leNum_leBytes]

end FreeAsd
