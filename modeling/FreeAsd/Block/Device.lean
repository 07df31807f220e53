import FreeAsd.Lib.Sectors

/-!
# Block devices

The devices of `kernel/block/block.h`, with sectors of 512 bytes. A device may fail at any time, and a
write that fails may leave anything in its sectors. The outcomes of the operations to come are part of
the state (`faults`).
-/

namespace FreeAsd.Block

/-- `block_dev_t`: the size, the sectors, and for each operation to come nothing if it succeeds, or what
a failing write leaves on the disk. -/
structure BlockDev where
  sector_size : ℕ
  sector_count : ℕ
  sectors : Sectors
  faults : List (Option Sectors)
  count_lt : sector_count < 2^64

namespace BlockDev

/-- `dev->read`. -/
def read (dev : BlockDev) (lba count : ℕ) : Option (List UInt8) × BlockDev :=
  match dev.faults with
  | some _ :: faults => (none, { dev with faults := faults })
  | _ => (some (getSectors dev.sectors lba count), { dev with faults := dev.faults.tail })

/-- `dev->write` of whole sectors. -/
def write (dev : BlockDev) (lba : ℕ) (data : List UInt8) : Bool × BlockDev :=
  match dev.faults with
  | some junk :: faults =>
    (false, { dev with
      sectors := fun s => if lba ≤ s ∧ s < lba + data.length / sectorSize then junk s else dev.sectors s
      faults := faults })
  | _ => (true, { dev with sectors := putSectors dev.sectors lba data, faults := dev.faults.tail })

/-- Writes one after the other, up to the first that fails. -/
def writeEach : List (ℕ × List UInt8) → BlockDev → Bool × BlockDev
  | [], dev => (true, dev)
  | w :: writes, dev =>
    match dev.write w.1 w.2 with
    | (false, dev) => (false, dev)
    | (true, dev) => writeEach writes dev

variable {dev dev' : BlockDev} {lba count : ℕ} {data : List UInt8}

theorem write_true (h : dev.write lba data = (true, dev')) :
    dev'.sectors = putSectors dev.sectors lba data ∧ dev'.sector_count = dev.sector_count := by
  unfold write at h
  split at h
  next => cases h
  next =>
    cases h
    exact ⟨rfl, rfl⟩

/-- A write changes no other sector, even if it fails. -/
theorem write_of_notMem {r : Bool} {s : ℕ} (h : dev.write lba data = (r, dev'))
    (hs : s < lba ∨ lba + data.length / sectorSize ≤ s) : dev'.sectors s = dev.sectors s := by
  unfold write at h
  split at h
  next =>
    cases h
    exact if_neg (by omega)
  next =>
    cases h
    exact putSectors_of_notMem hs

theorem write_sector_count {r : Bool} (h : dev.write lba data = (r, dev')) :
    dev'.sector_count = dev.sector_count := by
  unfold write at h
  split at h
  next => cases h; rfl
  next => cases h; rfl

theorem read_some (h : dev.read lba count = (some data, dev')) :
    data = getSectors dev.sectors lba count ∧ dev'.sectors = dev.sectors := by
  unfold read at h
  split at h
  next => cases h
  next =>
    cases h
    exact ⟨rfl, rfl⟩

theorem read_snd (dev : BlockDev) (lba count : ℕ) :
    (dev.read lba count).2.sectors = dev.sectors ∧
      (dev.read lba count).2.sector_count = dev.sector_count := by
  unfold read
  split
  next => exact ⟨rfl, rfl⟩
  next => exact ⟨rfl, rfl⟩

/-- If all writes of single sectors succeed, then all are on the disk. -/
theorem writeEach_true {writes : List (ℕ × List UInt8)}
    (hlen : ∀ w ∈ writes, w.2.length = sectorSize) (h : dev.writeEach writes = (true, dev')) :
    dev'.sectors = putEach writes dev.sectors ∧ dev'.sector_count = dev.sector_count := by
  induction writes generalizing dev with
  | nil =>
    cases h
    exact ⟨rfl, rfl⟩
  | cons w writes ih =>
    rw [writeEach] at h
    rcases hwrite : dev.write w.1 w.2 with ⟨_ | _, mid⟩
    · rw [hwrite] at h
      cases h
    rw [hwrite] at h
    obtain ⟨hsectors, hcount⟩ := ih (List.forall_mem_cons.mp hlen).2 h
    obtain ⟨hmid, hcount'⟩ := write_true hwrite
    refine ⟨?_, hcount.trans hcount'⟩
    rw [hsectors, hmid, putSectors_one (hlen w List.mem_cons_self)]
    rfl

/-- A device that never fails. -/
theorem writeEach_of_faults (writes : List (ℕ × List UInt8)) (h : dev.faults = []) :
    (dev.writeEach writes).1 = true ∧ (dev.writeEach writes).2.faults = [] := by
  induction writes generalizing dev with
  | nil => exact ⟨rfl, h⟩
  | cons w writes ih =>
    have hwrite : dev.write w.1 w.2 =
        (true, { dev with sectors := putSectors dev.sectors w.1 w.2, faults := [] }) := by
      unfold write
      rw [h]
      rfl
    rw [writeEach, hwrite]
    exact ih rfl

end BlockDev

end FreeAsd.Block
