import Mathlib.Algebra.Group.Nat.Defs
import Mathlib.Data.List.Basic

/-!
# The memory map of the boot information block

`asd_mmap_entry_t` of `boot/asdboot.h`. The free entries of a `MemoryMap` are page-aligned ranges of physical
addresses, which x86-64 limits to 52 bits, and do not overlap.
-/

namespace FreeAsd

/-- `PAGE_SIZE`. -/
def pageSize : ℕ := 4096

/-- `PAGE_SHIFT`. -/
def pageShift : ℕ := 12

/-- The `ASD_MEM_*` region types. -/
inductive AsdMemType
  | free
  | reserved
  | acpiRec
  | acpiNvs
  | loader
  | kernel
  | initrd
  | fb
deriving DecidableEq, Repr

/-- `asd_mmap_entry_t`. -/
structure AsdMmapEntry where
  /-- Physical base address. -/
  base : ℕ
  /-- Number of 4 KiB pages. -/
  pages : ℕ
  /-- The `ASD_MEM_*` constant. -/
  type : AsdMemType
deriving DecidableEq, Repr

namespace AsdMmapEntry

/-- The address just past the region. -/
def limit (e : AsdMmapEntry) : ℕ := e.base + e.pages * pageSize

/-- The addresses of the region. -/
instance : Membership ℕ AsdMmapEntry := ⟨fun e a => e.base ≤ a ∧ a < e.limit⟩

theorem mem_def {a : ℕ} {e : AsdMmapEntry} : a ∈ e ↔ e.base ≤ a ∧ a < e.limit := Iff.rfl

end AsdMmapEntry

/-- A memory map: the entries, with what makes them a description of physical memory. -/
structure MemoryMap where
  /-- The array at `mmap_phys`. -/
  entries : List AsdMmapEntry
  /-- Free regions start on a page boundary. -/
  aligned : ∀ e ∈ entries, e.type = .free → pageSize ∣ e.base
  /-- Free regions are ranges of 52-bit physical addresses. -/
  fits : ∀ e ∈ entries, e.type = .free → e.limit ≤ 2^52
  /-- Free regions do not overlap. -/
  disjoint : entries.Pairwise fun e f =>
    e.type = .free → f.type = .free → ∀ a, a ∈ e → a ∉ f

end FreeAsd
