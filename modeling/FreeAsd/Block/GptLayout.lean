import FreeAsd.Block.Gpt
import Mathlib.Tactic.IntervalCases

/-!
# When the partition table is well formed

The table that `gpt_init_single_disk` writes has right headers (`headersOk_of_written`), and is as it should
be exactly on disks of at least `2^32` sectors (`gptOk_iff`, `pmbrOk_iff`, `layoutOk_iff`).
-/

namespace FreeAsd.Block

open List

variable {total : ℕ} {dev dev' : BlockDev}

/-! ## Lengths -/

theorem length_utf8ToUtf16le (s : CStr) : (utf8ToUtf16le s).length = 72 := by
  unfold utf8ToUtf16le
  rw [length_take, length_append, length_replicate]
  omega

theorem length_espPart : espPart.encode.length = 128 := by
  have htype : espType.length = 16 := rfl
  unfold GptPart.encode espPart
  simp only [length_append, length_leBytes, htype, length_utf8ToUtf16le]

theorem length_rootPart (total : ℕ) : (rootPart total).encode.length = 128 := by
  have htype : rootType.length = 16 := rfl
  unfold GptPart.encode rootPart
  simp only [length_append, length_leBytes, htype, length_utf8ToUtf16le]

theorem length_partsBytes (total : ℕ) : (partsBytes total).length = sectorSize * 32 := by
  unfold partsBytes
  rw [length_append, length_append, length_espPart, length_rootPart, length_replicate]
  rfl

theorem length_pmbrBytes (first count : ℕ) : (pmbrBytes first count).length = sectorSize := by
  unfold pmbrBytes
  simp only [length_append, length_replicate, length_leBytes, length_cons, length_nil]

/-! ## Headers -/

section

variable (h : total < 2^64)

include h

theorem fits_primaryDraft : (primaryDraft total).Fits where
  signature := rfl
  revision := (by decide : 0x00010000 < 256^4)
  header_size := (by decide : 92 < 256^4)
  header_crc32 := (by decide : 0 < 256^4)
  reserved := (by decide : 0 < 256^4)
  current_lba := (by decide : 1 < 256^8)
  backup_lba := lt_of_le_of_lt (Nat.sub_le total 1) h
  first_usable_lba := (by decide : 2048 < 256^8)
  last_usable_lba := lt_of_le_of_lt (Nat.sub_le total 34) h
  disk_guid := rfl
  part_entry_lba := (by decide : 2 < 256^8)
  num_parts := (by decide : 128 < 256^4)
  part_entry_size := (by decide : 128 < 256^4)
  part_array_crc32 := BitVec.isLt _

theorem fits_primaryHeader : (primaryHeader total).Fits := (fits_primaryDraft h).seal

/-- The backup header before its check is filled in. -/
theorem fits_backupDraft : { primaryHeader total with
    current_lba := total - 1, backup_lba := 1, part_entry_lba := total - 33 : GptHeader }.Fits :=
  { fits_primaryHeader h with
    current_lba := lt_of_le_of_lt (Nat.sub_le total 1) h
    backup_lba := (by decide : 1 < 256^8)
    part_entry_lba := lt_of_le_of_lt (Nat.sub_le total 33) h }

theorem fits_backupHeader : (backupHeader total).Fits := (fits_backupDraft h).seal

end

/-- The bytes of a header before and after its check. -/
theorem GptHeader.encode_split {h : GptHeader} (hfits : h.Fits) :
    ∃ front back, front.length = 16 ∧
      ∀ crc, { h with header_crc32 := crc }.encode = front ++ (leBytes 4 crc ++ back) := by
  refine ⟨h.signature ++ (leBytes 4 h.revision ++ leBytes 4 h.header_size),
    leBytes 4 h.reserved ++ (leBytes 8 h.current_lba ++ (leBytes 8 h.backup_lba ++
      (leBytes 8 h.first_usable_lba ++ (leBytes 8 h.last_usable_lba ++ (h.disk_guid ++
      (leBytes 8 h.part_entry_lba ++ (leBytes 4 h.num_parts ++ (leBytes 4 h.part_entry_size ++
      (leBytes 4 h.part_array_crc32 ++ List.replicate 420 0))))))))), ?_, fun crc => ?_⟩
  · rw [length_append, length_append, length_leBytes, length_leBytes, hfits.signature]
  · unfold GptHeader.encode
    rw [append_assoc, append_assoc]

/-- A header that was sealed passes the check. -/
theorem headerCrcOk_seal {h : GptHeader} (hfits : h.Fits) (hsize : h.header_size = 92) :
    HeaderCrcOk h.seal.encode := by
  obtain ⟨front, back, hfront, hsplit⟩ := GptHeader.encode_split hfits
  have hbytes : h.seal.encode = front ++ (leBytes 4 h.seal.header_crc32 ++ back) := hsplit _
  have hsealed : h.seal.header_crc32 =
      (crc32Compute ({ h with header_crc32 := 0 }.encode.take h.header_size)).toNat := rfl
  have hzero : leBytes 4 0 = List.replicate 4 0 := rfl
  have htake : (front ++ (leBytes 4 h.seal.header_crc32 ++ back)).take 16 = front := take_left' hfront
  have hdrop : (front ++ (leBytes 4 h.seal.header_crc32 ++ back)).drop 20 = back := by
    rw [← append_assoc]
    apply drop_left'
    rw [length_append, hfront, length_leBytes]
  have hdraft : (front ++ (List.replicate 4 0 ++ back)).take 92 =
      front ++ (List.replicate 4 0 ++ back.take 72) := by
    rw [← append_assoc, ← append_assoc, take_append]
    rw [take_of_length_le (by simp [hfront])]
    simp [hfront]
  have hseal_size : h.seal.header_size = 92 := hsize
  rw [HeaderCrcOk, GptHeader.decode_encode hfits.seal, hseal_size, hbytes, htake, hdrop, ← hdraft,
    hsealed, hsplit 0, hzero, hsize, crc32Compute_eq]

/-! ## The disk -/

/-- No sector is written twice. -/
theorem nodup_gptWrites (h : 68 ≤ total) : ((gptWrites total).map Prod.fst).Nodup := by
  have hparts : ∀ lba, (partsWrites total lba).map Prod.fst = (List.range 32).map (lba + ·) := by
    intro lba
    rw [partsWrites, map_map]
    rfl
  have hrun : ∀ lba : ℕ, ((List.range 32).map (lba + ·)).Nodup :=
    fun lba => nodup_range.map fun a b hab => add_left_cancel hab
  unfold gptWrites
  simp only [map_cons, map_append, hparts, map_nil]
  simp only [nodup_cons, nodup_append, hrun, mem_append, mem_cons, mem_map, mem_range, not_mem_nil, nodup_nil]
  refine ⟨?_, trivial, ⟨?_, trivial, ⟨by simp, trivial⟩, ?_⟩, ?_⟩
  · rintro (⟨i, hi, h0⟩ | h0 | ⟨i, hi, h0⟩ | h0 | h0)
    · omega
    · omega
    · omega
    · omega
    · exact h0
  · rintro (⟨i, hi, h0⟩ | h0 | h0)
    · omega
    · omega
    · exact h0
  · rintro x ⟨i, hi, rfl⟩ y (rfl | hy)
    · omega
    · cases hy
  · rintro x ⟨i, hi, rfl⟩ y (rfl | ⟨j, hj, rfl⟩ | rfl | hy)
    · omega
    · omega
    · omega
    · cases hy

theorem length_gptWrites (h : total < 2^64) : ∀ w ∈ gptWrites total, w.2.length = sectorSize := by
  have hparts : ∀ lba, ∀ w ∈ partsWrites total lba, w.2.length = sectorSize := by
    intro lba w hw
    obtain ⟨i, hi, rfl⟩ := mem_map.mp hw
    have hi' := mem_range.mp hi
    rw [length_take, length_drop, length_partsBytes]
    simp only [sectorSize]
    omega
  intro w hw
  simp only [gptWrites, mem_cons, mem_append, not_mem_nil, or_false] at hw
  rcases hw with rfl | hw | rfl | hw | rfl
  · exact length_pmbrBytes _ _
  · exact hparts _ w hw
  · exact GptHeader.length_encode (fits_primaryHeader h)
  · exact hparts _ w hw
  · exact GptHeader.length_encode (fits_backupHeader h)

/-- What is on a disk after the table was written. -/
structure Written (total : ℕ) (d : Sectors) : Prop where
  pmbr : d 0 = pmbrBytes 1 (if total > 0xFFFFFFFF then 0xFFFFFFFF else total)
  primary : d 1 = (primaryHeader total).encode
  backup : d (total - 1) = (backupHeader total).encode
  parts : getSectors d 2 32 = partsBytes total
  backup_parts : getSectors d (total - 33) 32 = partsBytes total

theorem written_putEach (hmin : 68 ≤ total) (d : Sectors) : Written total (putEach (gptWrites total) d) := by
  have hnodup := nodup_gptWrites hmin
  have hparts : ∀ lba, (∀ w ∈ partsWrites total lba, w ∈ gptWrites total) →
      getSectors (putEach (gptWrites total) d) lba 32 = partsBytes total := by
    intro lba hsub
    have hpiece : ∀ i < 32, putEach (gptWrites total) d (lba + i) =
        ((partsBytes total).drop (sectorSize * i)).take sectorSize := by
      intro i hi
      exact putEach_of_mem hnodup (hsub _ (mem_map.mpr ⟨i, mem_range.mpr hi, rfl⟩))
    rw [getSectors_congr hpiece, flatMap_chunks (length_partsBytes total)]
  have hmem : ∀ w, w ∈ gptWrites total ↔ w = (0, pmbrBytes 1 (if total > 0xFFFFFFFF then 0xFFFFFFFF
      else total)) ∨ w ∈ partsWrites total 2 ∨ w = (1, (primaryHeader total).encode) ∨
      w ∈ partsWrites total (total - 33) ∨ w = (total - 1, (backupHeader total).encode) := by
    intro w
    simp only [gptWrites, mem_cons, mem_append, not_mem_nil, or_false]
  constructor
  case pmbr => exact putEach_of_mem hnodup ((hmem _).mpr (.inl rfl))
  case primary => exact putEach_of_mem hnodup ((hmem _).mpr (.inr (.inr (.inl rfl))))
  case backup => exact putEach_of_mem hnodup ((hmem _).mpr (.inr (.inr (.inr (.inr rfl)))))
  case parts => exact hparts 2 fun w hw => (hmem w).mpr (.inr (.inl hw))
  case backup_parts => exact hparts _ fun w hw => (hmem w).mpr (.inr (.inr (.inr (.inl hw))))

/-- Blank for `gpt_init_single_disk`: the first sector is not that of a FAT volume, and it is not the
signed one of a table whose header follows. -/
def BlockDev.Blank (dev : BlockDev) : Prop :=
  diskSector0IsFat (dev.sectors 0) = false ∧
    (hasSignature (dev.sectors 0) = true → (dev.sectors 1).take 8 ≠ cstr "EFI PART")

/-- Reading one sector gives the sector. -/
theorem getSectors_one (d : Sectors) (lba : ℕ) : getSectors d lba 1 = d lba := by simp [getSectors]

/-- The second look at a blank disk finds no header, whether or not it fails, and changes nothing. -/
theorem BlockDev.Blank.header {mid : BlockDev} {hdr : Option (List UInt8)} (hblank : dev.Blank)
    (h : (if hasSignature (dev.sectors 0) then dev.read 1 1 else (none, dev)) = (hdr, mid)) :
    hdr.map (List.take 8) ≠ some (cstr "EFI PART") ∧ mid.sectors = dev.sectors ∧
      mid.sector_count = dev.sector_count := by
  split_ifs at h with hsig
  · obtain ⟨hsectors, hcount⟩ := BlockDev.read_snd dev 1 1
    rw [h] at hsectors hcount
    refine ⟨?_, hsectors, hcount⟩
    cases hdr with
    | none => exact nofun
    | some data =>
      rw [(BlockDev.read_some h).1, getSectors_one]
      exact fun heq => hblank.2 hsig (Option.some.inj heq)
  · cases h
    exact ⟨nofun, rfl, rfl⟩

/-- If the call succeeds on a blank disk, then the disk was large enough and all was written. -/
theorem gptInitSingleDisk_zero (hblank : dev.Blank) (h : gptInitSingleDisk dev = (0, dev')) :
    1049634 ≤ dev.sector_count ∧ dev'.sector_count = dev.sector_count ∧
      dev'.sectors = putEach (gptWrites dev.sector_count) dev.sectors := by
  unfold gptInitSingleDisk at h
  split_ifs at h with hsize hsmall
  · cases h
  · cases h
  have hmin : 1049634 ≤ dev.sector_count := by
    simp only [espSizeSectors] at hsmall
    omega
  split at h
  next => cases h
  next sec mid hread =>
    obtain ⟨hsec, hmid⟩ := BlockDev.read_some hread
    have hcount : mid.sector_count = dev.sector_count := by
      have := (BlockDev.read_snd dev 0 1).2
      rw [hread] at this
      exact this
    rw [getSectors_one, ← hmid] at hsec
    have hblank' : mid.Blank := by
      unfold BlockDev.Blank
      rw [hmid]
      exact hblank
    obtain rfl := hsec
    rw [if_neg (by rw [hblank'.1]; exact fun hfat => Bool.false_ne_true hfat.2)] at h
    rcases hhdr : (if hasSignature (mid.sectors 0) then mid.read 1 1 else (none, mid)) with ⟨hdr, mid'⟩
    obtain ⟨hnone, hmid', hcount'⟩ := hblank'.header hhdr
    rw [hhdr] at h
    dsimp only at h
    rw [if_neg hnone] at h
    split at h
    next => cases h
    next last hwrite =>
      obtain ⟨hsectors, hlast⟩ := BlockDev.writeEach_true
        (length_gptWrites (hcount'.trans hcount ▸ dev.count_lt)) hwrite
      obtain rfl := (Prod.mk.inj h).2
      rw [hmid', hmid, hcount', hcount] at hsectors
      exact ⟨hmin, hlast.trans (hcount'.trans hcount), hsectors⟩

/-! ## Well-formedness -/

theorem pmbrEntry_pmbrBytes (count : ℕ) : pmbrEntry (pmbrBytes 1 count) = (0xEE, 1, count % 256^4) := by
  have hfront : (List.replicate 446 (0 : UInt8) ++ [0, 0, 0, 0, 0xEE, 0, 0, 0]).length = 454 := by
    rw [length_append, length_replicate]
    rfl
  have htype : (pmbrBytes 1 count).getD 450 0 = 0xEE := by
    unfold pmbrBytes
    rw [getD_append_right _ _ _ _ (by rw [length_replicate]; decide), length_replicate]
    rfl
  have hdrop : (pmbrBytes 1 count).drop 454 =
      leBytes 4 1 ++ (leBytes 4 count ++ (List.replicate 48 0 ++ [0x55, 0xAA])) := by
    unfold pmbrBytes
    rw [← append_assoc, drop_left' hfront]
  unfold pmbrEntry
  rw [htype, hdrop]
  simp only [takeNum_leBytes]
  rfl

section

variable {d : Sectors} (hw : Written total d) (hlt : total < 2^64)

include hw hlt

theorem primaryOn_eq : primaryOn d = primaryHeader total := by
  rw [primaryOn, hw.primary, GptHeader.decode_encode (fits_primaryHeader hlt)]

theorem backupOn_eq : backupOn d = backupHeader total := by
  have hlba : (primaryHeader total).backup_lba = total - 1 := rfl
  rw [backupOn, primaryOn_eq hw hlt, hlba, hw.backup, GptHeader.decode_encode (fits_backupHeader hlt)]

omit hlt in
theorem partArray_eq {h : GptHeader} (hnum : h.num_parts = 128) (hsize : h.part_entry_size = 128)
    (hlba : h.part_entry_lba = 2 ∨ h.part_entry_lba = total - 33) :
    partArray d h = partsBytes total := by
  have hcount : (128 * 128 + 511) / 512 = 32 := by decide
  have hlen : (partsBytes total).length ≤ 128 * 128 := (length_partsBytes total).le
  have hsectors : getSectors d h.part_entry_lba 32 = partsBytes total := by
    rcases hlba with hlba | hlba
    · rw [hlba, hw.parts]
    · rw [hlba, hw.backup_parts]
  rw [partArray, hnum, hsize, hcount, hsectors, take_of_length_le hlen]

theorem partArray_primary : partArray d (primaryOn d) = partsBytes total := by
  rw [primaryOn_eq hw hlt]
  exact partArray_eq hw rfl rfl (.inl rfl)

theorem partArray_backup : partArray d (backupOn d) = partsBytes total := by
  rw [backupOn_eq hw hlt]
  exact partArray_eq hw rfl rfl (.inr rfl)

/-- The headers are right on every disk. -/
theorem headersOk_of_written : HeadersOk d := by
  have hprimary := primaryOn_eq hw hlt
  have hbackup := backupOn_eq hw hlt
  have hlba : (primaryOn d).backup_lba = total - 1 := by rw [hprimary]; rfl
  constructor
  case current =>
    rw [hlba, hprimary, hbackup]
    exact ⟨rfl, rfl, rfl⟩
  case header_crc =>
    rw [hlba, hw.primary, hw.backup]
    exact ⟨headerCrcOk_seal (fits_primaryDraft hlt) rfl, headerCrcOk_seal (fits_backupDraft hlt) rfl⟩
  case array_crc =>
    unfold ArrayCrcOk
    rw [partArray_primary hw hlt, partArray_backup hw hlt, hprimary, hbackup, ← crc32Compute_eq]
    exact ⟨rfl, rfl⟩

/-- The partitions as they are read. -/
theorem partition_eq : partition d (primaryOn d) 0 = (2048, 1050623) ∧
    partition d (primaryOn d) 1 = (1050624, total - 34) := by
  have hrange : ∀ (p : GptPart) (rest : List UInt8), p.type_guid.length = 16 →
      p.part_guid.length = 16 → partRange (p.encode ++ rest) = (p.first_lba % 256^8, p.last_lba % 256^8) := by
    intro p rest htype hpart
    have hguids : (p.type_guid ++ p.part_guid).length = 32 := by
      rw [length_append, htype, hpart]
    unfold partRange GptPart.encode
    rw [← append_assoc, append_assoc, drop_left' hguids]
    simp only [append_assoc, takeNum_leBytes]
  have hsize : (primaryOn d).part_entry_size = 128 := by
    rw [primaryOn_eq hw hlt]
    rfl
  have hlast : (total - 34) % 256^8 = total - 34 := Nat.mod_eq_of_lt (by omega)
  unfold partition
  rw [partArray_primary hw hlt, hsize, partsBytes]
  constructor
  · rw [mul_zero, drop_zero, hrange _ _ rfl rfl]
    rfl
  · rw [mul_one, drop_left' length_espPart, hrange _ _ rfl rfl]
    exact congrArg (Prod.mk _) hlast

/-- The partitions fit exactly if there is room for the first, and for a sector of the second. -/
theorem layoutOk_iff (hmin : 1049634 ≤ total) : LayoutOk d total ↔ 1050658 ≤ total := by
  obtain ⟨hesp, hroot⟩ := partition_eq hw hlt
  have hfirst : (primaryOn d).first_usable_lba = 2048 := by rw [primaryOn_eq hw hlt]; rfl
  have hlast : (primaryOn d).last_usable_lba = total - 34 := by rw [primaryOn_eq hw hlt]; rfl
  have hregions : regions d = [(0, 1), (1, 1), (2, 32), (2048, 1050623 + 1 - 2048),
      (1050624, total - 34 + 1 - 1050624), (total - 33, 32), (total - 1, 1)] := by
    unfold regions
    rw [hesp, hroot, backupOn_eq hw hlt, primaryOn_eq hw hlt]
    rfl
  constructor
  · intro h
    have hroot' := (h.usable 1 (by decide)).2.1
    rw [hroot] at hroot'
    omega
  · intro hroom
    constructor
    case disjoint =>
      rw [hregions]
      simp only [pairwise_cons, mem_cons, not_mem_nil, or_false, forall_eq_or_imp,
        forall_eq, IsEmpty.forall_iff, implies_true, List.Pairwise.nil, and_true]
      omega
    case inside =>
      rw [hregions]
      simp only [mem_cons, not_mem_nil, or_false, forall_eq_or_imp, forall_eq]
      omega
    case usable =>
      intro i hi
      rw [hfirst, hlast]
      interval_cases i
      · rw [hesp]
        omega
      · rw [hroot]
        omega

omit hlt in
/-- The protective MBR counts the sectors of the disk, not those after the first. -/
theorem pmbrOk_iff (hmin : 1049634 ≤ total) : PmbrOk d total ↔ 2^32 ≤ total := by
  unfold PmbrOk
  rw [hw.pmbr, pmbrEntry_pmbrBytes]
  simp only [true_and]
  split_ifs with hbig
  · rw [min_eq_right (by omega)]
    exact ⟨fun _ => by omega, fun _ => rfl⟩
  · rw [min_eq_left (by omega), Nat.mod_eq_of_lt (by omega)]
    omega

end

/-- What is on the disk after a call that succeeded. -/
theorem written_of_init (hblank : dev.Blank) (h : gptInitSingleDisk dev = (0, dev')) :
    1049634 ≤ dev.sector_count ∧ Written dev.sector_count dev'.sectors := by
  obtain ⟨hmin, -, hsectors⟩ := gptInitSingleDisk_zero hblank h
  refine ⟨hmin, ?_⟩
  rw [hsectors]
  exact written_putEach (by omega) dev.sectors

/-- The table that is written to a blank disk is well formed exactly if the disk has `2^32` sectors or
more. -/
theorem gptOk_iff (hblank : dev.Blank) (h : gptInitSingleDisk dev = (0, dev')) :
    GptOk dev'.sectors dev.sector_count ↔ 2^32 ≤ dev.sector_count := by
  obtain ⟨hmin, hw⟩ := written_of_init hblank h
  constructor
  · exact fun hok => (pmbrOk_iff hw hmin).mp hok.pmbr
  · intro hbig
    exact ⟨headersOk_of_written hw dev.count_lt, (layoutOk_iff hw dev.count_lt hmin).mpr (by omega),
      (pmbrOk_iff hw hmin).mpr hbig⟩

/-! ## Disks -/

/-- A disk of zeros that never fails. -/
def zeroDisk (count : ℕ) (h : count < 2^64) : BlockDev := ⟨512, count, fun _ => List.replicate 512 0, [], h⟩

theorem blank_zeroDisk (count : ℕ) (h : count < 2^64) : (zeroDisk count h).Blank := by
  have hzero : diskSector0IsFat (List.replicate 512 0) = false ∧
      (List.replicate 512 (0 : UInt8)).take 8 ≠ cstr "EFI PART" := by decide +kernel
  exact ⟨hzero.1, fun _ => hzero.2⟩

/-- The call succeeds on blank disks that are large enough and do not fail. -/
theorem gptInitSingleDisk_of_faults (hblank : dev.Blank) (hsize : dev.sector_size = 512)
    (hmin : 1049634 ≤ dev.sector_count) (hfaults : dev.faults = []) :
    ∃ dev', gptInitSingleDisk dev = (0, dev') ∧ dev'.faults = [] := by
  have hread (lba : ℕ) : dev.read lba 1 = (some (dev.sectors lba), dev) := by
    unfold BlockDev.read
    rw [hfaults, getSectors_one]
    dsimp only [List.tail]
    rw [← hfaults]
  unfold gptInitSingleDisk
  rw [if_neg (not_not.mpr hsize), if_neg (by simp only [espSizeSectors]; omega), hread]
  dsimp only
  rw [if_neg (by rw [hblank.1]; exact fun hfat => Bool.false_ne_true hfat.2)]
  rcases hhdr : (if hasSignature (dev.sectors 0) then dev.read 1 1 else (none, dev)) with ⟨hdr, mid⟩
  obtain rfl : mid = dev := by
    rw [hread] at hhdr
    split_ifs at hhdr
    · exact (Prod.mk.inj hhdr).2.symm
    · exact (Prod.mk.inj hhdr).2.symm
  rw [if_neg (hblank.header hhdr).1]
  have hwrites := BlockDev.writeEach_of_faults (gptWrites mid.sector_count) hfaults
  rcases hres : mid.writeEach (gptWrites mid.sector_count) with ⟨r, dev'⟩
  rw [hres] at hwrites
  obtain ⟨rfl, hfaults'⟩ : r = true ∧ dev'.faults = [] := hwrites
  exact ⟨dev', rfl, hfaults'⟩

/-- On a disk of `2^32` sectors the table is well formed. -/
theorem gptOk_iff_large :
    ∃ dev, gptInitSingleDisk (zeroDisk (2^32) (by decide)) = (0, dev) ∧ GptOk dev.sectors (2^32) := by
  obtain ⟨dev, hinit, -⟩ := gptInitSingleDisk_of_faults
    (blank_zeroDisk (2^32) (by decide)) rfl (by decide : 1049634 ≤ 2^32) rfl
  exact ⟨dev, hinit, (gptOk_iff (blank_zeroDisk _ _) hinit).mpr le_rfl⟩

/-- On the smallest disk accepted the second partition ends before it begins, and the first ends behind
the disk. On one of a gibibyte the protective MBR covers a sector that does not exist. -/
theorem small_disk_overlap :
    (∃ dev, gptInitSingleDisk (zeroDisk 1049634 (by decide)) = (0, dev) ∧
      partition dev.sectors (primaryOn dev.sectors) 0 = (2048, 1050623) ∧
      partition dev.sectors (primaryOn dev.sectors) 1 = (1050624, 1049600)) ∧
    ∃ dev, gptInitSingleDisk (zeroDisk (2^21) (by decide)) = (0, dev) ∧
      pmbrEntry (dev.sectors 0) = (0xEE, 1, 2^21) := by
  constructor
  · have hblank := blank_zeroDisk 1049634 (by decide)
    obtain ⟨dev, hinit, -⟩ := gptInitSingleDisk_of_faults hblank rfl (le_refl 1049634) rfl
    obtain ⟨-, hw⟩ := written_of_init hblank hinit
    exact ⟨dev, hinit, partition_eq hw (by decide)⟩
  · have hblank := blank_zeroDisk (2^21) (by decide)
    obtain ⟨dev, hinit, -⟩ := gptInitSingleDisk_of_faults hblank rfl (by decide : 1049634 ≤ 2^21) rfl
    obtain ⟨-, hw⟩ := written_of_init hblank hinit
    have hcount : (zeroDisk (2^21) (by decide)).sector_count = 2^21 := rfl
    refine ⟨dev, hinit, ?_⟩
    rw [hw.pmbr, hcount, if_neg (by decide), pmbrEntry_pmbrBytes]
    rfl

end FreeAsd.Block
