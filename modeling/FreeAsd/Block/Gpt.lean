import FreeAsd.Block.Device
import FreeAsd.Lib.Crc

/-!
# The partition table of the installer

What `gpt_init_single_disk` of `kernel/block/gpt.c` writes: a protective MBR, a table with two partitions, and
a backup at the end of the disk; and how a reader finds it there (`GptOk`).
-/

namespace FreeAsd.Block

open Nat

/-- `ESP_SIZE_SECTORS`. -/
abbrev espSizeSectors : ℕ := 1048576

/-! ## CRC-32 -/

/-- The polynomial. -/
def crcPoly : BitVec 32 := 0xEDB88320#32

/-- An entry of `crc32_table`, as `crc32_init` computes it. -/
def crc32Table (i : BitVec 32) : BitVec 32 := (Crc.shift crcPoly)^[8] i

/-- `crc32_compute`. -/
def crc32Compute (bytes : List UInt8) : BitVec 32 :=
  Crc.tabled crc32Table bytes 0xFFFFFFFF#32 ^^^ 0xFFFFFFFF#32

/-- CRC-32, bit by bit. -/
def crc32 (bytes : List UInt8) : BitVec 32 :=
  Crc.serial crcPoly bytes 0xFFFFFFFF#32 ^^^ 0xFFFFFFFF#32

theorem crc32Compute_eq (bytes : List UInt8) : crc32Compute bytes = crc32 bytes := by
  have htable : ∀ b : BitVec 32, crc32Table (b &&& 0xFF#32) = (Crc.shift crcPoly)^[8] (b &&& 0xFF#32) :=
    fun _ => rfl
  rw [crc32Compute, crc32, Crc.tabled_eq_serial htable]

/-! ## Structures on disk -/

/-- The protective MBR: one entry of type `0xEE`, and the signature. -/
def pmbrBytes (lba_first lba_count : ℕ) : List UInt8 :=
  List.replicate 446 0 ++ ([0, 0, 0, 0, 0xEE, 0, 0, 0] ++ (leBytes 4 lba_first ++ (leBytes 4 lba_count ++
    (List.replicate 48 0 ++ [0x55, 0xAA]))))

/-- `gpt_header_t`, less the bytes after the header. -/
structure GptHeader where
  signature : List UInt8
  revision : ℕ
  header_size : ℕ
  header_crc32 : ℕ
  reserved : ℕ
  current_lba : ℕ
  backup_lba : ℕ
  first_usable_lba : ℕ
  last_usable_lba : ℕ
  disk_guid : List UInt8
  part_entry_lba : ℕ
  num_parts : ℕ
  part_entry_size : ℕ
  part_array_crc32 : ℕ
deriving DecidableEq

/-- The bytes of a header, which fill a sector. -/
def GptHeader.encode (h : GptHeader) : List UInt8 :=
  h.signature ++ (leBytes 4 h.revision ++ (leBytes 4 h.header_size ++ (leBytes 4 h.header_crc32 ++
    (leBytes 4 h.reserved ++ (leBytes 8 h.current_lba ++ (leBytes 8 h.backup_lba ++
    (leBytes 8 h.first_usable_lba ++ (leBytes 8 h.last_usable_lba ++ (h.disk_guid ++
    (leBytes 8 h.part_entry_lba ++ (leBytes 4 h.num_parts ++ (leBytes 4 h.part_entry_size ++
    (leBytes 4 h.part_array_crc32 ++ List.replicate 420 0)))))))))))))

/-- A header read from a sector. -/
def GptHeader.decode (bs : List UInt8) : GptHeader :=
  let (signature, bs) := (bs.take 8, bs.drop 8)
  let (revision, bs) := takeNum 4 bs
  let (header_size, bs) := takeNum 4 bs
  let (header_crc32, bs) := takeNum 4 bs
  let (reserved, bs) := takeNum 4 bs
  let (current_lba, bs) := takeNum 8 bs
  let (backup_lba, bs) := takeNum 8 bs
  let (first_usable_lba, bs) := takeNum 8 bs
  let (last_usable_lba, bs) := takeNum 8 bs
  let (disk_guid, bs) := (bs.take 16, bs.drop 16)
  let (part_entry_lba, bs) := takeNum 8 bs
  let (num_parts, bs) := takeNum 4 bs
  let (part_entry_size, bs) := takeNum 4 bs
  let (part_array_crc32, _) := takeNum 4 bs
  ⟨signature, revision, header_size, header_crc32, reserved, current_lba, backup_lba, first_usable_lba,
    last_usable_lba, disk_guid, part_entry_lba, num_parts, part_entry_size, part_array_crc32⟩

/-- `gpt_part_t`. -/
structure GptPart where
  type_guid : List UInt8
  part_guid : List UInt8
  first_lba : ℕ
  last_lba : ℕ
  attrs : ℕ
  name : List UInt8
deriving DecidableEq

/-- The 128 bytes of an entry. -/
def GptPart.encode (p : GptPart) : List UInt8 :=
  p.type_guid ++ (p.part_guid ++ (leBytes 8 p.first_lba ++ (leBytes 8 p.last_lba ++
    (leBytes 8 p.attrs ++ p.name))))

/-- The first and the last sector in an entry. -/
def partRange (bs : List UInt8) : ℕ × ℕ :=
  let (first, bs) := takeNum 8 (bs.drop 32)
  let (last, _) := takeNum 8 bs
  (first, last)

/-- `guid_from_bytes`. -/
def guidFromBytes (d1 d2 d3 : ℕ) (rest : List UInt8) : List UInt8 :=
  (leBytes 4 d1).reverse ++ (leBytes 2 d2).reverse ++ (leBytes 2 d3).reverse ++ rest

/-- `utf8_to_utf16le`, into 36 characters that are zero. -/
def utf8ToUtf16le (s : CStr) : List UInt8 :=
  (((s.take 35).flatMap fun c => [c, 0]) ++ List.replicate 72 0).take 72

/-- The type of the first partition. -/
def espType : List UInt8 :=
  guidFromBytes 0xC12A7328 0xF81F 0x11D2 [0xBA, 0x4B, 0x00, 0xA0, 0xC9, 0x3E, 0xC9, 0x3B]

/-- The type of the second partition. -/
def rootType : List UInt8 :=
  guidFromBytes 0x0FC63DAF 0x8483 0x4772 [0x8E, 0x79, 0x3D, 0x69, 0xD8, 0x47, 0x7D, 0xE4]

/-! ## The layout -/

section

variable (total : ℕ)

/-- The first partition. -/
def espPart : GptPart := ⟨espType, espType, 2048, 2048 + espSizeSectors - 1, 0, utf8ToUtf16le (cstr "ESP")⟩

/-- The second partition. -/
def rootPart : GptPart :=
  ⟨rootType, rootType, 2048 + espSizeSectors, total - 34, 0, utf8ToUtf16le (cstr "ASD root")⟩

/-- `g_gpt_parts`. -/
def partsBytes : List UInt8 :=
  espPart.encode ++ ((rootPart total).encode ++ List.replicate (128 * 126) 0)

/-- `g_gpt_ph`, before its check is computed. -/
def primaryDraft : GptHeader where
  signature := cstr "EFI PART"
  revision := 0x00010000
  header_size := 92
  header_crc32 := 0
  reserved := 0
  current_lba := 1
  backup_lba := total - 1
  first_usable_lba := 2048
  last_usable_lba := total - 34
  disk_guid := List.replicate 16 0x11
  part_entry_lba := 2
  num_parts := 128
  part_entry_size := 128
  part_array_crc32 := (crc32Compute (partsBytes total)).toNat

/-- The check of a header is filled in. -/
def GptHeader.seal (h : GptHeader) : GptHeader :=
  { h with header_crc32 := (crc32Compute ({ h with header_crc32 := 0 }.encode.take h.header_size)).toNat }

/-- `g_gpt_ph`. -/
def primaryHeader : GptHeader := (primaryDraft total).seal

/-- `g_gpt_bh`. -/
def backupHeader : GptHeader :=
  { primaryHeader total with
    current_lba := total - 1
    backup_lba := 1
    part_entry_lba := total - 33 }.seal

/-- The sectors of the array of partitions, from `lba` on. -/
def partsWrites (lba : ℕ) : List (ℕ × List UInt8) :=
  (List.range 32).map fun i => (lba + i, ((partsBytes total).drop (sectorSize * i)).take sectorSize)

/-- All the writes, in the order in which they are made. -/
def gptWrites : List (ℕ × List UInt8) :=
  (0, pmbrBytes 1 (if total > 0xFFFFFFFF then 0xFFFFFFFF else total)) :: (partsWrites total 2 ++
    ((1, (primaryHeader total).encode) :: (partsWrites total (total - 33) ++
      [(total - 1, (backupHeader total).encode)])))

end

/-- The signature of an MBR. -/
def hasSignature (sec : List UInt8) : Bool := sec.getD 510 0 = 0x55 ∧ sec.getD 511 0 = 0xAA

/-- `disk_sector0_is_fat`. -/
def diskSector0IsFat (sec : List UInt8) : Bool :=
  hasSignature sec ∧
    ((sec.drop 82).take 3 = cstr "FAT" ∨ (sec.drop 54).take 3 = cstr "FAT")

/-- `gpt_init_single_disk`. A disk that has a file system or a table is left alone. -/
def gptInitSingleDisk (dev : BlockDev) : ℤ × BlockDev :=
  if dev.sector_size ≠ 512 then (-1, dev)
  else if dev.sector_count < 34 + espSizeSectors + 1024 then (-1, dev)
  else
    match dev.read 0 1 with
    | (none, dev) => (-1, dev)
    | (some sec, dev) =>
      if hasSignature sec ∧ diskSector0IsFat sec then (0, dev)
      else
        let (hdr, dev) := if hasSignature sec then dev.read 1 1 else (none, dev)
        if (hdr.map (List.take 8)) = some (cstr "EFI PART") then (0, dev)
        else
          match dev.writeEach (gptWrites dev.sector_count) with
          | (false, dev) => (-1, dev)
          | (true, dev) => (0, dev)

/-! ## Reading a table -/

/-- The check of a header, over its bytes with the field of the check zero. -/
def HeaderCrcOk (bs : List UInt8) : Prop :=
  (GptHeader.decode bs).header_crc32 =
    (crc32 (bs.take 16 ++ (List.replicate 4 0 ++
      (bs.drop 20).take ((GptHeader.decode bs).header_size - 20)))).toNat

/-- The array that a header points to. -/
def partArray (d : Sectors) (h : GptHeader) : List UInt8 :=
  (getSectors d h.part_entry_lba ((h.num_parts * h.part_entry_size + 511) / 512)).take
    (h.num_parts * h.part_entry_size)

/-- The check of the array. -/
def ArrayCrcOk (d : Sectors) (h : GptHeader) : Prop :=
  h.part_array_crc32 = (crc32 (partArray d h)).toNat

/-- The range of a partition. -/
def partition (d : Sectors) (h : GptHeader) (i : ℕ) : ℕ × ℕ :=
  partRange ((partArray d h).drop (h.part_entry_size * i))

/-- The type, the first sector and the number of sectors in the first entry of an MBR. -/
def pmbrEntry (bs : List UInt8) : UInt8 × ℕ × ℕ :=
  let (first, rest) := takeNum 4 (bs.drop 454)
  let (count, _) := takeNum 4 rest
  (bs.getD 450 0, first, count)

section

variable (d : Sectors)

/-- The header at the beginning of the disk. -/
def primaryOn : GptHeader := GptHeader.decode (d 1)

/-- The header that it gives as its backup. -/
def backupOn : GptHeader := GptHeader.decode (d (primaryOn d).backup_lba)

/-- The runs of sectors that a table takes up, each with its length. -/
def regions : List (ℕ × ℕ) :=
  let esp := partition d (primaryOn d) 0
  let root := partition d (primaryOn d) 1
  [(0, 1), (1, 1), ((primaryOn d).part_entry_lba, 32), (esp.1, esp.2 + 1 - esp.1),
    (root.1, root.2 + 1 - root.1), ((backupOn d).part_entry_lba, 32), ((primaryOn d).backup_lba, 1)]

/-- The headers are where they say, and point at each other. Their checks are right, and those of the
arrays that they point to. -/
structure HeadersOk : Prop where
  current : (primaryOn d).current_lba = 1 ∧ (backupOn d).current_lba = (primaryOn d).backup_lba ∧
    (backupOn d).backup_lba = 1
  header_crc : HeaderCrcOk (d 1) ∧ HeaderCrcOk (d (primaryOn d).backup_lba)
  array_crc : ArrayCrcOk d (primaryOn d) ∧ ArrayCrcOk d (backupOn d)

/-- Nothing overlaps and all is on the disk, and the partitions are in the usable part. -/
structure LayoutOk (total : ℕ) : Prop where
  disjoint : (regions d).Pairwise fun r s => r.1 + r.2 ≤ s.1 ∨ s.1 + s.2 ≤ r.1
  inside : ∀ r ∈ regions d, r.1 + r.2 ≤ total
  usable : ∀ i < 2, (primaryOn d).first_usable_lba ≤ (partition d (primaryOn d) i).1 ∧
    (partition d (primaryOn d) i).1 ≤ (partition d (primaryOn d) i).2 ∧
    (partition d (primaryOn d) i).2 ≤ (primaryOn d).last_usable_lba

/-- The protective MBR covers the disk from sector 1 on, as far as it can. -/
def PmbrOk (total : ℕ) : Prop :=
  let (type, first, count) := pmbrEntry (d 0)
  type = 0xEE ∧ first = 1 ∧ first + count - 1 = min (total - 1) (2^32 - 1)

/-- The table on a disk of `total` sectors is well formed. -/
structure GptOk (total : ℕ) : Prop where
  headers : HeadersOk d
  layout : LayoutOk d total
  pmbr : PmbrOk d total

end

/-! ## What is written is what is read -/

/-- The fields of a header have the sizes that the structure gives them. -/
structure GptHeader.Fits (h : GptHeader) : Prop where
  signature : h.signature.length = 8
  revision : h.revision < 256^4
  header_size : h.header_size < 256^4
  header_crc32 : h.header_crc32 < 256^4
  reserved : h.reserved < 256^4
  current_lba : h.current_lba < 256^8
  backup_lba : h.backup_lba < 256^8
  first_usable_lba : h.first_usable_lba < 256^8
  last_usable_lba : h.last_usable_lba < 256^8
  disk_guid : h.disk_guid.length = 16
  part_entry_lba : h.part_entry_lba < 256^8
  num_parts : h.num_parts < 256^4
  part_entry_size : h.part_entry_size < 256^4
  part_array_crc32 : h.part_array_crc32 < 256^4

namespace GptHeader

variable {h : GptHeader}

theorem length_encode (hfits : h.Fits) : h.encode.length = sectorSize := by
  unfold encode
  simp only [List.length_append, length_leBytes, List.length_replicate, hfits.signature, hfits.disk_guid]

theorem decode_encode (hfits : h.Fits) : decode h.encode = h := by
  unfold decode encode
  simp only [List.take_left' hfits.signature, List.drop_left' hfits.signature, takeNum_leBytes,
    List.take_left' hfits.disk_guid, List.drop_left' hfits.disk_guid, mod_eq_of_lt hfits.revision,
    mod_eq_of_lt hfits.header_size, mod_eq_of_lt hfits.header_crc32, mod_eq_of_lt hfits.reserved,
    mod_eq_of_lt hfits.current_lba, mod_eq_of_lt hfits.backup_lba, mod_eq_of_lt hfits.first_usable_lba,
    mod_eq_of_lt hfits.last_usable_lba, mod_eq_of_lt hfits.part_entry_lba, mod_eq_of_lt hfits.num_parts,
    mod_eq_of_lt hfits.part_entry_size, mod_eq_of_lt hfits.part_array_crc32]

/-- The header with its check filled in fits as well. -/
theorem Fits.seal (hfits : h.Fits) : h.seal.Fits :=
  { hfits with header_crc32 := BitVec.isLt _ }

end GptHeader

end FreeAsd.Block
