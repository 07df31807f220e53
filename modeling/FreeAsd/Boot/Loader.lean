import FreeAsd.Boot.MemoryMap
import FreeAsd.Lib.Bytes

/-!
# The boot loader

`build_and_handoff` of `boot/asdboot.c`. The boot services are functions on the firmware's state, and the
contents of the map array are a list, which may be longer than the array.
-/

namespace FreeAsd.Boot

/-! ## Boot services -/

/-- What the loader uses of an `EFI_MEMORY_DESCRIPTOR`. -/
structure EfiMemoryDescriptor where
  type : ℕ
  physical_start : ℕ
  num_pages : ℕ
deriving DecidableEq, Repr

/-- The reply of `GetMemoryMap` to a buffer: the map, the size that it needs, or another error. -/
inductive MapReply
  | success (map : List EfiMemoryDescriptor)
  | tooSmall (size : ℕ)
  | error
deriving DecidableEq, Repr

/-- The boot services, as functions on a firmware state. An `Option` or `Bool` tells whether the call
succeeds. -/
structure BootServices (σ : Type) where
  /-- `desc_sz`: the distance of two descriptors in a map. -/
  desc_sz : ℕ
  /-- `GetMemoryMap` with a buffer of a given size. -/
  getMemoryMap : ℕ → σ → MapReply × σ
  /-- `AllocatePool`: type, size. -/
  allocatePool : ℕ → ℕ → σ → Option ℕ × σ
  /-- `AllocatePages` at an address: type, pages, address. -/
  allocatePages : ℕ → ℕ → ℕ → σ → Bool × σ
  /-- `FreePool`. -/
  freePool : ℕ → σ → σ
  /-- `ExitBootServices` with the key of the last map. -/
  exitBootServices : σ → Bool × σ
  /-- Open a file and ask for its size. -/
  fileSize : CStr → σ → Option ℕ × σ
  /-- Read a file into a buffer of a given size: how much was read, and the memory from the buffer
  on. -/
  readFile : CStr → ℕ → σ → Option (ℕ × Mem) × σ
  /-- What the new buffer holds where the descriptor with a given index is read. -/
  stale : σ → ℕ → EfiMemoryDescriptor

/-! ## Files -/

/-- A file in memory: `kernel_buf` and `kernel_sz`, with the memory from there on. -/
structure File where
  buf : ℕ
  sz : ℕ
  bytes : Mem

variable {σ : Type} (fw : BootServices σ)

/-- `efi_read_file`. -/
def efiReadFile (path : CStr) (s : σ) : Option File × σ :=
  match fw.fileSize path s with
  | (none, s) => (none, s)
  | (some file_size, s) =>
    match fw.allocatePool 2 (file_size + 1) s with
    | (none, s) => (none, s)
    | (some buf, s) =>
      match fw.readFile path file_size s with
      | (none, s) => (none, fw.freePool buf s)
      | (some (sz, bytes), s) => (some ⟨buf, sz, bytes⟩, s)

/-- The first of some files that can be read. -/
def readFirst : List CStr → σ → Option File × σ
  | [], s => (none, s)
  | path :: rest, s =>
    match efiReadFile fw path s with
    | (some f, s) => (some f, s)
    | (none, s) => readFirst rest s

/-- The default path of the kernel, for which there are fallbacks. -/
def defaultKernel : CStr := cstr "/boot/asdkernel.bin"

/-- `fallbacks`. -/
def fallbacks : List CStr :=
  [cstr "/asdkernel.bin", cstr "/EFI/BOOT/asdkernel.bin", cstr "boot/asdkernel.bin",
    cstr "asdkernel.bin", cstr "EFI/BOOT/asdkernel.bin"]

/-! ## The kernel image -/

/-- What the loader uses of an `elf64_phdr_t`. -/
structure Elf64Phdr where
  p_type : ℕ
  p_offset : ℕ
  p_paddr : ℕ
  p_filesz : ℕ
  p_memsz : ℕ
deriving DecidableEq, Repr

/-- `eh->e_phoff`. -/
def ePhoff (f : File) : ℕ := f.bytes.rd 32 8

/-- `eh->e_phnum`. -/
def ePhnum (f : File) : ℕ := f.bytes.rd 56 2

/-- The tests on `elf64_ehdr_t`: 64 bytes are there, with the magic number, the 64-bit class and
program headers of 56 bytes that end inside the file. -/
def isElf64 (f : File) : Bool :=
  64 ≤ f.sz && f.bytes 0 = 0x7f && f.bytes 1 = 0x45 && f.bytes 2 = 0x4c && f.bytes 3 = 0x46 &&
    f.bytes 4 = 2 && f.bytes.rd 54 2 = 56 && (ePhoff f + ePhnum f * 56) % 2^64 ≤ f.sz

/-- `ph[i]`. -/
def elfPhdr (f : File) (i : ℕ) : Elf64Phdr :=
  let off := (ePhoff f + i * 56) % 2^64
  { p_type := f.bytes.rd off 4
    p_offset := f.bytes.rd (off + 8) 8
    p_paddr := f.bytes.rd (off + 24) 8
    p_filesz := f.bytes.rd (off + 32) 8
    p_memsz := f.bytes.rd (off + 40) 8 }

/-- The program headers. -/
def elfPhdrs (f : File) : List Elf64Phdr := (List.range (ePhnum f)).map (elfPhdr f)

/-- The segments that are loaded: `PT_LOAD`, not empty and not below 16 MiB. -/
def Elf64Phdr.isLoaded (p : Elf64Phdr) : Bool :=
  p.p_type = 1 && p.p_memsz ≠ 0 && 0x1000000 ≤ p.p_paddr

/-- `x & ~0xFFF`. -/
def pageDown (x : ℕ) : ℕ := x / pageSize * pageSize

/-- `(x + 0xFFF) & ~0xFFF` on 64 bits. -/
def pageUp (x : ℕ) : ℕ := pageDown ((x + 0xFFF) % 2^64)

/-- `seg_lo`. -/
def Elf64Phdr.segLo (p : Elf64Phdr) : ℕ := pageDown p.p_paddr

/-- `seg_hi`. -/
def Elf64Phdr.segHi (p : Elf64Phdr) : ℕ := pageUp (p.p_paddr + p.p_memsz)

/-- The loop that computes `low` and `high`; `none` if a segment ends outside the file. -/
def spanLoop (kernel_sz : ℕ) : List Elf64Phdr → ℕ → ℕ → Option (ℕ × ℕ)
  | [], low, high => some (low, high)
  | p :: rest, low, high =>
    if !p.isLoaded then spanLoop kernel_sz rest low high
    else if (p.p_offset + p.p_filesz) % 2^64 > kernel_sz then none
    else spanLoop kernel_sz rest (min p.segLo low) (max p.segHi high)

/-- Where the kernel is: `kernel_phys_lo`, `kernel_phys_hi` and the segments loaded there. -/
structure Kernel where
  phys_lo : ℕ
  phys_hi : ℕ
  segments : List Elf64Phdr
deriving DecidableEq, Repr

/-- Load the segments of an ELF image. The pages are allocated with type `EFI_LOADER_DATA`, which the
source defines as 4. Any other image stays in its buffer. -/
def loadElf (f : File) (s : σ) : Option (Kernel × σ) :=
  if isElf64 f then
    match spanLoop f.sz (elfPhdrs f) (2^64 - 1) 0 with
    | none => none
    | some (low, high) =>
      if low ≠ 2^64 - 1 ∧ high > low then
        match fw.allocatePages 4 ((high - low) >>> 12) low s with
        | (false, _) => none
        | (true, s) => some (⟨low, high, (elfPhdrs f).filter (·.isLoaded)⟩, s)
      else some (⟨0, 0, []⟩, s)
  else some (⟨0, 0, []⟩, s)

/-- What the loader uses of an `abc_entry_t`. -/
structure AbcEntry where
  kernel : CStr
  initrd : CStr
  cmdline : CStr
  uki : CStr
  is_uki : Bool
deriving DecidableEq, Repr

/-- The files of an entry: the kernel's, where it was loaded, and the initrd's buffer and size. -/
structure Loaded where
  file : File
  kernel : Kernel
  initrd_buf : ℕ
  initrd_sz : ℕ

/-- Step 1 of `build_and_handoff`. -/
def loadFiles (entry : AbcEntry) (s : σ) : Option (Loaded × σ) :=
  if entry.is_uki then
    match efiReadFile fw entry.uki s with
    | (none, _) => none
    | (some f, s) => some (⟨f, ⟨0, 0, []⟩, 0, 0⟩, s)
  else
    match readFirst fw (entry.kernel :: if entry.kernel = defaultKernel then fallbacks else []) s with
    | (none, _) => none
    | (some f, s) =>
      match loadElf fw f s with
      | none => none
      | some (k, s) =>
        if entry.initrd = [] then some (⟨f, k, 0, 0⟩, s)
        else
          match efiReadFile fw entry.initrd s with
          | (none, _) => none
          | (some r, s) => some (⟨f, k, r.buf, r.sz⟩, s)

/-! ## The memory map -/

/-- `efi_mem_type_to_asd`. -/
def efiMemTypeToAsd : ℕ → AsdMemType
  | 1 => .loader
  | 2 => .loader
  | 3 => .free
  | 4 => .free
  | 7 => .free
  | 9 => .acpiRec
  | 10 => .acpiNvs
  | _ => .reserved

/-- The entry of a descriptor. -/
def toAsd (d : EfiMemoryDescriptor) : AsdMmapEntry :=
  ⟨d.physical_start, d.num_pages, efiMemTypeToAsd d.type⟩

/-- `build_asd_mmap`: the entries of the map, and behind them what the array held before. -/
def buildAsdMmap (asd_mmap : List AsdMmapEntry) (map : List EfiMemoryDescriptor) :
    List AsdMmapEntry :=
  map.map toAsd ++ asd_mmap.drop map.length

/-- A range to mark: base, size, type. -/
structure MarkRange where
  base : ℕ
  size : ℕ
  type : AsdMemType
deriving DecidableEq, Repr

/-- The body of the loop of `mark_asd_range`: an entry that meets the pages of the range is marked as
a whole. -/
def markEntry (r : MarkRange) (e : AsdMmapEntry) : AsdMmapEntry :=
  let lo := pageDown r.base
  let hi := pageUp (r.base + r.size)
  let rhi := (e.base + e.pages * 4096) % 2^64
  if hi ≤ e.base ∨ rhi ≤ lo then e else { e with type := r.type }

/-- `mark_asd_range` on the first `entry_count` entries. -/
def markAsdRange (entry_count : ℕ) (asd_mmap : List AsdMmapEntry) (r : MarkRange) :
    List AsdMmapEntry :=
  if r.base = 0 ∨ r.size = 0 then asd_mmap
  else (asd_mmap.take entry_count).map (markEntry r) ++ asd_mmap.drop entry_count

/-- A map in a buffer: `mmap`, `map_sz` and the descriptors read from it. -/
structure MapBuffer where
  mmap : ℕ
  map_sz : ℕ
  descs : List EfiMemoryDescriptor
  /-- The descriptors come from `GetMemoryMap`. -/
  valid : Bool
deriving DecidableEq, Repr

/-- The loops that get the final map, with the number of tries left. After the last try the new
buffer is used as it is, because the status is that of its allocation. -/
def mapLoop : ℕ → ℕ → ℕ → σ → Option (MapBuffer × σ)
  | 0, mmap, map_sz, s =>
    some (⟨mmap, map_sz, (List.range (map_sz / fw.desc_sz)).map (fw.stale s), false⟩, s)
  | tries + 1, mmap, map_sz, s =>
    match fw.getMemoryMap map_sz s with
    | (.success map, s) => some (⟨mmap, map.length * fw.desc_sz, map, true⟩, s)
    | (.error, _) => none
    | (.tooSmall cur_sz, s) =>
      let map_sz := cur_sz + fw.desc_sz * 8 + 4096
      match fw.allocatePool 2 map_sz (fw.freePool mmap s) with
      | (none, _) => none
      | (some mmap, s) => mapLoop tries mmap map_sz s

/-- The size for the first buffer: what the first call asks for, with room for eight more. -/
def firstSize : MapReply → ℕ
  | .success map => map.length * fw.desc_sz + fw.desc_sz * 8
  | .tooSmall size => size + fw.desc_sz * 8
  | .error => 0

/-- Step 3 of `build_and_handoff`: the first map. An allocation that fails leaves a null pointer. -/
def firstMap (s : σ) : Option (MapBuffer × σ) :=
  let q := fw.getMemoryMap 0 s
  let map_sz := firstSize fw q.1
  let p := fw.allocatePool 2 map_sz q.2
  match fw.getMemoryMap map_sz p.2 with
  | (.success map, s) => some (⟨p.1.getD 0, map.length * fw.desc_sz, map, true⟩, s)
  | _ => none

/-! ## The hand-off -/

/-- The framebuffer: `g_fb_phys`, `g_fb_stride` and `g_fb_height`. -/
structure Framebuffer where
  phys : ℕ
  stride : ℕ
  height : ℕ
deriving DecidableEq, Repr

/-- `sizeof(asd_bib_t)`. -/
def sizeofBib : ℕ := 96

/-- `sizeof(asd_mmap_entry_t)`. -/
def sizeofEntry : ℕ := 24

/-- What the loader has in memory when it asks for the final map. -/
structure Context where
  loaded : Loaded
  fb : Framebuffer
  cmdline_buf : ℕ
  clen : ℕ
  bib : ℕ
  /-- The address of the map array. -/
  asd_mmap : ℕ
  /-- The number of entries that the array was allocated for. -/
  entry_count : ℕ

/-- The ranges that `mark_boot_reserved` marks, in its order. -/
def bootRanges (x : Context) : List MarkRange :=
  let k := x.loaded.kernel
  let f := x.loaded.file
  [⟨x.bib, sizeofBib, .loader⟩, ⟨x.asd_mmap, sizeofEntry * x.entry_count, .loader⟩] ++
  (if x.cmdline_buf ≠ 0 ∧ x.clen ≠ 0 then [⟨x.cmdline_buf, x.clen + 1, .loader⟩] else []) ++
  (if x.loaded.initrd_buf ≠ 0 ∧ x.loaded.initrd_sz ≠ 0 then
    [⟨x.loaded.initrd_buf, x.loaded.initrd_sz, .initrd⟩] else []) ++
  (if k.phys_lo ≠ 0 ∧ k.phys_hi ≠ 0 ∧ k.phys_hi > k.phys_lo then
    [⟨k.phys_lo, k.phys_hi - k.phys_lo, .kernel⟩]
  else if f.buf ≠ 0 ∧ f.sz ≠ 0 then [⟨f.buf, f.sz, .kernel⟩] else []) ++
  (if x.bib ≠ 0 ∧ x.fb.phys ≠ 0 ∧ x.fb.stride ≠ 0 ∧ x.fb.height ≠ 0 then
    [⟨x.fb.phys, x.fb.stride * x.fb.height, .fb⟩] else [])

/-- `mark_boot_reserved`. -/
def markBootReserved (x : Context) (asd_mmap : List AsdMmapEntry) : List AsdMmapEntry :=
  (bootRanges x).foldl (markAsdRange x.entry_count) asd_mmap

/-- Get the final map, rebuild the array from it and mark what the loader uses. -/
def remap (x : Context) (asd_mmap : List AsdMmapEntry) (b : MapBuffer) (s : σ) :
    Option ((List AsdMmapEntry × MapBuffer) × σ) :=
  match mapLoop fw 4 b.mmap b.map_sz s with
  | none => none
  | some (b', s) => some ((markBootReserved x (buildAsdMmap asd_mmap b'.descs), b'), s)

/-- What the kernel gets when the loader jumps to it. -/
structure Handoff where
  ctx : Context
  /-- The entries at `bib->mmap_phys`. -/
  entries : List AsdMmapEntry
  /-- `bib->mmap_count`. -/
  mmap_count : ℕ
  /-- The entries come from a map that the firmware returned. -/
  mapped : Bool

/-- Steps 2 to 4 of `build_and_handoff`, up to the first build of the array. -/
def prepare (entry : AbcEntry) (fb : Framebuffer) (s : σ) :
    Option ((Context × List AsdMmapEntry × MapBuffer) × σ) :=
  match loadFiles fw entry s with
  | none => none
  | some (loaded, s) =>
    let c := fw.allocatePool 2 (entry.cmdline.length + 1) s
    match firstMap fw c.2 with
    | none => none
    | some (b, s) =>
      let entry_count := b.map_sz / fw.desc_sz
      let p := fw.allocatePool 2 sizeofBib s
      let a := fw.allocatePool 2 (sizeofEntry * entry_count) p.2
      some ((⟨loaded, fb, c.1.getD 0, entry.cmdline.length, p.1.getD 0, a.1.getD 0, entry_count⟩,
        buildAsdMmap [] b.descs, b), a.2)

/-- `build_and_handoff`: what it hands to the kernel, or `none` if it returns. -/
def buildAndHandoff (entry : AbcEntry) (fb : Framebuffer) (s : σ) : Option (Handoff × σ) :=
  match prepare fw entry fb s with
  | none => none
  | some ((x, asd_mmap, b), s) =>
    match remap fw x asd_mmap b s with
    | none => none
    | some ((asd_mmap, b), s) =>
      match fw.exitBootServices s with
      | (true, s) => some (⟨x, asd_mmap, b.descs.length % 2^32, b.valid⟩, s)
      | (false, s) =>
        -- The key was out of date: once more, with a new map.
        match remap fw x asd_mmap b s with
        | none => none
        | some ((asd_mmap, b), s) =>
          match fw.exitBootServices s with
          | (true, s) => some (⟨x, asd_mmap, b.descs.length % 2^32, b.valid⟩, s)
          | (false, _) => none

end FreeAsd.Boot
