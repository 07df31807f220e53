import FreeAsd.Lib.Strings
import FreeAsd.Vfs.Path

/-!
# The file system in memory

`kernel/vfs/ramfs.c`: a table of 256 entries, each with its whole path. Directories are listed by
looking for the paths that begin with theirs.
-/

namespace FreeAsd.Ramfs

open Vfs (slash)

/-- `RAMFS_MAX_FILES`. -/
abbrev maxFiles : ℕ := 256

/-- `RAMFS_NAME_LEN` and `VFS_DIRENT_NAME_LEN`. -/
abbrev nameLen : ℕ := 256

/-- `VFS_NODE_FILE` and `VFS_NODE_DIR`. -/
inductive Kind
  | file
  | dir
  deriving DecidableEq

/-- `ramfs_entry_t`, with the `size` bytes at `data`. -/
structure Entry where
  path : CStr
  data : List UInt8
  kind : Kind
  valid : Bool

/-- The table of `ramfs_t`. -/
abbrev Table := ℕ → Entry

/-- The table after `memset`. -/
def Table.empty : Table := fun _ => ⟨[], [], .file, false⟩

/-! ## `ramfs_readdir` -/

/-- `vfs_dirent_t`. -/
structure Dirent where
  name : Mem
  kind : Kind
  size : ℕ

/-- `strncpy`: zeros follow a string that is shorter than `n`. -/
def strncpy (dest : Mem) (src : CStr) (n : ℕ) : Mem := fun i => if i < n then src.getD i 0 else dest i

/-- `strrchr`, as the index of the last `c`. -/
def strrchr (c : UInt8) : CStr → Option ℕ
  | [] => none
  | x :: s =>
    match strrchr c s with
    | some i => some (i + 1)
    | none => if x = c then some 0 else none

/-- The name of an entry relative to the directory, if it is below it. -/
def relName (dir path : CStr) : Option CStr :=
  if dir = [slash] then
    if path.head? ≠ some slash ∨ path.tail = [] then none else some path.tail
  else if dir.isPrefixOf path ∧ (path.drop dir.length).head? = some slash then
    some (path.drop (dir.length + 1))
  else none

/-- The test for a subdirectory that was listed before: `strncmp` of `sub_len` characters, none of
which is NUL in `name`, and the terminator. -/
def listed (d : Dirent) (name : CStr) (sub_len : ℕ) : Bool :=
  (List.range sub_len).all (fun i => d.name i = name.getD i 0) && d.name sub_len = 0 && d.kind = .dir

/-- The path of the directory of a handle; the root without an entry of its own is a static one. -/
def dirPath (t : Table) : Option ℕ → CStr
  | none => [slash]
  | some k => (t k).path

/-- The relative name of entry `i`, where the loop does not go on to the next entry at once. -/
def entryName (t : Table) (f : Option ℕ) (i : ℕ) : Option CStr :=
  if (t i).valid = false ∨ f = some i then none else relName (dirPath t f) (t i).path

/-- The body of the loop of `ramfs_readdir`, which ends when the buffer is full. -/
def readdirStep (t : Table) (f : Option ℕ) (cap : ℕ) (acc : (ℕ → Dirent) × ℕ) (i : ℕ) :
    (ℕ → Dirent) × ℕ :=
  if cap ≤ acc.2 then acc
  else
    match entryName t f i with
    | none => acc
    | some name =>
      match strrchr slash name with
      | some sub_len =>
        if (List.range acc.2).any fun j => listed (acc.1 j) name sub_len then acc
        else
          (Function.update acc.1 acc.2 ⟨strncpy (acc.1 acc.2).name name (sub_len + 1), .dir, 0⟩,
            acc.2 + 1)
      | none =>
        (Function.update acc.1 acc.2
          ⟨strncpy (acc.1 acc.2).name name nameLen, (t i).kind, (t i).data.length⟩, acc.2 + 1)

/-- The loop of `ramfs_readdir` over the first `n` entries. -/
def readdirLoop (t : Table) (f : Option ℕ) (cap : ℕ) (buf : ℕ → Dirent) (n : ℕ) :
    (ℕ → Dirent) × ℕ :=
  (List.range n).foldl (readdirStep t f cap) (buf, 0)

/-- `ramfs_readdir`: the buffer and the number of names. -/
def ramfsReaddir (t : Table) (f : Option ℕ) (cap : ℕ) (buf : ℕ → Dirent) : (ℕ → Dirent) × ℕ :=
  readdirLoop t f cap buf maxFiles

end FreeAsd.Ramfs
