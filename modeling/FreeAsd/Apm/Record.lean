import FreeAsd.Lib.Text

/-!
# Records of packages

The texts that `userland/bin/apm.c` keeps about packages: lines of a key, `=` and a value, read by `kv_get`
and `pkg_parse` and written by `pkg_serialize`, and the index of a repository, which `idx_find` searches.
Every string is cut to the buffer that it is copied into.
-/

namespace FreeAsd.Apm

open Text

/-- `PKG_NAME_LEN`. -/
abbrev pkgNameLen : ℕ := 64

/-- `PKG_VER_LEN`. -/
abbrev pkgVerLen : ℕ := 32

/-- `PKG_DESC_LEN`. -/
abbrev pkgDescLen : ℕ := 256

/-- `PKG_CKSUM_LEN`. -/
abbrev pkgCksumLen : ℕ := 80

/-- The size of `filename` in `PkgInfo`. -/
abbrev pkgFileLen : ℕ := pkgNameLen + pkgVerLen + 20

/-- `PATH_LEN`. -/
abbrev pathLen : ℕ := 256

/-- `MAX_FILES_PER_PKG`. -/
abbrev maxFilesPerPkg : ℕ := 128

/-- `MAX_DEPS`. -/
abbrev maxDeps : ℕ := 32

/-- `scopy`: what is in a buffer of `max` bytes afterwards. -/
def scopy (max : ℕ) (src : CStr) : CStr := src.take (max - 1)

/-- `scat`. -/
def scat (max : ℕ) (dst src : CStr) : CStr := dst ++ scopy (max - dst.length) src

/-- `PkgInfo`, with its lists up to `ndepends` and `nfiles`. -/
structure PkgInfo where
  name : CStr
  version : CStr
  arch : CStr
  description : CStr
  filename : CStr
  checksum : CStr
  size : ℤ
  installed_size : ℤ
  depends : List CStr
  repo : CStr
  files : List CStr
deriving DecidableEq

/-! ## Keys and values -/

/-- The value after a key: up to the end of the line, and as much as fits. -/
def kvValue (max : ℕ) (p : CStr) : CStr := (p.takeWhile fun c => c ≠ 10 ∧ c ≠ 13).take (max - 1)

/-- The loop of `kv_get`. The flag tells whether the text stands at the beginning of a line. -/
def kvLoop (key : CStr) (max : ℕ) : Bool → CStr → Option CStr
  | _, [] => none
  | start, c :: p =>
    if start ∧ (key ++ [61]) <+: c :: p then some (kvValue max ((c :: p).drop (key.length + 1)))
    else kvLoop key max (c = 10) p

/-- `kv_get`. -/
def kvGet (data key : CStr) (max : ℕ) : Option CStr := kvLoop key max true data

/-- The number in a value, in a `long`. -/
def readLong (s : CStr) : ℤ :=
  s.foldl (fun v c => Int.bmod (v * 10 + (c.toInt8.toInt - 48)) (2^64)) 0

/-- The loop over the words of `depends`. The first argument bounds the rounds; a round takes a word. -/
def dependsLoop : ℕ → CStr → List CStr → List CStr
  | 0, _, depends => depends
  | n + 1, tp, depends =>
    if tp = [] ∨ maxDeps ≤ depends.length then depends
    else
      let tp := tp.dropWhile (· = 32)
      if tp = [] then depends
      else
        let word := (tp.takeWhile (· ≠ 32)).take (pkgNameLen - 1)
        dependsLoop n (tp.drop word.length) (depends ++ [word])

/-- The loop over the lines of files. A name that is too long leaves the rest of its line for the next
round. The first argument bounds the rounds. -/
def filesLoop : ℕ → CStr → List CStr → List CStr
  | 0, _, files => files
  | n + 1, q, files =>
    if q = [] then files
    else if cstr "file=" <+: q ∧ files.length < maxFilesPerPkg then
      let file := ((q.drop 5).takeWhile (· ≠ 10)).take (pathLen - 1)
      let q := q.drop (5 + file.length)
      filesLoop n (if q.head? = some 10 then q.tail else q) (if file = [] then files else files ++ [file])
    else filesLoop n (q.dropWhile (· ≠ 10)).tail files

/-- `pkg_parse`. -/
def pkgParse (data : CStr) : PkgInfo where
  name := (kvGet data (cstr "name") pkgNameLen).getD []
  version := (kvGet data (cstr "version") pkgVerLen).getD []
  arch := (kvGet data (cstr "arch") 16).getD []
  description := (kvGet data (cstr "description") pkgDescLen).getD []
  filename := (kvGet data (cstr "filename") pkgFileLen).getD []
  checksum := (kvGet data (cstr "checksum") pkgCksumLen).getD []
  size := readLong ((kvGet data (cstr "size") 32).getD [])
  installed_size := readLong ((kvGet data (cstr "installed_size") 32).getD [])
  depends := let tmp := (kvGet data (cstr "depends") 512).getD []
    dependsLoop tmp.length tmp []
  repo := (kvGet data (cstr "repo") pkgNameLen).getD []
  files := filesLoop data.length data []

/-! ## Writing a record -/

/-- `snum`, of a `long`. -/
def snum (n : ℤ) : CStr := if n < 0 then 45 :: numeral n.natAbs else numeral n.natAbs

/-- `EMIT`. A line that does not fit is left out. -/
def emit (cap : ℕ) (key value buf : CStr) : CStr :=
  if buf.length + key.length + value.length + 2 < cap then buf ++ (key ++ 61 :: (value ++ [10])) else buf

/-- `pkg_serialize`. -/
def pkgSerialize (cap : ℕ) (p : PkgInfo) : CStr :=
  let deps := match p.depends with
    | [] => []
    | d :: ds => ds.foldl (fun deps d => scat 512 (scat 512 deps [32]) d) (scat 512 [] d)
  let buf := emit cap (cstr "name") p.name []
  let buf := emit cap (cstr "version") p.version buf
  let buf := emit cap (cstr "arch") p.arch buf
  let buf := emit cap (cstr "description") p.description buf
  let buf := emit cap (cstr "checksum") p.checksum buf
  let buf := emit cap (cstr "size") (scopy 32 (snum p.size)) buf
  let buf := emit cap (cstr "installed_size") (scopy 32 (snum p.installed_size)) buf
  let buf := emit cap (cstr "repo") p.repo buf
  let buf := emit cap (cstr "depends") deps buf
  p.files.foldl (fun buf file => emit cap (cstr "file") file buf) buf

/-! ## The index of a repository -/

/-- The text up to the next `---`, without carriage returns, and what comes after the line of it. -/
def splitRecord : CStr → CStr × Option CStr
  | [] => ([], none)
  | c :: p =>
    if cstr "---" <+: c :: p then ([], some ((c :: p).dropWhile (· ≠ 10)).tail)
    else
      let (text, rest) := splitRecord p
      (if c = 13 then text else c :: text, rest)

/-- `idx_next_record`, with a buffer of `rec_max` bytes. -/
def idxNextRecord (rec_max : ℕ) (pos : CStr) : Option (CStr × CStr) :=
  match splitRecord pos with
  | (text, some rest) => some (text.take (rec_max - 1), rest)
  | (text, none) => if text.take (rec_max - 1) = [] then none else some (text.take (rec_max - 1), [])

/-- The records of an index. The first argument bounds their number. -/
def records : ℕ → CStr → List CStr
  | 0, _ => []
  | n + 1, pos =>
    match idxNextRecord 4096 pos with
    | none => []
    | some (text, rest) => text :: records n rest

/-- A repository of the configuration, with its index in `g_idx_bufs`. -/
structure Repo where
  name : CStr
  url : CStr
  idx : CStr

/-- `idx_find`. -/
def idxFind (repos : List Repo) (name : CStr) : Option PkgInfo :=
  repos.findSome? fun repo =>
    (records (repo.idx.length + 1) repo.idx).findSome? fun text =>
      if kvGet text (cstr "name") pkgNameLen = some name then
        some { pkgParse text with repo := scopy pkgNameLen repo.name }
      else none

end FreeAsd.Apm
