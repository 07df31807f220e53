import FreeAsd.Apm.Record
import FreeAsd.Lib.Words

/-!
# Archives of packages

`build_apkg` of `scripts/build_packages.py` and `apkg_extract` of `userland/bin/apm.c`, which reads from a
buffer that is kept between calls. The hash is a parameter, and whether a file can be written is given
(`Outcome`).
-/

namespace FreeAsd.Apm

open Text

/-! ## The builder -/

/-- What is given to `build_apkg`. -/
structure Package where
  name : CStr
  version : CStr
  arch : CStr
  description : CStr
  depends : List CStr
  files : List (CStr × List UInt8)

/-- `hashlib.sha256(…).digest()`. -/
abbrev Digest := List UInt8 → Vector UInt8 32

/-- `"sha256:" + hexdigest()`. -/
def cksum (digest : Digest) (bytes : List UInt8) : CStr :=
  cstr "sha256:" ++ (digest bytes).toList.flatMap fun b => [hexDigit (b.toNat / 16), hexDigit (b.toNat % 16)]

namespace Package

variable (pkg : Package)

/-- `installed_size`. -/
def installedSize : ℕ := (pkg.files.map fun f => f.2.length).sum

/-- `filename`. -/
def filename : CStr := pkg.name ++ 45 :: (pkg.version ++ 45 :: (pkg.arch ++ cstr ".apkg"))

/-- `meta_lines`, each as a key and a value. -/
def metaLines (checksum : CStr) (size : ℕ) : List (CStr × CStr) :=
  [(cstr "name", pkg.name), (cstr "version", pkg.version), (cstr "arch", pkg.arch),
    (cstr "description", pkg.description), (cstr "filename", pkg.filename), (cstr "checksum", checksum),
    (cstr "size", numeral size), (cstr "installed_size", numeral pkg.installedSize),
    (cstr "depends", joined pkg.depends), (cstr "provides", pkg.name)]

end Package

/-- Lines of a key and a value. -/
def kvText (lines : List (CStr × CStr)) : CStr := lines.flatMap fun l => l.1 ++ 61 :: (l.2 ++ [10])

/-- A file of an archive. -/
def fileBytes (file : CStr × List UInt8) : List UInt8 :=
  leBytes 2 file.1.length ++ (file.1 ++ (leBytes 4 file.2.length ++ file.2))

/-- `body`. -/
def bodyBytes (files : List (CStr × List UInt8)) : List UInt8 :=
  leBytes 4 files.length ++ files.flatMap fileBytes

/-- The header, the text and the body. -/
def rawBytes (text body : List UInt8) : List UInt8 :=
  cstr "APKG" ++ (leBytes 2 1 ++ (leBytes 2 0 ++ (leBytes 4 text.length ++ (text ++ body))))

/-- `struct.pack` does not raise: every length has room in its field. -/
def Packable (pkg : Package) (texts : List (List UInt8)) : Prop :=
  pkg.files.length < 2^32 ∧ (∀ f ∈ pkg.files, f.1.length < 2^16 ∧ f.2.length < 2^32) ∧
    ∀ t ∈ texts, t.length < 2^32

instance (pkg : Package) (texts : List (List UInt8)) : Decidable (Packable pkg texts) :=
  inferInstanceAs (Decidable (_ ∧ _ ∧ _))

/-- `build_apkg`: the archive, the checksum and the size. The last two are those of the archive as it was
before they were put in. -/
def buildApkg (digest : Digest) (pkg : Package) (checksum_placeholder : CStr) :
    Option (List UInt8 × CStr × ℕ) :=
  let body := bodyBytes pkg.files
  let raw := rawBytes (kvText (pkg.metaLines checksum_placeholder 0)) body
  let text := kvText (pkg.metaLines (cksum digest raw) raw.length)
  if Packable pkg [kvText (pkg.metaLines checksum_placeholder 0), text] then
    some (rawBytes text body, cksum digest raw, raw.length)
  else none

/-! ## The extractor -/

/-- What becomes of a file that is written: all of it, nothing because it cannot be opened, or its first
bytes because a write fails. -/
inductive Outcome
  | done
  | fails
  | stops (written : ℕ)

/-- The size of `apkg_buf`. -/
abbrev apkgBufSize : ℕ := 524288

/-- What `read_file` leaves in the buffer, of a file with given bytes: how many there are, and the buffer
with a terminator behind them. -/
def readFile (bytes : List UInt8) (old : ℕ → UInt8) : ℕ × (ℕ → UInt8) :=
  let n := min bytes.length (apkgBufSize - 1)
  (n, fun i => if i < n then bytes.getD i 0 else if i = n then 0 else old i)

/-- Some bytes of the buffer. -/
def slice (buf : ℕ → UInt8) (pos len : ℕ) : List UInt8 := (List.range len).map fun i => buf (pos + i)

/-- What `apkg_extract` has done: the record, the files that were written, what is left of the outcomes,
and the runs of positions that were read. -/
structure Extract where
  p : PkgInfo
  writes : List (CStr × List UInt8)
  outcomes : List Outcome
  reads : List (ℕ × ℕ)

namespace Extract

/-- Positions of the buffer are read. -/
def read (e : Extract) (pos len : ℕ) : Extract := { e with reads := e.reads ++ [(pos, len)] }

/-- A file is opened and written. Its path is recorded, whatever becomes of the data. -/
def record (e : Extract) (fpath : CStr) (data : List UInt8) : Extract :=
  { e with
    p := { e.p with files := e.p.files ++ [scopy pathLen fpath] }
    writes := e.writes ++ [(fpath, data)] }

/-- The data at `pos` is written to a file. -/
def write (e : Extract) (fpath : CStr) (buf : ℕ → UInt8) (pos dlen : ℕ) : Extract :=
  let outcome := e.outcomes.headD .done
  let e := { e with outcomes := e.outcomes.tail }
  match outcome with
  | .fails => e
  | .done => (e.read pos dlen).record fpath (slice buf pos dlen)
  | .stops k => (e.read pos dlen).record fpath ((slice buf pos dlen).take k)

end Extract

/-- The loop over the files of an archive. The first argument counts the rounds that are left. -/
def extractLoop (buf : ℕ → UInt8) (n : ℕ) : ℕ → ℕ → Extract → Extract
  | 0, _, e => e
  | rounds + 1, pos, e =>
    if n < pos + 2 then e
    else
      let plen := leNum (slice buf pos 2)
      let e := e.read pos 2
      let pos := pos + 2
      if n < pos + plen then e
      else
        let plen := min plen (pathLen - 1)
        let fpath := (slice buf pos plen).takeWhile (· ≠ 0)
        let e := e.read pos plen
        let pos := pos + plen
        if n < pos + 4 then e
        else
          let dlen := leNum (slice buf pos 4)
          let e := e.read pos 4
          let pos := pos + 4
          if n < pos + dlen then e
          else
            extractLoop buf n rounds (pos + dlen) (e.write fpath buf pos dlen)

/-- `apkg_extract`, once the file is in the buffer. The sum in the check of the length of the text has 32
bits. -/
def apkgExtract (buf : ℕ → UInt8) (n : ℕ) (e : Extract) : ℤ × Extract :=
  if n < 12 then (-1, e)
  else
    let e := e.read 0 12
    if slice buf 0 4 ≠ cstr "APKG" then (-1, e)
    else if leNum (slice buf 4 2) ≠ 1 then (-1, e)
    else
      let meta_len := leNum (slice buf 8 4)
      if n < (12 + meta_len + 4) % 2^32 then (-1, e)
      else
        let meta_len := min meta_len 4095
        let text := (slice buf 12 meta_len).takeWhile (· ≠ 0)
        let e := (e.read 12 meta_len).read (12 + meta_len) 4
        let nfiles := leNum (slice buf (12 + meta_len) 4)
        (0, extractLoop buf n (min nfiles maxFilesPerPkg) (12 + meta_len + 4)
          { e with p := { pkgParse text with files := [] } })

end FreeAsd.Apm
