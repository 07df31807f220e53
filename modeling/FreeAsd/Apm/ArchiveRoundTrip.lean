import FreeAsd.Apm.ArchiveLoop
import FreeAsd.Apm.ArchiveMeta

/-!
# Extracting archives

An archive that `build_apkg` made is refused as a whole, or comes back, exactly if it is `Extractable`
(`roundTrips_iff`). The extractor reads only what it loaded, unless a check overflows (`readsInside_iff`).
-/

namespace FreeAsd.Apm

open Text List

/-! ## Reading inside the archive -/

/-- Nothing is read but the bytes of the archive that were loaded. -/
def ReadsInside (bytes : List UInt8) (old : ℕ → UInt8) (p : PkgInfo) (outcomes : List Outcome) : Prop :=
  ∀ r ∈ (extractBytes bytes old p outcomes).2.reads, r.1 + r.2 ≤ (loaded bytes).length

/-- The length of the text, as an archive gives it. -/
def textLength (bytes : List UInt8) : ℕ := leNum ((bytes.drop 8).take 4)

/-- An archive with a length so large that the check overflows, but with fewer bytes than are read then. -/
structure LengthWraps (bytes : List UInt8) : Prop where
  magic : bytes.take 4 = cstr "APKG"
  version : leNum ((bytes.drop 4).take 2) = 1
  wraps : 2^32 ≤ textLength bytes + 16
  passes : textLength bytes + 16 ≤ 2^32 + bytes.length
  length : 12 ≤ bytes.length ∧ bytes.length < 4111

section

variable {bytes : List UInt8} {old : ℕ → UInt8} {p : PkgInfo} {outcomes : List Outcome}

section

variable (bytes old p outcomes)

theorem length_loaded : (loaded bytes).length = min 524287 bytes.length := by
  rw [loaded, length_take]
  rfl

theorem textLength_lt : textLength bytes < 2^32 := by
  have hlt := leNum_lt ((bytes.drop 8).take 4)
  have hlen : ((bytes.drop 8).take 4).length ≤ 4 := length_take_le _ _
  calc textLength bytes < 256^((bytes.drop 8).take 4).length := hlt
    _ ≤ 256^4 := Nat.pow_le_pow_right (by decide) hlen
    _ = 2^32 := by decide

/-- What happens before the text is read. -/
theorem extractBytes_cases :
    ((loaded bytes).length < 12 ∧ extractBytes bytes old p outcomes = (-1, ⟨p, [], outcomes, []⟩)) ∨
    (12 ≤ (loaded bytes).length ∧ (bytes.take 4 ≠ cstr "APKG" ∨ leNum ((bytes.drop 4).take 2) ≠ 1 ∨
        (loaded bytes).length < (textLength bytes + 16) % 2^32) ∧
      extractBytes bytes old p outcomes = (-1, ⟨p, [], outcomes, [(0, 12)]⟩)) ∨
    (12 ≤ (loaded bytes).length ∧ bytes.take 4 = cstr "APKG" ∧ leNum ((bytes.drop 4).take 2) = 1 ∧
      (textLength bytes + 16) % 2^32 ≤ (loaded bytes).length ∧
      extractBytes bytes old p outcomes = (0, extractLoop (readFile bytes old).2 (loaded bytes).length
        (min (leNum (slice (readFile bytes old).2 (12 + min (textLength bytes) 4095) 4)) maxFilesPerPkg)
        (12 + min (textLength bytes) 4095 + 4)
        ⟨{ pkgParse ((slice (readFile bytes old).2 12 (min (textLength bytes) 4095)).takeWhile (· ≠ 0)) with
            files := [] }, [], outcomes,
          [(0, 12), (12, min (textLength bytes) 4095), (12 + min (textLength bytes) 4095, 4)]⟩)) := by
  unfold extractBytes
  rw [readFile_fst]
  generalize hn : (loaded bytes).length = n
  unfold apkgExtract
  by_cases hshort : n < 12
  · exact .inl ⟨hshort, if_pos hshort⟩
  rw [if_neg hshort]
  have hmagic : slice (readFile bytes old).2 0 4 = bytes.take 4 := by
    rw [slice_readFile (by omega), drop_zero]
  have hversion : slice (readFile bytes old).2 4 2 = (bytes.drop 4).take 2 := slice_readFile (by omega)
  have hlength : leNum (slice (readFile bytes old).2 8 4) = textLength bytes := by
    rw [slice_readFile (by omega), textLength]
  have hsum : 12 + textLength bytes + 4 = textLength bytes + 16 := by omega
  dsimp only
  rw [hmagic, hversion, hlength, hsum]
  refine .inr ?_
  split_ifs with h1 h2 h3
  · exact .inl ⟨by omega, .inl h1, rfl⟩
  · exact .inl ⟨by omega, .inr (.inl h2), rfl⟩
  · exact .inl ⟨by omega, .inr (.inr h3), rfl⟩
  · exact .inr ⟨by omega, not_not.mp h1, not_not.mp h2, by omega, rfl⟩

end

/-- The extractor stays inside what it loaded, except if the check overflows. -/
theorem readsInside_iff : ReadsInside bytes old p outcomes ↔ ¬LengthWraps bytes := by
  have hlt := textLength_lt bytes
  have hlen := length_loaded bytes
  unfold ReadsInside
  rcases extractBytes_cases bytes old p outcomes with ⟨hshort, heq⟩ | ⟨hlong, hbad, heq⟩ |
    ⟨hlong, hmagic, hversion, hpass, heq⟩
  · rw [heq]
    refine ⟨fun _ hw => ?_, fun _ r hr => absurd hr not_mem_nil⟩
    have := hw.length
    omega
  · rw [heq]
    constructor
    · rintro - ⟨hmagic, hversion, hwraps, hpasses, hlength⟩
      rcases hbad with h | h | h
      · exact h hmagic
      · exact h hversion
      · omega
    · intro _ r hr
      rw [mem_singleton.mp hr]
      exact hlong
  · rw [heq]
    generalize hbuf : (readFile bytes old).2 = buf
    constructor
    · rintro hinside ⟨-, -, hwraps, hpasses, hlength⟩
      have hread := hinside (12 + min (textLength bytes) 4095, 4)
        (reads_extractLoop _ _ _ _ _ (mem_cons_of_mem _ (mem_cons_of_mem _ mem_cons_self)))
      omega
    · intro hno r hr
      -- Either the sum does not overflow and the check holds, or there are bytes enough.
      have hroom : 16 + min (textLength bytes) 4095 ≤ (loaded bytes).length := by
        by_cases hwraps : 2^32 ≤ textLength bytes + 16
        · by_contra hout
          refine hno ⟨hmagic, hversion, hwraps, ?_, ?_⟩
          · omega
          · omega
        · omega
      obtain ⟨-, -, -, -, -, -, hreads⟩ := extractLoop_spec buf (loaded bytes).length
        (min (leNum (slice buf (12 + min (textLength bytes) 4095) 4)) maxFilesPerPkg)
        (12 + min (textLength bytes) 4095 + 4)
        ⟨{ pkgParse ((slice buf 12 (min (textLength bytes) 4095)).takeWhile (· ≠ 0)) with files := [] }, [],
          outcomes, [(0, 12), (12, min (textLength bytes) 4095), (12 + min (textLength bytes) 4095, 4)]⟩
      rcases hreads r hr with hr | hr
      · simp only [mem_cons, not_mem_nil, or_false] at hr
        rcases hr with rfl | rfl | rfl
        · exact hlong
        · omega
        · omega
      · exact hr

end

/-! ## Archives of the builder -/

/-- The files of a package can be extracted. -/
def Package.FilesFit (pkg : Package) : Prop :=
  pkg.files.length ≤ maxFilesPerPkg ∧ ∀ f ∈ pkg.files, f.1.length ≤ 255 ∧ (0 : UInt8) ∉ f.1

/-- An archive is refused, and nothing is written, or the files and the record come back. -/
def RoundTrips (pkg : Package) (archive : List UInt8) (checksum : CStr) (size : ℕ) (old : ℕ → UInt8)
    (p : PkgInfo) (outcomes : List Outcome) : Prop :=
  let r := extractBytes archive old p outcomes
  r.1 ≠ 0 ∧ r.2.writes = [] ∨
    r.1 = 0 ∧ r.2.writes = pkg.files ∧ r.2.p.files = pkg.files.map Prod.fst ∧ Carries r.2.p pkg ∧
      r.2.p.checksum = checksum ∧ r.2.p.size = size ∧ r.2.p.installed_size = pkg.installedSize

/-- The length of the text makes the extractor refuse the archive, or everything fits and is written. -/
def Extractable (pkg : Package) (archive : List UInt8) (outcomes : List Outcome) : Prop :=
  min 524287 archive.length < (textLength archive + 16) % 2^32 ∨
    pkg.MetaFits ∧ pkg.FilesFit ∧ archive.length ≤ 524287 ∧ AllWritten pkg.files outcomes

section

variable {pkg : Package} {digest : Digest} {placeholder checksum : CStr} {archive : List UInt8} {size : ℕ}

/-- What is known of an archive that was built. -/
structure Built (pkg : Package) (archive : List UInt8) (checksum : CStr) (size : ℕ) : Prop where
  archive_eq : archive = rawBytes (kvText (pkg.metaLines checksum size)) (bodyBytes pkg.files)
  text_lt : (kvText (pkg.metaLines checksum size)).length < 2^32
  files_lt : pkg.files.length < 2^32
  data_lt : ∀ f ∈ pkg.files, f.1.length < 2^16 ∧ f.2.length < 2^32
  clean_checksum : Clean checksum
  length_checksum : checksum.length = 71
  size_eq : ∃ t < 2^32, size = 16 + t + (pkg.files.flatMap fileBytes).length

theorem length_rawBytes (text : List UInt8) (files : List (CStr × List UInt8)) :
    (rawBytes text (bodyBytes files)).length = 16 + text.length + (files.flatMap fileBytes).length := by
  have hmagic : (cstr "APKG").length = 4 := rfl
  rw [rawBytes, bodyBytes]
  simp only [length_append, length_leBytes, hmagic]
  omega

theorem built_of_buildApkg (h : buildApkg digest pkg placeholder = some (archive, checksum, size)) :
    Built pkg archive checksum size := by
  unfold buildApkg at h
  dsimp only at h
  split_ifs at h with hpack
  obtain ⟨rfl, rfl, rfl⟩ : _ = archive ∧ _ = checksum ∧ _ = size := by
    simpa only [Option.some.injEq, Prod.mk.injEq] using h
  obtain ⟨hfiles, hdata, htexts⟩ := hpack
  exact ⟨rfl, htexts _ (mem_cons_of_mem _ mem_cons_self), hfiles, hdata, clean_cksum _ _,
    length_cksum _ _, _, htexts _ mem_cons_self, length_rawBytes _ _⟩

namespace Built

variable (hb : Built pkg archive checksum size)
include hb

theorem length_archive : archive.length = 16 + (kvText (pkg.metaLines checksum size)).length +
    (pkg.files.flatMap fileBytes).length := by
  rw [hb.archive_eq, length_rawBytes]

theorem magic : archive.take 4 = cstr "APKG" := by
  rw [hb.archive_eq]
  exact take_left' rfl

theorem version : leNum ((archive.drop 4).take 2) = 1 := by
  have hdrop : archive.drop 4 = leBytes 2 1 ++ (leBytes 2 0 ++
      (leBytes 4 (kvText (pkg.metaLines checksum size)).length ++
        (kvText (pkg.metaLines checksum size) ++ bodyBytes pkg.files))) := by
    rw [hb.archive_eq]
    exact drop_left' rfl
  rw [hdrop, take_left' (length_leBytes 2 1)]
  rfl

theorem textLength_eq : textLength archive = (kvText (pkg.metaLines checksum size)).length := by
  have hdrop : archive.drop 8 = leBytes 4 (kvText (pkg.metaLines checksum size)).length ++
      (kvText (pkg.metaLines checksum size) ++ bodyBytes pkg.files) := by
    have hsplit : archive = (cstr "APKG" ++ (leBytes 2 1 ++ leBytes 2 0)) ++
        (leBytes 4 (kvText (pkg.metaLines checksum size)).length ++
          (kvText (pkg.metaLines checksum size) ++ bodyBytes pkg.files)) := by
      rw [hb.archive_eq, rawBytes]
      simp only [append_assoc]
    rw [hsplit]
    exact drop_left' rfl
  rw [textLength, hdrop, take_left' (length_leBytes 4 _), leNum_leBytes]
  exact Nat.mod_eq_of_lt hb.text_lt

theorem drop_text : archive.drop 12 = kvText (pkg.metaLines checksum size) ++ bodyBytes pkg.files := by
  have hsplit : archive = (cstr "APKG" ++ (leBytes 2 1 ++ (leBytes 2 0 ++
      leBytes 4 (kvText (pkg.metaLines checksum size)).length))) ++
        (kvText (pkg.metaLines checksum size) ++ bodyBytes pkg.files) := by
    rw [hb.archive_eq, rawBytes]
    simp only [append_assoc]
  rw [hsplit]
  apply drop_left'
  have hmagic : (cstr "APKG").length = 4 := rfl
  simp only [length_append, length_leBytes, hmagic]

/-- The record is made of the text. -/
theorem record_eq (old : ℕ → UInt8) :
    pkgParse ((slice (readFile archive old).2 12 (min (textLength archive) 4095)).takeWhile (· ≠ 0)) =
      metaRecord pkg checksum size := by
  have hlen := hb.length_archive
  have htext := hb.textLength_eq
  have hloaded := length_loaded archive
  rw [slice_readFile (by omega), hb.drop_text, htext, metaRecord, window]
  congr 2
  rw [take_append_of_le_length (min_le_left _ _), min_comm, ← take_take, take_length]

/-- The numbers in the text are not long. -/
theorem length_numeral_le : (numeral size).length ≤ 31 ∧ (numeral pkg.installedSize).length ≤ 31 := by
  have hfiles : ∀ fs : List (CStr × List UInt8), (∀ f ∈ fs, f.1.length < 2^16 ∧ f.2.length < 2^32) →
      (fs.flatMap fileBytes).length ≤ fs.length * 2^33 ∧
      (fs.map fun f => f.2.length).sum ≤ (fs.flatMap fileBytes).length := by
    intro fs hfs
    induction fs with
    | nil => exact ⟨le_rfl, le_rfl⟩
    | cons f fs ih =>
      have hf := hfs f mem_cons_self
      have ih := ih (forall_mem_cons.mp hfs).2
      rw [flatMap_cons, length_append, length_fileBytes, length_cons, Nat.succ_mul, map_cons, sum_cons]
      omega
  obtain ⟨hbytes, hsum⟩ := hfiles pkg.files hb.data_lt
  obtain ⟨t, ht, hsize⟩ := hb.size_eq
  have hcount := hb.files_lt
  constructor
  · exact length_numeral (by decide) (by omega)
  · exact length_numeral (by decide) (by rw [Package.installedSize]; omega)

/-- A text that fits the record is not cut. -/
theorem length_text_le (hmeta : pkg.MetaFits) : (kvText (pkg.metaLines checksum size)).length ≤ 4095 := by
  obtain ⟨hsize, hinstalled⟩ := hb.length_numeral_le
  have hlen := length_kvText_le fun l hl => (metaLines_key pkg checksum size l hl).2
  have hcount : (pkg.metaLines checksum size).length = 10 := rfl
  have hsum : (((pkg.metaLines checksum size).map Prod.snd).map List.length).sum = pkg.name.length +
      (pkg.version.length + (pkg.arch.length + (pkg.description.length + (pkg.filename.length +
      (checksum.length + ((numeral size).length + ((numeral pkg.installedSize).length +
      ((joined pkg.depends).length + (pkg.name.length + 0))))))))) := rfl
  have hcksum := hb.length_checksum
  obtain ⟨⟨-, hname⟩, ⟨-, hversion⟩, ⟨-, harch⟩, ⟨-, hdescription⟩, ⟨-, hfilename⟩, -, -, hdepends⟩ := hmeta
  omega

/-- What the extractor does with the archive, if it does not refuse it. -/
theorem extract_eq (old : ℕ → UInt8) (p : PkgInfo) (outcomes : List Outcome)
    (hpass : ¬min 524287 archive.length < (textLength archive + 16) % 2^32) :
    ∃ e, extractBytes archive old p outcomes = (0, extractLoop (readFile archive old).2
        (loaded archive).length
        (min (leNum (slice (readFile archive old).2 (12 + min (textLength archive) 4095) 4)) maxFilesPerPkg)
        (12 + min (textLength archive) 4095 + 4) e) ∧
      e.p = { metaRecord pkg checksum size with files := [] } ∧ e.writes = [] ∧ e.outcomes = outcomes := by
  have hlen := hb.length_archive
  have hloaded := length_loaded archive
  rcases extractBytes_cases archive old p outcomes with ⟨hshort, -⟩ | ⟨-, hbad, -⟩ | ⟨-, -, -, -, heq⟩
  · omega
  · rcases hbad with h | h | h
    · exact absurd hb.magic h
    · exact absurd hb.version h
    · omega
  · refine ⟨_, heq, ?_, rfl, rfl⟩
    rw [hb.record_eq old]

omit hb in
/-- What the extractor does with an archive that it refuses. -/
theorem extract_refused (old : ℕ → UInt8) (p : PkgInfo) (outcomes : List Outcome)
    (hbad : min 524287 archive.length < (textLength archive + 16) % 2^32) :
    (extractBytes archive old p outcomes).1 = -1 ∧ (extractBytes archive old p outcomes).2.writes = [] := by
  have hloaded := length_loaded archive
  rcases extractBytes_cases archive old p outcomes with ⟨-, heq⟩ | ⟨-, -, heq⟩ | ⟨-, -, -, hpass, -⟩
  · rw [heq]
    exact ⟨rfl, rfl⟩
  · rw [heq]
    exact ⟨rfl, rfl⟩
  · omega

theorem carries_record_iff {p : PkgInfo} {files : List CStr}
    (hp : p = { metaRecord pkg checksum size with files := files }) : Carries p pkg ↔ pkg.MetaFits := by
  obtain ⟨hsize, hinstalled⟩ := hb.length_numeral_le
  have hcksum : checksum.length ≤ 79 := by
    rw [hb.length_checksum]
    decide
  rw [← carries_iff hb.clean_checksum hcksum hsize hinstalled, hp]
  exact ⟨fun h => { h with }, fun h => { h with }⟩

/-- The files of an archive that fits are written, as far as they can be. -/
theorem extract_files (hmeta : pkg.MetaFits) (hfit : pkg.FilesFit) (hshort : archive.length ≤ 524287)
    (old : ℕ → UInt8) (p : PkgInfo) (outcomes : List Outcome) :
    (extractBytes archive old p outcomes).1 = 0 ∧
    (extractBytes archive old p outcomes).2.writes = applied pkg.files outcomes ∧
    (extractBytes archive old p outcomes).2.p = { metaRecord pkg checksum size with
      files := (applied pkg.files outcomes).map Prod.fst } := by
  have hlen := hb.length_archive
  have htext := hb.textLength_eq
  have htextlen := hb.length_text_le hmeta
  have hload : loaded archive = archive := take_of_length_le hshort
  obtain ⟨e, heq, hp, hwrites, houtcomes⟩ := hb.extract_eq old p outcomes (by omega)
  have hholds := holds_readFile archive old
  rw [hload] at heq hholds
  generalize htexteq : kvText (pkg.metaLines checksum size) = text
  rw [htexteq] at htext htextlen
  have hfront : archive = (archive.take 12 ++ text) ++ (leBytes 4 pkg.files.length ++
      pkg.files.flatMap fileBytes) := by
    rw [append_assoc, ← htexteq]
    exact (take_append_drop 12 archive).symm.trans (congrArg _ hb.drop_text)
  have hfrontlen : 12 + min (textLength archive) 4095 = (archive.take 12 ++ text).length := by
    rw [length_append, length_take, htext]
    omega
  have hcount : leNum (slice (readFile archive old).2 (12 + min (textLength archive) 4095) 4) =
      pkg.files.length := by
    rw [slice_eq hholds hfront hfrontlen (length_leBytes 4 _).symm, leNum_leBytes]
    exact Nat.mod_eq_of_lt hb.files_lt
  have hbs : archive = ((archive.take 12 ++ text) ++ leBytes 4 pkg.files.length) ++
      (pkg.files.flatMap fileBytes ++ []) := by
    rw [append_nil, append_assoc]
    exact hfront
  have hpos : 12 + min (textLength archive) 4095 + 4 =
      ((archive.take 12 ++ text) ++ leBytes 4 pkg.files.length).length := by
    rw [length_append, ← hfrontlen, length_leBytes]
  have hall : ∀ f ∈ pkg.files, f.1.length ≤ 255 ∧ (0 : UInt8) ∉ f.1 ∧ f.2.length < 2^32 :=
    fun f hf => ⟨(hfit.2 f hf).1, (hfit.2 f hf).2, (hb.data_lt f hf).2⟩
  rw [hcount, min_eq_left hfit.1] at heq
  obtain ⟨hw, hfiles⟩ := extractLoop_files (e := e) hholds hbs hall hpos
  rw [heq]
  rw [hwrites, houtcomes, nil_append] at hw
  refine ⟨rfl, hw, ?_⟩
  rw [hfiles, hp, houtcomes]
  rfl

end Built

/-- An archive comes back exactly if it is extractable. -/
theorem roundTrips_iff (h : buildApkg digest pkg placeholder = some (archive, checksum, size))
    (old : ℕ → UInt8) (p : PkgInfo) (outcomes : List Outcome) :
    RoundTrips pkg archive checksum size old p outcomes ↔ Extractable pkg archive outcomes := by
  have hb := built_of_buildApkg h
  have hlen := hb.length_archive
  have htext := hb.textLength_eq
  have hloaded := length_loaded archive
  unfold RoundTrips Extractable
  by_cases hbad : min 524287 archive.length < (textLength archive + 16) % 2^32
  · obtain ⟨hrc, hwrites⟩ := Built.extract_refused old p outcomes hbad
    refine ⟨fun _ => .inl hbad, fun _ => .inl ⟨?_, hwrites⟩⟩
    rw [hrc]
    decide
  constructor
  · rintro (⟨hrc, -⟩ | ⟨-, hwrites, -, hcarries, -⟩)
    · obtain ⟨e, heq, -⟩ := hb.extract_eq old p outcomes hbad
      rw [heq] at hrc
      exact absurd rfl hrc
    right
    obtain ⟨e, heq, hp, hnone, -⟩ := hb.extract_eq old p outcomes hbad
    obtain ⟨ws, hws, hwsp, hcount, hall, hroom, -⟩ := extractLoop_spec (readFile archive old).2
      (loaded archive).length
      (min (leNum (slice (readFile archive old).2 (12 + min (textLength archive) 4095) 4)) maxFilesPerPkg)
      (12 + min (textLength archive) 4095 + 4) e
    rw [heq] at hwrites hcarries
    rw [hnone, nil_append] at hws
    obtain rfl : ws = pkg.files := hws.symm.trans hwrites
    rw [hwsp, hp] at hcarries
    have hmeta := (hb.carries_record_iff rfl).mp hcarries
    have htextlen := hb.length_text_le hmeta
    have hfit : pkg.FilesFit := ⟨hcount.trans (min_le_right _ _), hall⟩
    have hshort : archive.length ≤ 524287 := by
      omega
    refine ⟨hmeta, hfit, hshort, applied_eq_self_iff.mp ?_⟩
    rw [← (hb.extract_files hmeta hfit hshort old p outcomes).2.1, heq]
    exact hwrites
  · rintro (hbad' | ⟨hmeta, hfit, hshort, hdone⟩)
    · exact absurd hbad' hbad
    right
    obtain ⟨hrc, hwrites, hp⟩ := hb.extract_files hmeta hfit hshort old p outcomes
    rw [applied_eq_self_iff.mpr hdone] at hwrites hp
    obtain ⟨hsizelen, hinstlen⟩ := hb.length_numeral_le
    have hcksum : Clean checksum ∧ checksum.length ≤ 79 :=
      ⟨hb.clean_checksum, by rw [hb.length_checksum]; decide⟩
    have hnumbers := hmeta.metaUpTo.numbers hcksum hsizelen hinstlen
    obtain ⟨t, ht, hsize⟩ := hb.size_eq
    have hinstalled : pkg.installedSize ≤ (pkg.files.flatMap fileBytes).length := by
      unfold Package.installedSize
      generalize pkg.files = fs
      induction fs with
      | nil => exact le_rfl
      | cons f fs ih =>
        rw [flatMap_cons, length_append, length_fileBytes, map_cons, sum_cons]
        omega
    refine ⟨hrc, hwrites, by rw [hp], (hb.carries_record_iff hp).mpr hmeta, ?_, ?_, ?_⟩
    · rw [hp]
      exact (metaRecord_fields.checksum hmeta.metaUpTo).trans (cut_eq_iff.mpr hcksum)
    · rw [hp]
      refine (metaRecord_fields.size (hnumbers.mono (by decide))).trans ?_
      rw [cut_eq_iff.mpr ⟨clean_numeral _, hsizelen⟩, readLong_numeral (by omega)]
    · rw [hp]
      refine (metaRecord_fields.installed_size (hnumbers.mono (by decide))).trans ?_
      rw [cut_eq_iff.mpr ⟨clean_numeral _, hinstlen⟩, readLong_numeral (by omega)]

end

/-- Archives of the builder come back exactly if they are extractable, and no archive at all makes the
extractor read elsewhere, except if the check of the length overflows. -/
theorem archives_iff (digest : Digest) :
    (∀ pkg placeholder archive checksum size,
      buildApkg digest pkg placeholder = some (archive, checksum, size) → ∀ old p outcomes,
        (RoundTrips pkg archive checksum size old p outcomes ↔ Extractable pkg archive outcomes)) ∧
    ∀ bytes old p outcomes, ReadsInside bytes old p outcomes ↔ ¬LengthWraps bytes :=
  ⟨fun _ _ _ _ _ h old p outcomes => roundTrips_iff h old p outcomes, fun _ _ _ _ => readsInside_iff⟩

/-! ## A package -/

/-- A package with one file, at a given path. -/
def tool (path : CStr) : Package where
  name := cstr "tool"
  version := cstr "1.0"
  arch := cstr "x86_64"
  description := cstr "A tool"
  depends := [cstr "libc", cstr "libm"]
  files := [(path, [1, 2, 3])]

/-- A hash, for examples. -/
def zeroDigest : Digest := fun _ => Vector.replicate 32 0

/-- A record without content. -/
def noInfo : PkgInfo := ⟨[], [], [], [], [], [], 0, 0, [], [], []⟩

theorem tool_metaFits (path : CStr) : (tool path).MetaFits := by
  have hword : ∀ d ∈ (tool []).depends, DepWord d ∧ Clean d := by
    have hall : ∀ d ∈ (tool []).depends, (d ≠ [] ∧ (32 : UInt8) ∉ d ∧ d.length ≤ 63) ∧ Clean d := by decide
    exact fun d hd => ⟨⟨(hall d hd).1.1, (hall d hd).1.2.1, (hall d hd).1.2.2⟩, (hall d hd).2⟩
  -- The path is no part of the text.
  have hfits : (tool []).MetaFits :=
    ⟨by decide, by decide, by decide, by decide, by decide, hword, by decide, by decide⟩
  exact { hfits with }

/-- Such a package comes back if its path is short. -/
theorem archives_iff_tool : ∃ archive checksum size,
    buildApkg zeroDigest (tool (cstr "/bin/tool")) [] = some (archive, checksum, size) ∧
      RoundTrips (tool (cstr "/bin/tool")) archive checksum size (fun _ => 0) noInfo [] := by
  have hpack : ∃ r, buildApkg zeroDigest (tool (cstr "/bin/tool")) [] = some r :=
    Option.isSome_iff_exists.mp (by decide +kernel)
  obtain ⟨⟨archive, checksum, size⟩, h⟩ := hpack
  have hb := built_of_buildApkg h
  have hlen := hb.length_archive
  have htext := hb.length_text_le (tool_metaFits _)
  have hfiles : ((tool (cstr "/bin/tool")).files.flatMap fileBytes).length = 18 := rfl
  refine ⟨archive, checksum, size, h, ((archives_iff zeroDigest).1 _ _ _ _ _ h _ _ _).mpr (.inr ?_)⟩
  refine ⟨tool_metaFits _, ⟨by decide, ?_⟩, by omega, ⟨trivial, trivial⟩⟩
  intro f hf
  rw [mem_singleton.mp hf]
  decide

/-- It does not come back with a path of 256 bytes: the path is cut, and what follows is read one byte too
early. An archive that gives the largest length makes the extractor read bytes that were not loaded. -/
theorem long_path_lost :
    (∃ archive checksum size,
      buildApkg zeroDigest (tool (List.replicate 256 97)) [] = some (archive, checksum, size) ∧
        ¬RoundTrips (tool (List.replicate 256 97)) archive checksum size (fun _ => 0) noInfo []) ∧
    ¬ReadsInside (cstr "APKG" ++ [1, 0, 0, 0, 255, 255, 255, 255, 0, 0, 0, 0]) (fun _ => 0) noInfo [] := by
  constructor
  · have hpack : ∃ r, buildApkg zeroDigest (tool (List.replicate 256 97)) [] = some r :=
      Option.isSome_iff_exists.mp (by decide +kernel)
    obtain ⟨⟨archive, checksum, size⟩, h⟩ := hpack
    have hb := built_of_buildApkg h
    have hlen := hb.length_archive
    have htext := hb.length_text_le (tool_metaFits _)
    have htextLength := hb.textLength_eq
    refine ⟨archive, checksum, size, h, fun hround => ?_⟩
    rcases (roundTrips_iff h _ _ _).mp hround with hbad | ⟨-, hfit, -⟩
    · omega
    · have hpath := (hfit.2 _ mem_cons_self).1
      rw [length_replicate] at hpath
      omega
  · rw [readsInside_iff, not_not]
    exact ⟨by decide, by decide, by decide, by decide, by decide⟩

end FreeAsd.Apm
