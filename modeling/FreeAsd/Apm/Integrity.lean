import FreeAsd.Apm.InstallIndexes

/-!
# The checksums of packages

The checksum and size that `scripts/build_packages.py` publishes are never those of the file
(`published_iff`), and the installer compares them with nothing (`checked_iff`).
-/

namespace FreeAsd.Apm

open List Option Prod

variable {digest : Digest} {out out' : Output} {src : CStr → Option (List UInt8)} {entries : List Entry}

open Text

/-! ## The builder -/

/-- An entry of `PACKAGES`. -/
structure Entry where
  name : CStr
  install_path : CStr
  src_path : CStr
  description : CStr
  depends : List CStr

/-- `PACKAGES`. -/
def packages : List Entry :=
  [⟨cstr "mifetch", cstr "/bin/mifetch", cstr "userland/mifetch/build/mifetch",
      cstr "System information display (fastfetch-style)", []⟩,
    ⟨cstr "mitext", cstr "/bin/mitext", cstr "mitext/build/mitext",
      cstr "Simple terminal text editor (nano-style)", []⟩]

/-- An entry of `packages_meta`. -/
structure PackageMeta where
  name : CStr
  version : CStr
  arch : CStr
  description : CStr
  filename : CStr
  checksum : CStr
  size : ℕ
  installed_size : ℕ
  depends : CStr

/-- The lines of a package in the index, each as a key and a value. -/
def PackageMeta.lines (m : PackageMeta) : List (CStr × CStr) :=
  [(cstr "name", m.name), (cstr "version", m.version), (cstr "arch", m.arch),
    (cstr "description", m.description), (cstr "filename", m.filename), (cstr "checksum", m.checksum),
    (cstr "size", numeral m.size), (cstr "installed_size", numeral m.installed_size),
    (cstr "depends", m.depends), (cstr "provides", m.name)]

/-- `build_index`, at a given time. -/
def buildIndex (packages_meta : List PackageMeta) (repo_name : CStr) (timestamp : ℕ) : CStr :=
  cstr "# OpenASD APM Repository Index v1\n" ++
    (kvText [(cstr "repo", repo_name), (cstr "timestamp", numeral timestamp), (cstr "arch", cstr "x86_64")] ++
      (cstr "---\n" ++ packages_meta.flatMap fun m => kvText m.lines ++ cstr "---\n"))

/-- The entries with names that are not in `seen`, each name once. -/
def dedupe : List CStr → List Entry → List Entry
  | _, [] => []
  | seen, entry :: entries =>
    if entry.name ∈ seen then dedupe seen entries else entry :: dedupe (entry.name :: seen) entries

/-- What `main` has made: the descriptions, and the archives by their names. -/
structure Output where
  packages_meta : List PackageMeta
  files : CStr → Option (List UInt8)

/-- The package that is made of an entry and the contents of its source. -/
def Entry.package (entry : Entry) (data : List UInt8) : Package where
  name := entry.name
  version := cstr "1.0"
  arch := cstr "x86_64"
  description := entry.description
  depends := entry.depends
  files := [(entry.install_path, data)]

/-- A round of the loop of `main`, for an entry with a source. There is no result if packing raises. -/
def Output.build (digest : Digest) (out : Output) (entry : Entry) (data : List UInt8) : Option Output :=
  let pkg := entry.package data
  match buildApkg digest pkg [] with
  | none => none
  | some (pkg_bytes, checksum, size) => some
      { packages_meta := out.packages_meta ++
          [⟨pkg.name, pkg.version, pkg.arch, pkg.description, pkg.filename, checksum, size, data.length,
            joined pkg.depends⟩]
        files := Function.update out.files pkg.filename (some pkg_bytes) }

/-- The loop of `main`. A source that is no file is skipped. -/
def mainLoop (digest : Digest) (src : CStr → Option (List UInt8)) : List Entry → Output → Option Output
  | [], out => some out
  | entry :: entries, out =>
    match src entry.src_path with
    | none => mainLoop digest src entries out
    | some data => (out.build digest entry data).bind (mainLoop digest src entries)

/-- `main`, with the files it is given: the index and what is in the directory. -/
def mainBuild (digest : Digest) (src : CStr → Option (List UInt8)) (repo_name : CStr) (timestamp : ℕ) :
    Option (CStr × Output) :=
  (mainLoop digest src (dedupe [] packages) ⟨[], fun _ => none⟩).map fun out =>
    (buildIndex out.packages_meta repo_name timestamp, out)

/-! ## What is published -/

/-- A record of the index, with the line that ends it. -/
def PackageMeta.record (m : PackageMeta) : CStr := kvText m.lines ++ cstr "---\n"

/-- For every record that stands in the index, checksum and size are those of the file that it names. -/
def Published (digest : Digest) (index : CStr) (out : Output) : Prop :=
  ∀ m : PackageMeta, m.record <:+: index → ∃ bytes, out.files m.filename = some bytes ∧
    m.checksum = cksum digest bytes ∧ m.size = bytes.length

/-- The text of a package with its checksum and size, and without. -/
theorem length_text (pkg : Package) (checksum : CStr) (size : ℕ) :
    (kvText (pkg.metaLines checksum size)).length + 1 =
      (kvText (pkg.metaLines [] 0)).length + checksum.length + (numeral size).length := by
  have hzero : (numeral 0).length = 1 := rfl
  simp only [kvText, Package.metaLines, flatMap_cons, flatMap_nil, length_append,
    length_cons, length_nil, hzero]
  omega

/-- An archive is longer than the size that goes with it: by the checksum, and by the digits of the size
but one. -/
theorem length_buildApkg {pkg : Package} {archive : List UInt8} {checksum : CStr} {size : ℕ}
    (h : buildApkg digest pkg [] = some (archive, checksum, size)) :
    archive.length + 1 = size + 71 + (numeral size).length := by
  unfold buildApkg at h
  dsimp only at h
  split_ifs at h
  obtain ⟨rfl, rfl, hsize⟩ : _ = archive ∧ _ = checksum ∧ _ = size := by
    simpa only [some.injEq, mk.injEq] using h
  rw [hsize]
  rw [length_rawBytes] at hsize ⊢
  have htext := length_text pkg (cksum digest (rawBytes (kvText (pkg.metaLines [] 0)) (bodyBytes pkg.files))) size
  rw [length_cksum] at htext
  omega

/-- There is a description that does not fit its file. -/
def Output.Wrong (out : Output) : Prop :=
  ∃ m ∈ out.packages_meta, ∃ bytes, out.files m.filename = some bytes ∧ m.size < bytes.length

/-- The description of the package that was just built does not fit. -/
theorem build_wrong {entry : Entry} {data : List UInt8}
    (h : out.build digest entry data = some out') : out'.Wrong := by
  unfold Output.build at h
  dsimp only at h
  rcases hbuild : buildApkg digest (entry.package data) [] with _ | ⟨archive, checksum, size⟩
  · rw [hbuild] at h
    cases h
  rw [hbuild] at h
  have hlen := length_buildApkg hbuild
  rw [← some.inj h]
  refine ⟨_, mem_append_right _ mem_cons_self, archive, Function.update_self .., ?_⟩
  dsimp only
  omega

/-- Every further round that builds something leaves a description that does not fit. -/
theorem Output.Wrong.mainLoop (hout : out.Wrong)
    (h : mainLoop digest src entries out = some out') : out'.Wrong := by
  induction entries generalizing out with
  | nil => rwa [← some.inj h]
  | cons entry entries ih =>
    rw [Apm.mainLoop] at h
    cases hsrc : src entry.src_path with
    | none =>
      rw [hsrc] at h
      exact ih hout h
    | some data =>
      rw [hsrc] at h
      obtain ⟨mid, hbuild, hrest⟩ := bind_eq_some_iff.mp h
      exact ih (build_wrong hbuild) hrest

/-- If there is a source, then whatever was built last does not fit. Otherwise nothing is built. -/
theorem mainLoop_wrong (h : mainLoop digest src entries out = some out') :
    if ∀ e ∈ entries, src e.src_path = none then out' = out else out'.Wrong := by
  induction entries with
  | nil =>
    rw [if_pos (by simp)]
    exact (some.inj h).symm
  | cons entry entries ih =>
    rw [mainLoop] at h
    cases hsrc : src entry.src_path with
    | none =>
      rw [hsrc] at h
      simpa [hsrc] using ih h
    | some data =>
      rw [hsrc] at h
      obtain ⟨mid, hbuild, hrest⟩ := bind_eq_some_iff.mp h
      rw [if_neg (by simp [hsrc])]
      exact (build_wrong hbuild).mainLoop hrest

/-- A text has at least as many ends of lines as it has lines. -/
theorem length_le_count_kvText (lines : List (CStr × CStr)) : lines.length ≤ (kvText lines).count 10 := by
  induction lines with
  | nil => exact Nat.zero_le _
  | cons l lines ih =>
    have hcons : kvText (l :: lines) = (l.1 ++ 61 :: (l.2 ++ [10])) ++ kvText lines := rfl
    rw [hcons, count_append, count_append, count_cons_of_ne (by decide), count_append, count_singleton_self,
      length_cons]
    omega

/-- An index without packages has no record: it has five lines. -/
theorem not_record_buildIndex {repo_name : CStr} (hrepo : (10 : UInt8) ∉ repo_name) (timestamp : ℕ)
    (m : PackageMeta) : ¬m.record <:+: buildIndex [] repo_name timestamp := by
  intro hinfix
  have hnumeral : (10 : UInt8) ∉ numeral timestamp := (clean_numeral timestamp).newline_notMem
  have hfive : (buildIndex [] repo_name timestamp).count 10 = 5 := by
    have hconst : (cstr "# OpenASD APM Repository Index v1\n").count 10 = 1 ∧ (cstr "---\n").count 10 = 1 ∧
        (cstr "repo").count 10 = 0 ∧ (cstr "timestamp").count 10 = 0 ∧ (cstr "arch").count 10 = 0 ∧
        (cstr "x86_64").count 10 = 0 := by decide
    obtain ⟨h1, h2, h3, h4, h5, h6⟩ := hconst
    simp [buildIndex, kvText, count_append, h1, h2, h3, h4, h5, h6, count_eq_zero.mpr hrepo,
      count_eq_zero.mpr hnumeral]
  have hten := length_le_count_kvText m.lines
  have hle := hinfix.sublist.count_le 10
  rw [hfive, PackageMeta.record, count_append] at hle
  have hlines : m.lines.length = 10 := rfl
  omega

/-- What is published is right only if there is nothing to publish. -/
theorem published_iff {repo_name index : CStr} {timestamp : ℕ} (hrepo : (10 : UInt8) ∉ repo_name)
    (h : mainBuild digest src repo_name timestamp = some (index, out)) :
    Published digest index out ↔ ∀ e ∈ packages, src e.src_path = none := by
  obtain ⟨out', hloop, heq⟩ := map_eq_some_iff.mp h
  obtain ⟨rfl, rfl⟩ := mk.inj heq
  have hcases := mainLoop_wrong hloop
  rw [show dedupe [] packages = packages from rfl] at hcases
  constructor
  · intro hpublished
    by_contra hsource
    rw [if_neg hsource] at hcases
    obtain ⟨m, hm, bytes, hfile, hlt⟩ := hcases
    have hrecord : m.record <:+: buildIndex out'.packages_meta repo_name timestamp := by
      obtain ⟨before, after, hsplit⟩ := append_of_mem hm
      rw [hsplit, buildIndex, flatMap_append, flatMap_cons]
      exact ((prefix_append _ _).isInfix.trans (suffix_append _ _).isInfix).trans
        ((suffix_append_of_suffix ((suffix_append_of_suffix (suffix_append _ _)))).isInfix)
    obtain ⟨bytes', hfile', -, hsize⟩ := hpublished m hrecord
    obtain rfl : bytes = bytes' := some.inj (hfile.symm.trans hfile')
    omega
  · intro hnone m hrecord
    rw [if_pos hnone] at hcases
    rw [hcases] at hrecord
    exact absurd hrecord (not_record_buildIndex hrepo timestamp m)

/-! ## What is checked -/

/-- What `install_package` extracts for a record, once the dependencies are installed, has the checksum
of the record. -/
def FetchChecked (digest : Digest) (repos : List Repo) (r : PkgInfo) : Prop :=
  ∀ st evs, (State.fetch repos st r).2.trace = st.trace ++ evs →
    ∀ r' archive, Event.extracts r' archive ∈ evs → cksum digest archive = r.checksum

/-- Everything that `install_package` extracts, for whatever it installs, has the checksum of the record
that is used. -/
def Checked (digest : Digest) (repos : List Repo) : Prop :=
  ∀ st name depth rc st' evs, installPackage repos false depth st name = some (rc, st') →
    st'.trace = st.trace ++ evs → ∀ r archive, Event.extracts r archive ∈ evs →
      cksum digest archive = r.checksum

variable {repos : List Repo} {st : State} {r : PkgInfo} {archive : List UInt8}

/-- An archive with a good header is extracted. -/
theorem extractAndSave_accepted (st : State) (r : PkgInfo) (h : Accepted archive) :
    ∃ evs, (st.extractAndSave r archive).2.trace = st.trace ++ evs ∧ Event.extracts r archive ∈ evs := by
  have hrc := (accepted_iff st.apkg_buf r st.outcomes).mpr h
  rw [extractBytes] at hrc
  unfold State.extractAndSave
  dsimp only
  rw [if_neg (not_not.mpr hrc)]
  generalize he : (apkgExtract (readFile archive st.apkg_buf).2 (readFile archive st.apkg_buf).1
    ⟨r, [], st.outcomes, []⟩).2 = e
  obtain ⟨-, htrace⟩ := extracted_spec st (readFile archive st.apkg_buf).2 e
  obtain ⟨evs, hok, -⟩ := dbSave_spec ((st.extracted (readFile archive st.apkg_buf).2 e).note
    (.extracts r archive)) r e.p
  refine ⟨.extracts r archive :: evs, ?_, mem_cons_self⟩
  rw [hok.trace, State.note]
  rw [htrace, append_nil, append_assoc, singleton_append]

/-- A hash by which archives with good headers can be told apart. -/
def Digest.Distinguishes (digest : Digest) : Prop :=
  ∃ a b, Accepted a ∧ Accepted b ∧ cksum digest a ≠ cksum digest b

/-- Then whatever the checksum of a record is, there is an archive that does not have it. -/
theorem Digest.Distinguishes.exists_ne (h : digest.Distinguishes) (checksum : CStr) :
    ∃ archive, Accepted archive ∧ cksum digest archive ≠ checksum := by
  obtain ⟨a, b, ha, hb, hne⟩ := h
  by_cases heq : cksum digest a = checksum
  · exact ⟨b, hb, fun h => hne (heq.trans h.symm)⟩
  · exact ⟨a, ha, heq⟩

/-- With such an archive in the cache, the record is of no use. -/
theorem not_fetchChecked (h : digest.Distinguishes) (repos : List Repo) (r : PkgInfo) :
    ¬FetchChecked digest repos r := by
  intro hchecked
  obtain ⟨archive, haccepted, hne⟩ := h.exists_ne r.checksum
  have hcached : (ready r archive).files (cachePath r.filename) = some archive := if_pos rfl
  obtain ⟨evs, htrace, hmem⟩ := extractAndSave_accepted (ready r archive) r haccepted
  rw [← fetch_cached repos hcached] at htrace
  exact hne (hchecked _ _ htrace r archive hmem)

/-- `install_deps` succeeds only if everything is installed already, if this is so of `install_package`. -/
theorem installDeps_unchanged {install : State → CStr → Option (ℤ × State)}
    (hinstall : ∀ st name rc st', install st name = some (rc, st') →
      st' = st ∧ (rc = 0 → st.dbInstalled name = true)) {ds : List CStr} {rc : ℤ} {st' : State}
    (h : installDeps install st ds = some (rc, st')) :
    st' = st ∧ (rc = 0 → ∀ d ∈ ds, st.dbInstalled d = true) := by
  induction ds generalizing st with
  | nil =>
    obtain ⟨rfl, rfl⟩ := mk.inj (some.inj h)
    exact ⟨rfl, fun _ d hd => absurd hd not_mem_nil⟩
  | cons d ds ih =>
    rw [installDeps] at h
    rcases hd : st.dbInstalled d with _ | _
    · rw [hd, if_neg Bool.false_ne_true] at h
      rcases hrun : install st d with _ | ⟨rc', mid⟩
      · rw [hrun] at h
        cases h
      obtain ⟨rfl, hzero⟩ := hinstall st d rc' mid hrun
      rw [hrun] at h
      dsimp only at h
      -- The dependency was not installed, so that it cannot have been a success.
      rw [if_pos fun hz => Bool.false_ne_true (hd.symm.trans (hzero hz))] at h
      obtain ⟨rfl, rfl⟩ := mk.inj (some.inj h)
      exact ⟨rfl, fun hz => absurd hz (by decide)⟩
    · rw [hd, if_pos rfl] at h
      obtain ⟨hsame, hall⟩ := ih h
      exact ⟨hsame, fun hz e he => (mem_cons.mp he).elim (fun heq => heq ▸ hd) (hall hz e)⟩

/-- If every package needs itself, then nothing is ever fetched: a call that returns changes nothing, and
returns 0 only for what is installed already. -/
theorem installPackage_unchanged (hself : ∀ name r, idxFind repos name = some r → name ∈ r.depends)
    (depth : ℕ) (st : State) (name : CStr) (rc : ℤ) (st' : State)
    (h : installPackage repos false depth st name = some (rc, st')) :
    st' = st ∧ (rc = 0 → st.dbInstalled name = true) := by
  induction depth generalizing st name rc st' with
  | zero => cases h
  | succ depth ih =>
    rw [installPackage] at h
    rcases hinst : st.dbInstalled name with _ | _
    · rw [hinst, if_neg Bool.false_ne_true] at h
      rcases hfind : idxFind repos name with _ | r
      · rw [hfind] at h
        obtain ⟨rfl, rfl⟩ := mk.inj (some.inj h)
        exact ⟨rfl, fun hz => absurd hz (by decide)⟩
      rw [hfind] at h
      dsimp only at h
      rcases hdeps : installDeps (installPackage repos false depth) st r.depends with _ | ⟨rc', mid⟩
      · rw [hdeps] at h
        cases h
      obtain ⟨rfl, hall⟩ := installDeps_unchanged ih hdeps
      rw [hdeps] at h
      dsimp only at h
      rw [if_pos fun hz => Bool.false_ne_true (hinst.symm.trans (hall hz name (hself name r hfind)))] at h
      obtain ⟨rfl, rfl⟩ := mk.inj (some.inj h)
      exact ⟨rfl, fun hz => absurd hz (by decide)⟩
    · rw [hinst, if_pos rfl] at h
      obtain ⟨rfl, rfl⟩ := mk.inj (some.inj h)
      exact ⟨rfl, fun _ => rfl⟩

/-- What is extracted has the checksum of its record only if nothing can be extracted. -/
theorem checked_iff (h : digest.Distinguishes) (repos : List Repo) :
    Checked digest repos ↔ ∀ name r, idxFind repos name = some r → name ∈ r.depends := by
  constructor
  · intro hchecked name r hfind
    by_contra hself
    obtain ⟨archive, haccepted, hne⟩ := h.exists_ne r.checksum
    obtain ⟨evs, htrace, hmem⟩ := extractAndSave_accepted (ready r archive) r haccepted
    exact hne (hchecked _ _ _ _ _ evs (installPackage_ready hfind hself archive) htrace r archive hmem)
  · intro hself st name depth rc st' evs hrun htrace r archive hmem
    rw [(installPackage_unchanged hself depth st name rc st' hrun).1] at htrace
    rw [append_right_eq_self.mp htrace.symm] at hmem
    exact absurd hmem not_mem_nil

/-- The checksums and sizes in the index are right exactly if no package has a source; and no record is
checked by the installer, so what it extracts has them exactly if it never extracts anything because every
package needs itself. -/
theorem integrity_iff (digest : Digest) :
    (∀ src repo_name timestamp index out, (10 : UInt8) ∉ repo_name →
      mainBuild digest src repo_name timestamp = some (index, out) →
      (Published digest index out ↔ ∀ e ∈ packages, src e.src_path = none)) ∧
    (digest.Distinguishes → (∀ repos r, ¬FetchChecked digest repos r) ∧
      ∀ repos, Checked digest repos ↔ ∀ name r, idxFind repos name = some r → name ∈ r.depends) :=
  ⟨fun _ _ _ _ _ hrepo h => published_iff hrepo h,
    fun h => ⟨not_fetchChecked h, checked_iff h⟩⟩

/-- A hash: the sum of the bytes, and zeros. -/
def sumDigest : Digest := fun bytes => (Vector.replicate 31 0).push (bytes.foldr (· + ·) 0)

/-- The source of one package, of one byte. -/
def mitextOnly : CStr → Option (List UInt8) :=
  fun path => if path = cstr "mitext/build/mitext" then some [7] else none

/-- An index with a package, with a line that says what it needs or without. -/
def oneRecord (depends : CStr) : Repo :=
  ⟨cstr "main", [], cstr "name=a\nfilename=a.apkg\n" ++ (depends ++ cstr "---\n")⟩

/-- Of the two builds below, the index is right only without the source. Of the two indexes, the checksum
is right only if the package needs itself. -/
theorem integrity_iff_cases :
    (∃ index out, mainBuild sumDigest (fun _ => none) (cstr "official") 0 = some (index, out) ∧
      Published sumDigest index out) ∧
    (∃ index out, mainBuild sumDigest mitextOnly (cstr "official") 0 = some (index, out) ∧
      ¬Published sumDigest index out) ∧
    Checked sumDigest [oneRecord (cstr "depends=a\n")] ∧ ¬Checked sumDigest [oneRecord []] := by
  have hrepo : (10 : UInt8) ∉ cstr "official" := by decide
  obtain ⟨hbuilder, hinstaller⟩ := integrity_iff sumDigest
  have haccepted : ∀ c : UInt8, c = 97 ∨ c = 98 → Accepted (decoy c) := by
    intro c hc
    obtain ⟨e, heq, -⟩ := extractBytes_decoy hc (fun _ => 0) (pkgParse []) []
    exact (accepted_iff (fun _ => 0) (pkgParse []) []).mp (congrArg fst heq)
  have hdistinguishes : sumDigest.Distinguishes :=
    ⟨_, _, haccepted 97 (.inl rfl), haccepted 98 (.inr rfl), by decide +kernel⟩
  have hchecked := (hinstaller hdistinguishes).2
  refine ⟨?_, ?_, ?_, ?_⟩
  · have hbuild : mainBuild sumDigest (fun _ => none) (cstr "official") 0 =
        some (buildIndex [] (cstr "official") 0, ⟨[], fun _ => none⟩) := rfl
    exact ⟨_, _, hbuild, (hbuilder _ _ _ _ _ hrepo hbuild).mpr fun _ _ => rfl⟩
  · obtain ⟨⟨index, out⟩, hbuild⟩ :=
      isSome_iff_exists.mp (show (mainBuild sumDigest mitextOnly (cstr "official") 0).isSome = true by
        decide +kernel)
    refine ⟨index, out, hbuild, fun hpublished => ?_⟩
    have hnone := (hbuilder _ _ _ _ _ hrepo hbuild).mp hpublished _ (mem_cons_of_mem _ mem_cons_self)
    exact absurd hnone (by decide)
  · refine (hchecked _).mpr fun name r hfind => ?_
    obtain ⟨repo, hrepo, hfound⟩ := exists_of_findSome?_eq_some hfind
    rw [mem_singleton.mp hrepo] at hfound
    obtain ⟨text, htext, hr⟩ := exists_of_findSome?_eq_some hfound
    have hrecords : ∀ text ∈ records ((oneRecord (cstr "depends=a\n")).idx.length + 1)
        (oneRecord (cstr "depends=a\n")).idx,
        kvGet text (cstr "name") pkgNameLen = some (cstr "a") ∧ (pkgParse text).depends = [cstr "a"] := by
      decide +kernel
    obtain ⟨hname, hdeps⟩ := hrecords text htext
    split_ifs at hr with hsame
    rw [← some.inj hr, ← some.inj (hname.symm.trans hsame)]
    exact hdeps ▸ mem_cons_self
  · intro hall
    have ha : (idxFind [oneRecord []] (cstr "a")).map (·.depends) = some [] := by decide +kernel
    obtain ⟨r, hfind, hdeps⟩ := map_eq_some_iff.mp ha
    exact absurd ((hchecked _).mp hall _ r hfind) (by rw [hdeps]; exact not_mem_nil)

/-- With a source of one byte what is published is wrong. And for a record without a checksum an archive
is extracted and registered. -/
theorem checksum_ignored :
    (∃ index out, mainBuild zeroDigest mitextOnly (cstr "official") 0 = some (index, out) ∧
      ¬Published zeroDigest index out) ∧
    ∃ st st' r archive, idxFind [oneRecord []] (cstr "a") = some r ∧
      installPackage [oneRecord []] false 1 st (cstr "a") = some (0, st') ∧
        st'.dbInstalled (cstr "a") = true ∧
        Event.extracts r archive ∈ st'.trace ∧ cksum zeroDigest archive ≠ r.checksum := by
  constructor
  · have hbuild : (mainBuild zeroDigest mitextOnly (cstr "official") 0).isSome = true := by decide +kernel
    obtain ⟨⟨index, out⟩, heq⟩ := isSome_iff_exists.mp hbuild
    refine ⟨index, out, heq, fun hpublished => ?_⟩
    exact absurd ((published_iff (by decide) heq).mp hpublished _ (mem_cons_of_mem _ mem_cons_self)) (by decide)
  · have ha : (idxFind [oneRecord []] (cstr "a")).map (fun r => (r.depends, r.checksum)) =
        some ([], []) := by decide +kernel
    obtain ⟨r, hfind, hr⟩ := map_eq_some_iff.mp ha
    obtain ⟨hdeps, hchecksum⟩ := mk.inj hr
    have hself : cstr "a" ∉ r.depends := by
      rw [hdeps]
      exact not_mem_nil
    obtain ⟨e, heq, hname, hwrites, houtcomes⟩ := extractBytes_decoy (.inl rfl) (fun _ => 0) r []
    obtain ⟨st', db, hsave, htrace, hfiles, -⟩ :=
      extractAndSave_nothing (ready r (decoy 97)) heq hwrites houtcomes
    refine ⟨_, st', r, decoy 97, hfind, (installPackage_ready hfind hself _).trans (congrArg some hsave),
      ?_, ?_, ?_⟩
    · have hpath : dbPath (cstr "a") = dbPath e.p.name := by
        rw [hname]
        rfl
      rw [State.dbInstalled, hfiles, hpath, Function.update_self]
      rfl
    · rw [htrace]
      exact mem_append_right _ mem_cons_self
    · intro hzero
      have hlen := length_cksum zeroDigest (decoy 97)
      rw [hzero, hchecksum] at hlen
      cases hlen

end FreeAsd.Apm
