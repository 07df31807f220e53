import FreeAsd.Apm.InstallRuns

/-!
# Indexes and the installer

`install_package` always returns exactly if the indexes have no cycle (`terminates_iff`), and there is no
index with any package for which 0 means that the package is installed (`install_iff`).
-/

namespace FreeAsd.Apm

open Text List Function

variable {repos : List Repo} {st st' : State} {name : CStr}

/-! ## Paths -/

theorem length_kvLoop {key data v : CStr} {max : ℕ} {start : Bool} (h : kvLoop key max start data = some v) :
    v.length ≤ max - 1 := by
  induction data generalizing start with
  | nil => exact absurd h (by simp [kvLoop])
  | cons c p ih =>
    rw [kvLoop] at h
    split_ifs at h
    · rw [← Option.some.inj h]
      exact length_take_le _ _
    · exact ih h

/-- A name that is found is short, and so are the names of what the package needs. -/
theorem length_of_idxFind {r : PkgInfo} (h : idxFind repos name = some r) :
    name.length ≤ 63 ∧ ∀ d ∈ r.depends, d.length ≤ 63 := by
  obtain ⟨repo, -, hrepo⟩ := exists_of_findSome?_eq_some h
  obtain ⟨text, -, htext⟩ := exists_of_findSome?_eq_some hrepo
  split_ifs at htext with hname
  refine ⟨length_kvLoop hname, fun d hd => ?_⟩
  rw [← Option.some.inj htext] at hd
  have hnone : ([] : List CStr).length ≤ maxDeps := Nat.zero_le _
  obtain ⟨ds, heq, -, hds, -⟩ := dependsLoop_spec ((kvGet text (cstr "depends") 512).getD []).length
    ((kvGet text (cstr "depends") 512).getD []) hnone
  change d ∈ dependsLoop _ _ [] at hd
  rw [heq] at hd
  exact (hds d hd).1.length

theorem scat_eq {max : ℕ} {dst src : CStr} (h : dst.length + src.length < max) : scat max dst src = dst ++ src := by
  rw [scat, scopy, take_of_length_le (by omega)]

theorem dbPath_eq (h : name.length ≤ 63) :
    dbPath name = cstr "/var/apm/db/installed/" ++ (name ++ cstr ".apd") := by
  have hdir : scat pathLen (scopy pathLen (cstr "/var/apm/db/installed")) (cstr "/") =
      cstr "/var/apm/db/installed/" := by decide
  have hdirlen : (cstr "/var/apm/db/installed/").length = 22 := rfl
  have hext : (cstr ".apd").length = 4 := rfl
  have hname : scat pathLen (cstr "/var/apm/db/installed/") name = cstr "/var/apm/db/installed/" ++ name := by
    apply scat_eq
    rw [hdirlen]
    simp only [pathLen]
    omega
  rw [dbPath, hdir, hname, scat_eq, append_assoc]
  rw [length_append, hdirlen, hext]
  simp only [pathLen]
  omega

theorem dbPath_inj {d : CStr} (h : name.length ≤ 63) (hd : d.length ≤ 63) (heq : dbPath name = dbPath d) :
    name = d := by
  rw [dbPath_eq h, dbPath_eq hd] at heq
  exact append_cancel_right (append_cancel_left heq)

/-- The database and the cache are different directories. -/
theorem dbPath_ne_cachePath (h : name.length ≤ 63) (filename : CStr) : dbPath name ≠ cachePath filename := by
  have hdir : scat pathLen (scopy pathLen (cstr "/var/apm/cache")) (cstr "/") = cstr "/var/apm/cache/" := by
    decide
  intro heq
  rw [dbPath_eq h, cachePath, hdir, scat] at heq
  have hhead := congrArg (fun path => path.getD 9 0) heq
  simp only [getD_eq_getElem?_getD] at hhead
  rw [getElem?_append_left (by decide), getElem?_append_left (by decide)] at hhead
  cases hhead

/-! ## Cycles -/

/-- What is installed when the packages of a set are not. -/
noncomputable def missing (s : Set CStr) : State where
  files := fun path => open scoped Classical in if ∃ n ∈ s, path = dbPath n then none else some []
  apkg_buf := fun _ => 0
  outcomes := []
  replies := []
  trace := []

theorem installDeps_skips {install : State → CStr → Option (ℤ × State)} {ds : List CStr}
    (hd : ∃ d ∈ ds, st.dbInstalled d = false) (h : ∀ d ∈ ds, st.dbInstalled d = false → install st d = none) :
    installDeps install st ds = none := by
  induction ds with
  | nil =>
    obtain ⟨d, hmem, -⟩ := hd
    exact absurd hmem not_mem_nil
  | cons e es ih =>
    rw [installDeps]
    rcases he : st.dbInstalled e with _ | _
    · rw [if_neg Bool.false_ne_true, h e mem_cons_self he]
    rw [if_pos rfl]
    refine ih ?_ (forall_mem_cons.mp h).2
    obtain ⟨d, hmem, hd⟩ := hd
    rcases mem_cons.mp hmem with rfl | hmem
    · exact absurd he (by rw [hd]; exact Bool.false_ne_true)
    · exact ⟨d, hmem, hd⟩

/-- If each package of a set needs another one of it, and the set is what is missing, then no depth of
calls is enough. -/
theorem installPackage_missing {s : Set CStr} (hs : ∀ n ∈ s, ∃ d ∈ s, Needs repos d n) (depth : ℕ) {n : CStr}
    (hn : n ∈ s) : installPackage repos false depth (missing s) n = none := by
  have hmissing : ∀ n ∈ s, (missing s).dbInstalled n = false := by
    intro n hn
    rw [State.dbInstalled, missing]
    dsimp only
    rw [if_pos ⟨n, hn, rfl⟩]
    rfl
  induction depth generalizing n with
  | zero => rfl
  | succ depth ih =>
    obtain ⟨d, hd, r, hfind, hmem⟩ := hs n hn
    rw [installPackage, hmissing n hn, if_neg Bool.false_ne_true, hfind]
    dsimp only
    rw [installDeps_skips ⟨d, hmem, hmissing d hd⟩]
    -- What is not installed is in the set, because different names have different paths.
    intro e he hnot
    rw [State.dbInstalled, missing] at hnot
    dsimp only at hnot
    split_ifs at hnot with hpath
    · obtain ⟨n', hn', heq⟩ := hpath
      obtain ⟨d', -, r', hfind', -⟩ := hs n' hn'
      obtain rfl : e = n' := dbPath_inj ((length_of_idxFind hfind).2 e he) (length_of_idxFind hfind').1 heq
      exact ih hn'
    · cases hnot

/-- Every call returns exactly if there are no cycles. -/
theorem terminates_iff (repos : List Repo) : (∀ st name, Terminates repos st name) ↔ Acyclic repos := by
  refine ⟨fun h => ?_, fun h st name => terminates_of_acyclic h st name⟩
  by_contra hcyclic
  rw [Acyclic, WellFounded.wellFounded_iff_has_min] at hcyclic
  push Not at hcyclic
  obtain ⟨s, ⟨n, hn⟩, hs⟩ := hcyclic
  obtain ⟨depth, hdepth⟩ := h (missing s) n
  rw [installPackage_missing hs depth hn] at hdepth
  cases hdepth

/-! ## Archives with another name -/

/-- An archive without files, for a package with a name of one letter. -/
def decoy (c : UInt8) : List UInt8 :=
  cstr "APKG" ++ ([1, 0, 0, 0, 7, 0, 0, 0] ++ (cstr "name=" ++ [c, 10, 0, 0, 0, 0]))

theorem extractBytes_decoy {c : UInt8} (hc : c = 97 ∨ c = 98) (old : ℕ → UInt8) (p : PkgInfo)
    (outcomes : List Outcome) :
    ∃ e, extractBytes (decoy c) old p outcomes = (0, e) ∧ e.p.name = [c] ∧ e.writes = [] ∧
      e.outcomes = outcomes := by
  have hlen : (loaded (decoy c)).length = 23 := rfl
  obtain ⟨htext, hmagic, hversion, hcount, hname⟩ : textLength (decoy c) = 7 ∧
      (decoy c).take 4 = cstr "APKG" ∧ leNum (((decoy c).drop 4).take 2) = 1 ∧
      leNum (((decoy c).drop (12 + 7)).take 4) = 0 ∧
      (pkgParse ((((decoy c).drop 12).take 7).takeWhile (· ≠ 0))).name = [c] := by
    rcases hc with rfl | rfl <;> decide
  rcases extractBytes_cases (decoy c) old p outcomes with ⟨hshort, -⟩ | ⟨-, hbad, -⟩ | ⟨-, -, -, -, heq⟩
  · omega
  · rcases hbad with h | h | h
    · exact absurd hmagic h
    · exact absurd hversion h
    · omega
  · have hmin : min (textLength (decoy c)) 4095 = 7 := by omega
    rw [hmin, slice_readFile (by omega), hcount, zero_min, extractLoop, slice_readFile (by omega)] at heq
    exact ⟨_, heq, hname, rfl, rfl⟩

/-- An archive without files that is extracted: one file is made, in the database. -/
theorem extractAndSave_nothing (st : State) {r : PkgInfo} {archive : List UInt8} {e : Extract}
    (heq : extractBytes archive st.apkg_buf r st.outcomes = (0, e)) (hwrites : e.writes = [])
    (houtcomes : e.outcomes = []) :
    ∃ st' db, st.extractAndSave r archive = (0, st') ∧
      st'.trace = st.trace ++ [.extracts r archive, .saves r e.p db] ∧
      st'.files = update st.files (dbPath e.p.name) (some (pkgSerialize 16384 e.p)) ∧
      st'.outcomes = [] := by
  obtain ⟨p, writes, outcomes, reads⟩ := e
  subst hwrites houtcomes
  have hextract : apkgExtract (readFile archive st.apkg_buf).2 (readFile archive st.apkg_buf).1
      ⟨r, [], st.outcomes, []⟩ = (0, ⟨p, [], [], reads⟩) := heq
  unfold State.extractAndSave
  dsimp only
  rw [hextract]
  exact ⟨_, _, rfl, append_assoc _ _ _, rfl, rfl⟩

/-- A state in which everything that a record needs is installed, and an archive is in the cache. -/
def ready (r : PkgInfo) (archive : List UInt8) : State where
  files := fun path =>
    if path = cachePath r.filename then some archive
    else if path ∈ r.depends.map dbPath then some [] else none
  apkg_buf := fun _ => 0
  outcomes := []
  replies := []
  trace := []

theorem fetch_cached (repos : List Repo) {r : PkgInfo} {archive : List UInt8}
    (h : st.files (cachePath r.filename) = some archive) :
    st.fetch repos r = st.extractAndSave r archive := by
  rw [State.fetch, h, if_neg (by simp)]
  dsimp only
  rw [if_neg (by decide), h]

theorem installDeps_installed {install : State → CStr → Option (ℤ × State)} {ds : List CStr}
    (h : ∀ d ∈ ds, st.dbInstalled d = true) : installDeps install st ds = some (0, st) := by
  induction ds with
  | nil => rfl
  | cons d ds ih =>
    rw [installDeps, if_pos (h d mem_cons_self)]
    exact ih (forall_mem_cons.mp h).2

section

variable {r : PkgInfo} (hfind : idxFind repos name = some r)
include hfind

theorem ready_depends (archive : List UInt8) {d : CStr} (hd : d ∈ r.depends) :
    (ready r archive).dbInstalled d = true := by
  rw [State.dbInstalled, ready]
  dsimp only
  rw [if_neg (dbPath_ne_cachePath ((length_of_idxFind hfind).2 d hd) _), if_pos (mem_map_of_mem hd)]
  rfl

variable (hself : name ∉ r.depends)
include hself

theorem ready_name (archive : List UInt8) : (ready r archive).dbInstalled name = false := by
  obtain ⟨hname, hdeps⟩ := length_of_idxFind hfind
  have hpath : dbPath name ∉ r.depends.map dbPath := by
    rw [mem_map]
    rintro ⟨d, hd, heq⟩
    exact hself (dbPath_inj (hdeps d hd) hname heq ▸ hd)
  rw [State.dbInstalled, ready]
  dsimp only
  rw [if_neg (dbPath_ne_cachePath hname _), if_neg hpath]
  rfl

/-- From such a state the archive is extracted and saved, whatever it is. -/
theorem installPackage_ready (archive : List UInt8) :
    installPackage repos false 1 (ready r archive) name = some ((ready r archive).extractAndSave r archive) := by
  have hcached : (ready r archive).files (cachePath r.filename) = some archive := if_pos rfl
  rw [installPackage, ready_name hfind hself, if_neg Bool.false_ne_true, hfind]
  dsimp only
  rw [installDeps_installed fun d hd => ready_depends hfind archive hd]
  dsimp only
  rw [if_neg (not_not.mpr rfl), if_neg Bool.false_ne_true, fetch_cached repos hcached]

/-- A decoy is registered under its own name, and 0 is returned. -/
theorem installPackage_decoy :
    ∃ st st', installPackage repos false 1 st name = some (0, st') ∧ st'.dbInstalled name = false := by
  -- One of two letters is not the name.
  obtain ⟨c, hc, hne⟩ : ∃ c : UInt8, (c = 97 ∨ c = 98) ∧ name ≠ [c] := by
    by_cases h : name = [97]
    · exact ⟨98, .inr rfl, by rw [h]; decide⟩
    · exact ⟨97, .inl rfl, h⟩
  obtain ⟨e, heq, hname, hwrites, houtcomes⟩ := extractBytes_decoy hc (fun _ => 0) r []
  have hlen := (length_of_idxFind hfind).1
  have hpath : dbPath name ≠ dbPath [c] := fun h => hne (dbPath_inj hlen (by simp) h)
  obtain ⟨st', db, hsave, -, hfiles, -⟩ := extractAndSave_nothing (ready r (decoy c)) heq hwrites houtcomes
  refine ⟨ready r (decoy c), st', (installPackage_ready hfind hself _).trans (congrArg some hsave), ?_⟩
  rw [State.dbInstalled, hfiles, hname, update_of_ne hpath]
  exact ready_name hfind hself _

end

/-- All calls return exactly if there are no cycles; a single one does if no cycle of missing packages can
be reached from its name. All calls leave the package installed when they return 0 exactly if there is no
package in the indexes; a single one does if every archive that it extracted carries the name of its
record. -/
theorem install_iff (repos : List Repo) :
    ((∀ st name, Terminates repos st name) ↔ Acyclic repos) ∧
    (∀ st name, Acc (Lacks repos st) name → Terminates repos st name) ∧
    ((∀ st name, Terminates repos st name ∧ ∀ depth st',
        installPackage repos false depth st name = some (0, st') → Installed repos st name st') ↔
      ∀ name, idxFind repos name = none) ∧
    ∀ st name depth st' evs, installPackage repos false depth st name = some (0, st') →
      st'.trace = st.trace ++ evs → Honest evs → Installed repos st name st' := by
  refine ⟨terminates_iff repos, fun _ _ h => terminates_of_acc h fun _ hd => hd,
    ⟨fun h name => ?_, fun h st name => ?_⟩,
    fun _ _ _ _ _ hrun htrace hhonest => installed_of_honest hrun htrace hhonest⟩
  · rcases hfind : idxFind repos name with _ | r
    · rfl
    exfalso
    -- A package does not need itself, or else calls would not return.
    have hself : name ∉ r.depends := by
      intro hmem
      have hacyclic := (terminates_iff repos).mp fun st name => (h st name).1
      exact hacyclic.irrefl.irrefl name ⟨r, hfind, hmem⟩
    obtain ⟨st, st', hrun, hnot⟩ := installPackage_decoy hfind hself
    have hinst := ((h st name).2 1 st' hrun).package
    rw [hnot] at hinst
    exact Bool.false_ne_true hinst
  · have hacyclic : Acyclic repos := by
      refine ⟨fun n => ⟨n, fun d hd => ?_⟩⟩
      obtain ⟨r, hfind, -⟩ := hd
      exact absurd (hfind.symm.trans (h n)) (by simp)
    refine ⟨terminates_of_acyclic hacyclic st name, fun depth st' hrun => ?_⟩
    -- With empty indexes 0 is only returned for what is installed already.
    cases depth with
    | zero => exact absurd hrun (by simp [installPackage])
    | succ depth =>
      rw [installPackage, h name] at hrun
      rcases hinst : st.dbInstalled name with _ | _
      · rw [hinst] at hrun
        cases hrun
      rw [hinst] at hrun
      cases hrun
      refine ⟨hinst, fun hnot => ?_, [], (append_nil _).symm, ordered_nil⟩
      cases hinst.symm.trans hnot

/-- An index with a package that needs another. -/
def twoIndex : List Repo :=
  [⟨cstr "main", [], cstr "name=a\nfilename=a.apkg\ndepends=b\n---\nname=b\nfilename=b.apkg\n---\n"⟩]

/-- Nothing is installed, and the archives of both are in the cache. -/
def twoCached : State where
  files := fun path =>
    if path = cachePath (cstr "a.apkg") then some (decoy 97)
    else if path = cachePath (cstr "b.apkg") then some (decoy 98) else none
  apkg_buf := fun _ => 0
  outcomes := []
  replies := []
  trace := []

/-- The two packages are installed, the one that is needed first. -/
theorem install_iff_honest : ∃ st',
    installPackage twoIndex false 2 twoCached (cstr "a") = some (0, st') ∧
      Installed twoIndex twoCached (cstr "a") st' ∧ st'.dbInstalled (cstr "b") = true := by
  have hindex : (idxFind twoIndex (cstr "a")).map (fun r => (r.filename, r.depends)) =
        some (cstr "a.apkg", [cstr "b"]) ∧
      (idxFind twoIndex (cstr "b")).map (fun r => (r.filename, r.depends)) = some (cstr "b.apkg", []) := by
    decide +kernel
  obtain ⟨ra, hfa, hra⟩ := Option.map_eq_some_iff.mp hindex.1
  obtain ⟨rb, hfb, hrb⟩ := Option.map_eq_some_iff.mp hindex.2
  obtain ⟨hna, hda⟩ := Prod.mk.inj hra
  obtain ⟨hnb, hdb⟩ := Prod.mk.inj hrb
  have hnone : twoCached.dbInstalled (cstr "a") = false ∧ twoCached.dbInstalled (cstr "b") = false ∧
      twoCached.files (cachePath (cstr "b.apkg")) = some (decoy 98) ∧
      twoCached.files (cachePath (cstr "a.apkg")) = some (decoy 97) := by decide +kernel
  have hpaths : dbPath (cstr "a") ≠ dbPath (cstr "b") ∧
      cachePath (cstr "a.apkg") ≠ dbPath (cstr "b") := by decide +kernel
  -- The call for `b`.
  obtain ⟨eb, heb, hnameb, hwritesb, houtb⟩ := extractBytes_decoy (.inr rfl) twoCached.apkg_buf rb []
  obtain ⟨mid, dbb, hsaveb, htraceb, hfilesb, hmidout⟩ := extractAndSave_nothing twoCached heb hwritesb houtb
  have hcallb : installPackage twoIndex false 1 twoCached (cstr "b") = some (0, mid) := by
    rw [installPackage, hnone.2.1, if_neg Bool.false_ne_true, hfb]
    dsimp only
    rw [hdb, installDeps]
    dsimp only
    rw [if_neg (not_not.mpr rfl), if_neg Bool.false_ne_true, fetch_cached _ (hnb ▸ hnone.2.2.1), hsaveb]
  have hmid : mid.dbInstalled (cstr "b") = true ∧ mid.dbInstalled (cstr "a") = false ∧
      mid.files (cachePath ra.filename) = some (decoy 97) := by
    rw [State.dbInstalled, State.dbInstalled, hfilesb, hnameb, hna]
    refine ⟨?_, ?_, ?_⟩
    · rw [show ([98] : CStr) = cstr "b" from rfl, update_self]
      rfl
    · rw [show ([98] : CStr) = cstr "b" from rfl, update_of_ne hpaths.1]
      exact hnone.1
    · rw [show ([98] : CStr) = cstr "b" from rfl, update_of_ne hpaths.2]
      exact hnone.2.2.2
  -- The call for `a`.
  obtain ⟨ea, hea, hnamea, hwritesa, houta⟩ := extractBytes_decoy (.inl rfl) mid.apkg_buf ra mid.outcomes
  obtain ⟨st', dba, hsavea, htracea, hfilesa, -⟩ :=
    extractAndSave_nothing mid hea hwritesa (houta.trans hmidout)
  have hrun : installPackage twoIndex false 2 twoCached (cstr "a") = some (0, st') := by
    rw [installPackage, hnone.1, if_neg Bool.false_ne_true, hfa]
    dsimp only
    rw [hda, installDeps, hnone.2.1, if_neg Bool.false_ne_true, hcallb]
    dsimp only
    rw [if_neg (not_not.mpr rfl), installDeps]
    dsimp only
    rw [if_neg (not_not.mpr rfl), if_neg Bool.false_ne_true, fetch_cached _ hmid.2.2, hsavea]
  have htrace : st'.trace = twoCached.trace ++
      [.extracts rb (decoy 98), .saves rb eb.p dbb, .extracts ra (decoy 97), .saves ra ea.p dba] := by
    rw [htracea, htraceb, append_assoc]
    rfl
  have hinstalled := (install_iff twoIndex).2.2.2 _ _ _ _ _ hrun htrace (by
    intro r p db hmem
    have hsaves : r = rb ∧ p = eb.p ∧ db = dbb ∨ r = ra ∧ p = ea.p ∧ db = dba := by simpa using hmem
    rcases hsaves with ⟨rfl, rfl, -⟩ | ⟨rfl, rfl, -⟩
    · rw [hnameb, idxFind_name hfb]
      rfl
    · rw [hnamea, idxFind_name hfa]
      rfl)
  refine ⟨st', hrun, hinstalled, hinstalled.depends hnone.1 ra hfa _ ?_⟩
  rw [hda]
  exact mem_cons_self

/-- An index with two packages that need each other. -/
def cyclicIndex : CStr :=
  cstr "name=a\nfilename=a.apkg\ndepends=b\n---\nname=b\nfilename=b.apkg\ndepends=a\n---\n"

/-- With it nothing comes of a request for the first one, and with a decoy in the cache a request for a
package is answered with 0 although it is not installed. -/
theorem cyclic_index_hangs :
    (∃ st, ∀ depth, installPackage [⟨cstr "main", [], cyclicIndex⟩] false depth st (cstr "a") = none) ∧
    ∃ st st', installPackage [⟨cstr "main", [], cstr "name=c\nfilename=c.apkg\n---\n"⟩] false 1 st (cstr "c") =
      some (0, st') ∧ st'.dbInstalled (cstr "c") = false := by
  constructor
  · have hneeds : ∀ (repos : List Repo) (n d : CStr),
        (idxFind repos n).map (·.depends) = some [d] → Needs repos d n := by
      intro repos n d h
      obtain ⟨r, hfind, hdeps⟩ := Option.map_eq_some_iff.mp h
      exact ⟨r, hfind, by rw [hdeps]; exact mem_cons_self⟩
    have hab := hneeds [⟨cstr "main", [], cyclicIndex⟩] (cstr "a") (cstr "b") (by decide +kernel)
    have hba := hneeds [⟨cstr "main", [], cyclicIndex⟩] (cstr "b") (cstr "a") (by decide +kernel)
    refine ⟨missing {cstr "a", cstr "b"}, fun depth => installPackage_missing ?_ depth (.inl rfl)⟩
    rintro n (rfl | rfl)
    · exact ⟨_, .inr rfl, hab⟩
    · exact ⟨_, .inl rfl, hba⟩
  · have hc : (idxFind [⟨cstr "main", [], cstr "name=c\nfilename=c.apkg\n---\n"⟩] (cstr "c")).map (·.depends) =
        some [] := by decide +kernel
    obtain ⟨r, hfind, hdeps⟩ := Option.map_eq_some_iff.mp hc
    exact installPackage_decoy hfind (by rw [hdeps]; exact not_mem_nil)

end FreeAsd.Apm
