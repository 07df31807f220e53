import FreeAsd.Apm.Install
import FreeAsd.Apm.ArchiveRoundTrip
import Mathlib.Order.WellFounded

/-!
# Runs of the installer

If `install_package` returns 0, and every archive carried the name of its record, then the package and its
dependencies are installed, each after its own dependencies (`installed_of_honest`).
-/

namespace FreeAsd.Apm

open Function Text List Option

variable {repos : List Repo} {dry_run : Bool} {st st' : State} {name : CStr} {rc : ℤ}
  {evs evs' : List Event}

/-! ## What a run keeps -/

/-- What a part of a run does: files stay, and the trace goes on with `evs`. -/
structure Extends (st st' : State) (evs : List Event) : Prop where
  grows : ∀ path, (st.files path).isSome → (st'.files path).isSome
  trace : st'.trace = st.trace ++ evs

namespace Extends

theorem refl (st : State) : Extends st st [] := ⟨fun _ h => h, (append_nil _).symm⟩

theorem trans {st'' : State} (h : Extends st st' evs) (h' : Extends st' st'' evs') :
    Extends st st'' (evs ++ evs') := by
  refine ⟨fun path hp => h'.grows path (h.grows path hp), ?_⟩
  rw [h'.trace, h.trace, append_assoc]

theorem installed (h : Extends st st' evs) {d : CStr} (hd : st.dbInstalled d = true) :
    st'.dbInstalled d = true := h.grows _ hd

end Extends

/-- Every record is saved under the name that it was looked up with. -/
def Honest (evs : List Event) : Prop := ∀ r p db, Event.saves r p db ∈ evs → p.name = r.name

theorem Honest.left (h : Honest (evs ++ evs')) : Honest evs :=
  fun r p db hmem => h r p db (mem_append_left _ hmem)

theorem Honest.right (h : Honest (evs ++ evs')) : Honest evs' :=
  fun r p db hmem => h r p db (mem_append_right _ hmem)

/-- Every record is saved when its dependencies are installed. -/
def Ordered (evs : List Event) : Prop :=
  ∀ r p db, Event.saves r p db ∈ evs → ∀ d ∈ r.depends, db d = true

theorem Ordered.append (h : Ordered evs) (h' : Ordered evs') : Ordered (evs ++ evs') := by
  intro r p db hmem
  rcases mem_append.mp hmem with hmem | hmem
  · exact h r p db hmem
  · exact h' r p db hmem

theorem ordered_nil : Ordered [] := fun _ _ _ h => absurd h not_mem_nil

/-- The header of an archive is in order. -/
structure Accepted (archive : List UInt8) : Prop where
  length : 12 ≤ (loaded archive).length
  magic : archive.take 4 = cstr "APKG"
  version : leNum ((archive.drop 4).take 2) = 1
  fits : (textLength archive + 16) % 2^32 ≤ (loaded archive).length

/-- The extractor accepts archives for their headers. -/
theorem accepted_iff {archive : List UInt8} (old : ℕ → UInt8) (r : PkgInfo) (outcomes : List Outcome) :
    (extractBytes archive old r outcomes).1 = 0 ↔ Accepted archive := by
  rcases extractBytes_cases archive old r outcomes with ⟨hshort, heq⟩ | ⟨hlong, hbad, heq⟩ |
    ⟨hlong, hmagic, hversion, hfits, heq⟩
  · rw [heq]
    refine ⟨fun h => (by cases h), fun h => ?_⟩
    exact absurd h.length (Nat.not_le.mpr hshort)
  · rw [heq]
    refine ⟨fun h => (by cases h), fun h => ?_⟩
    rcases hbad with hbad | hbad | hbad
    · exact absurd h.magic hbad
    · exact absurd h.version hbad
    · exact absurd h.fits (Nat.not_le.mpr hbad)
  · rw [heq]
    exact ⟨fun _ => ⟨hlong, hmagic, hversion, hfits⟩, fun _ => rfl⟩

/-- What is extracted is accepted, for a record of an index. -/
def FromIndex (repos : List Repo) (evs : List Event) : Prop :=
  ∀ r archive, Event.extracts r archive ∈ evs → (∃ name, idxFind repos name = some r) ∧ Accepted archive

theorem FromIndex.append (h : FromIndex repos evs) (h' : FromIndex repos evs') :
    FromIndex repos (evs ++ evs') := by
  intro r archive hmem
  rcases mem_append.mp hmem with hmem | hmem
  · exact h r archive hmem
  · exact h' r archive hmem

theorem fromIndex_nil : FromIndex repos [] := fun _ _ h => absurd h not_mem_nil

/-! ## Fetching and saving -/

theorem isSome_update {files : CStr → Option (List UInt8)} {path path' : CStr} {data : List UInt8}
    (h : (files path').isSome) : (update files path (some data) path').isSome := by
  rw [update_apply]
  split_ifs
  · rfl
  · exact h

theorem writeFile_spec (st : State) (path : CStr) (data : List UInt8) :
    (∀ path', (st.files path').isSome → ((st.writeFile path data).2.files path').isSome) ∧
    (st.writeFile path data).2.trace = st.trace ∧
    ((st.writeFile path data).1 = true → ((st.writeFile path data).2.files path).isSome) := by
  unfold State.writeFile
  cases st.outcomes.headD .done with
  | fails => exact ⟨fun _ h => h, rfl, fun h => absurd h Bool.false_ne_true⟩
  | done =>
    refine ⟨fun _ h => isSome_update h, rfl, fun _ => ?_⟩
    exact isSome_iff_exists.mpr ⟨data, update_self ..⟩
  | stops k =>
    refine ⟨fun _ h => isSome_update h, rfl, fun _ => ?_⟩
    exact isSome_iff_exists.mpr ⟨data.take k, update_self ..⟩

theorem httpGet_spec (st : State) (path : CStr) : Extends st (st.httpGet path).2 [] := by
  unfold State.httpGet
  dsimp only
  cases (st.replies.headD ⟨false, none⟩).file with
  | none => exact ⟨fun _ h => h, (append_nil _).symm⟩
  | some data => exact ⟨fun _ h => isSome_update h, (append_nil _).symm⟩

/-- What is known of the events of extracting and saving a package. -/
structure EventsFor (st : State) (r : PkgInfo) (evs : List Event) : Prop where
  extracts : ∀ r' archive, Event.extracts r' archive ∈ evs → r' = r ∧ Accepted archive
  saves : ∀ r' p db, Event.saves r' p db ∈ evs → r' = r ∧ ∀ d, st.dbInstalled d = true → db d = true

theorem eventsFor_nil {r : PkgInfo} : EventsFor st r [] :=
  ⟨fun _ _ h => absurd h not_mem_nil, fun _ _ _ h => absurd h not_mem_nil⟩

/-- Events of a later state are events of an earlier one. -/
theorem EventsFor.trans {r : PkgInfo} (h : EventsFor st r evs) (hrun : Extends st st' evs)
    (h' : EventsFor st' r evs') : EventsFor st r (evs ++ evs') := by
  constructor
  · intro r' archive hmem
    rcases mem_append.mp hmem with hmem | hmem
    · exact h.extracts r' archive hmem
    · exact h'.extracts r' archive hmem
  · intro r' p db hmem
    rcases mem_append.mp hmem with hmem | hmem
    · exact h.saves r' p db hmem
    · obtain ⟨hr, hdb⟩ := h'.saves r' p db hmem
      exact ⟨hr, fun d hd => hdb d (hrun.installed hd)⟩

/-- Saving a record: it is there afterwards, and the event tells what was installed before. -/
theorem dbSave_spec (st : State) (r p : PkgInfo) :
    ∃ evs, Extends st (st.dbSave r p).2 evs ∧ EventsFor st r evs ∧
      ((st.dbSave r p).1 = 0 → evs = [.saves r p st.dbInstalled] ∧
        (st.dbSave r p).2.dbInstalled p.name = true) := by
  obtain ⟨hgrows, htrace, hdone⟩ := writeFile_spec st (dbPath p.name) (pkgSerialize 16384 p)
  unfold State.dbSave
  rcases hwrite : st.writeFile (dbPath p.name) (pkgSerialize 16384 p) with ⟨_ | _, st'⟩
  · rw [hwrite] at hgrows htrace
    exact ⟨[], ⟨hgrows, htrace.trans (append_nil _).symm⟩, eventsFor_nil, fun h => by cases h⟩
  rw [hwrite] at hgrows htrace hdone
  refine ⟨[.saves r p st.dbInstalled], ⟨hgrows, ?_⟩, ⟨?_, ?_⟩, fun _ => ⟨rfl, hdone rfl⟩⟩
  · exact congrArg (· ++ [Event.saves r p st.dbInstalled]) htrace
  · intro r' archive hmem
    exact absurd (mem_singleton.mp hmem) (by simp)
  · intro r' p' db hmem
    cases mem_singleton.mp hmem
    exact ⟨rfl, fun d hd => hd⟩

theorem extracted_spec (st : State) (buf : ℕ → UInt8) (e : Extract) : Extends st (st.extracted buf e) [] := by
  have hputs : ∀ (ws : List (CStr × List UInt8)) (st : State),
      Extends st (ws.foldl (fun st w => st.put w.1 w.2) st) [] := by
    intro ws
    induction ws with
    | nil => exact Extends.refl
    | cons w ws ih =>
      intro st
      have hput : Extends st (st.put w.1 w.2) [] := ⟨fun _ h => isSome_update h, (append_nil _).symm⟩
      exact hput.trans (ih _)
  obtain ⟨hgrows, htrace⟩ := hputs e.writes st
  exact ⟨hgrows, htrace⟩

/-- Extracting an archive and saving what it says. -/
theorem extractAndSave_spec (st : State) (r : PkgInfo) (archive : List UInt8) :
    ∃ evs, Extends st (st.extractAndSave r archive).2 evs ∧ EventsFor st r evs ∧
      ((st.extractAndSave r archive).1 = 0 → ∃ p db, Event.saves r p db ∈ evs ∧
        (st.extractAndSave r archive).2.dbInstalled p.name = true) := by
  unfold State.extractAndSave
  dsimp only
  obtain ⟨res, hres⟩ : ∃ res, res = apkgExtract (readFile archive st.apkg_buf).2
    (readFile archive st.apkg_buf).1 ⟨r, [], st.outcomes, []⟩ := ⟨_, rfl⟩
  rw [← hres]
  generalize hmid : st.extracted (readFile archive st.apkg_buf).2 res.2 = mid
  have hextracted : Extends st mid [] := hmid ▸ extracted_spec st _ _
  split_ifs with hrc
  · exact ⟨[], hextracted, eventsFor_nil, fun h => by cases h⟩
  have haccepted : Accepted archive := by
    rw [← accepted_iff st.apkg_buf r st.outcomes, extractBytes, ← hres]
    exact not_not.mp hrc
  have hnoted : Extends mid (mid.note (.extracts r archive)) [.extracts r archive] := ⟨fun _ h => h, rfl⟩
  have hrun := hextracted.trans hnoted
  have hfirst : EventsFor st r ([] ++ [.extracts r archive]) := by
    constructor
    · intro r' archive' hmem
      cases mem_singleton.mp hmem
      exact ⟨rfl, haccepted⟩
    · intro r' p db hmem
      exact absurd (mem_singleton.mp hmem) (by simp)
  obtain ⟨evs, hok, hevents, hzero⟩ := dbSave_spec (mid.note (.extracts r archive)) r res.2.p
  refine ⟨_, hrun.trans hok, hfirst.trans hrun hevents, fun hrc => ?_⟩
  obtain ⟨rfl, hinst⟩ := hzero hrc
  exact ⟨_, _, mem_append_right _ mem_cons_self, hinst⟩

theorem fetch_spec (repos : List Repo) (st : State) (r : PkgInfo) :
    ∃ evs, Extends st (st.fetch repos r).2 evs ∧ EventsFor st r evs ∧
      ((st.fetch repos r).1 = 0 → ∃ p db, Event.saves r p db ∈ evs ∧
        (st.fetch repos r).2.dbInstalled p.name = true) := by
  unfold State.fetch
  obtain ⟨got, hgot⟩ : ∃ got : Bool × State, got =
      if st.files (cachePath r.filename) = none then
        if repos.any (·.name = r.repo) then st.httpGet (cachePath r.filename) else (false, st)
      else (true, st) := ⟨_, rfl⟩
  have hrun : Extends st got.2 [] := by
    rw [hgot]
    split_ifs
    · exact httpGet_spec st _
    · exact Extends.refl st
    · exact Extends.refl st
  rw [← hgot]
  obtain ⟨ok, mid⟩ := got
  dsimp only at hrun ⊢
  split_ifs
  · exact ⟨[], hrun, eventsFor_nil, fun h => by cases h⟩
  cases mid.files (cachePath r.filename) with
  | none => exact ⟨[], hrun, eventsFor_nil, fun h => by cases h⟩
  | some archive =>
    obtain ⟨evs, hok, hevents, hzero⟩ := extractAndSave_spec mid r archive
    exact ⟨_, hrun.trans hok, eventsFor_nil.trans hrun hevents, hzero⟩

/-! ## Whole runs -/

/-- The record that is found has the name that was looked for. -/
theorem idxFind_name {r : PkgInfo} (h : idxFind repos name = some r) : r.name = name := by
  obtain ⟨repo, -, hrepo⟩ := exists_of_findSome?_eq_some h
  obtain ⟨text, -, htext⟩ := exists_of_findSome?_eq_some hrepo
  split_ifs at htext with hname
  rw [← some.inj htext]
  change (kvGet text (cstr "name") pkgNameLen).getD [] = name
  rw [hname]
  rfl

/-- What is known of a run that returns, for a function that installs a package. -/
def InstallOk (repos : List Repo) (install : State → CStr → Option (ℤ × State)) : Prop :=
  ∀ st name rc st', install st name = some (rc, st') →
    ∃ evs, Extends st st' evs ∧ FromIndex repos evs ∧
      (Honest evs → Ordered evs ∧ (rc = 0 → st'.dbInstalled name = true))

theorem installDeps_spec {install : State → CStr → Option (ℤ × State)} (hinstall : InstallOk repos install)
    {ds : List CStr} (h : installDeps install st ds = some (rc, st')) :
    ∃ evs, Extends st st' evs ∧ FromIndex repos evs ∧
      (Honest evs → Ordered evs ∧ (rc = 0 → ∀ d ∈ ds, st'.dbInstalled d = true)) := by
  induction ds generalizing st with
  | nil =>
    cases h
    exact ⟨[], Extends.refl _, fromIndex_nil, fun _ => ⟨ordered_nil, fun _ d hd => absurd hd not_mem_nil⟩⟩
  | cons d ds ih =>
    rw [installDeps] at h
    split_ifs at h with hinst
    · obtain ⟨evs, hok, hfrom, hall⟩ := ih h
      refine ⟨evs, hok, hfrom, fun hhonest => ⟨(hall hhonest).1, fun hrc d' hd' => ?_⟩⟩
      rcases mem_cons.mp hd' with rfl | hd'
      · exact hok.installed hinst
      · exact (hall hhonest).2 hrc d' hd'
    · rcases hd : install st d with _ | ⟨rcd, mid⟩
      · rw [hd] at h
        cases h
      rw [hd] at h
      obtain ⟨evs, hok, hfrom, hdone⟩ := hinstall st d rcd mid hd
      dsimp only at h
      split_ifs at h with hfail
      · cases h
        exact ⟨evs, hok, hfrom, fun hhonest => ⟨(hdone hhonest).1, fun hrc => absurd hrc (by decide)⟩⟩
      obtain ⟨evs', hok', hfrom', hall⟩ := ih h
      refine ⟨evs ++ evs', hok.trans hok', hfrom.append hfrom', fun hhonest => ?_⟩
      obtain ⟨hordered, hd⟩ := hdone hhonest.left
      obtain ⟨hordered', hds⟩ := hall hhonest.right
      refine ⟨hordered.append hordered', fun hrc d' hd' => ?_⟩
      rcases mem_cons.mp hd' with rfl | hd'
      · exact hok'.installed (hd (not_not.mp hfail))
      · exact hds hrc d' hd'

section

variable {depth : ℕ} {r : PkgInfo} (hinst : st.dbInstalled name = false)
  (hfind : idxFind repos name = some r) (h : installPackage repos false (depth + 1) st name = some (rc, st'))

include hinst hfind h

/-- The parts of a call that gets as far as the dependencies. -/
theorem installPackage_found :
    ∃ rcd mid, installDeps (installPackage repos false depth) st r.depends = some (rcd, mid) ∧
      (rcd ≠ 0 ∧ rc = -1 ∧ st' = mid ∨ rcd = 0 ∧ (rc, st') = mid.fetch repos r) := by
  rw [installPackage, hinst, hfind] at h
  dsimp only at h
  rw [if_neg Bool.false_ne_true] at h
  rcases hdeps : installDeps (installPackage repos false depth) st r.depends with _ | ⟨rcd, mid⟩
  · rw [hdeps] at h
    cases h
  rw [hdeps] at h
  dsimp only at h
  refine ⟨rcd, mid, rfl, ?_⟩
  by_cases hrcd : rcd ≠ 0
  · rw [if_pos hrcd] at h
    cases h
    exact .inl ⟨hrcd, rfl, rfl⟩
  · rw [if_neg hrcd, if_neg Bool.false_ne_true] at h
    exact .inr ⟨not_not.mp hrcd, (some.inj h).symm⟩

/-- What is known of a call that gets as far as the dependencies. -/
theorem installPackage_found_spec (ih : InstallOk repos (installPackage repos false depth)) :
    ∃ evs, Extends st st' evs ∧ FromIndex repos evs ∧ (Honest evs → Ordered evs ∧ (rc = 0 →
      st'.dbInstalled name = true ∧ ∀ d ∈ r.depends, st'.dbInstalled d = true)) := by
  obtain ⟨rcd, mid, hdeps, hrest⟩ := installPackage_found hinst hfind h
  obtain ⟨evs, hok, hfrom, hall⟩ := installDeps_spec ih hdeps
  rcases hrest with ⟨-, rfl, rfl⟩ | ⟨hrcd, hfetch⟩
  · exact ⟨evs, hok, hfrom, fun hhonest => ⟨(hall hhonest).1, fun hrc => absurd hrc (by decide)⟩⟩
  obtain ⟨evs', hok', hevents, hzero⟩ := fetch_spec repos mid r
  rw [← hfetch] at hok' hzero
  have hfrom' : FromIndex repos evs' := by
    intro r' archive hmem
    obtain ⟨rfl, haccepted⟩ := hevents.extracts r' archive hmem
    exact ⟨⟨name, hfind⟩, haccepted⟩
  refine ⟨evs ++ evs', hok.trans hok', hfrom.append hfrom', fun hhonest => ?_⟩
  obtain ⟨hordered, hds⟩ := hall hhonest.left
  -- All dependencies are installed when the package is saved.
  have hordered' : Ordered evs' := by
    intro r' p db hmem d hd
    obtain ⟨rfl, hdb⟩ := hevents.saves r' p db hmem
    exact hdb d (hds hrcd d hd)
  refine ⟨hordered.append hordered', fun hrc => ⟨?_, fun d hd => hok'.installed (hds hrcd d hd)⟩⟩
  obtain ⟨p, db, hmem, hinst'⟩ := hzero hrc
  rw [hhonest.right r p db hmem, idxFind_name hfind] at hinst'
  exact hinst'

end

theorem installOk (repos : List Repo) (depth : ℕ) : InstallOk repos (installPackage repos false depth) := by
  induction depth with
  | zero => exact fun st name rc st' h => absurd h (by simp [installPackage])
  | succ depth ih =>
    intro st name rc st' h
    rcases hinst : st.dbInstalled name with _ | _
    · rcases hfind : idxFind repos name with _ | r
      · rw [installPackage, hinst, hfind] at h
        cases h
        exact ⟨[], Extends.refl st, fromIndex_nil, fun _ => ⟨ordered_nil, fun hrc => absurd hrc (by decide)⟩⟩
      · obtain ⟨evs, hok, hfrom, hall⟩ := installPackage_found_spec hinst hfind h ih
        exact ⟨evs, hok, hfrom, fun hhonest => ⟨(hall hhonest).1, fun hrc => ((hall hhonest).2 hrc).1⟩⟩
    · rw [installPackage, hinst] at h
      cases h
      exact ⟨[], Extends.refl st, fromIndex_nil, fun _ => ⟨ordered_nil, fun _ => hinst⟩⟩

/-! ## The property -/

/-- What a call that returned 0 should have done: the package and the dependencies of the record used are
installed, and every package was saved when its dependencies were installed. -/
structure Installed (repos : List Repo) (st : State) (name : CStr) (st' : State) : Prop where
  package : st'.dbInstalled name = true
  depends : st.dbInstalled name = false → ∀ r, idxFind repos name = some r →
    ∀ d ∈ r.depends, st'.dbInstalled d = true
  ordered : ∃ evs, st'.trace = st.trace ++ evs ∧ Ordered evs

/-- If every archive carried the name of its record, then a call that returned 0 did what it should. -/
theorem installed_of_honest {depth : ℕ} (h : installPackage repos false depth st name = some (0, st'))
    (htrace : st'.trace = st.trace ++ evs) (hhonest : Honest evs) :
    Installed repos st name st' := by
  obtain ⟨evs', hok, -, hall⟩ := installOk repos depth st name 0 st' h
  obtain rfl : evs = evs' := append_cancel_left (htrace.symm.trans hok.trace)
  obtain ⟨hordered, hpackage⟩ := hall hhonest
  refine ⟨hpackage rfl, fun hinst r hfind => ?_, evs, htrace, hordered⟩
  cases depth with
  | zero => exact absurd h (by simp [installPackage])
  | succ depth =>
    obtain ⟨evs', hok', -, hall'⟩ := installPackage_found_spec hinst hfind h (installOk repos depth)
    obtain rfl : evs = evs' := append_cancel_left (htrace.symm.trans hok'.trace)
    exact ((hall' hhonest).2 rfl).2

/-! ## Termination -/

/-- The call returns. -/
def Terminates (repos : List Repo) (st : State) (name : CStr) : Prop :=
  ∃ depth, (installPackage repos false depth st name).isSome

/-- A package needs another. -/
def Needs (repos : List Repo) (d name : CStr) : Prop := ∃ r, idxFind repos name = some r ∧ d ∈ r.depends

/-- A package needs another that is not installed. -/
def Lacks (repos : List Repo) (st : State) (d name : CStr) : Prop :=
  Needs repos d name ∧ st.dbInstalled d = false

/-- There are no cycles among the packages of the indexes. -/
def Acyclic (repos : List Repo) : Prop := WellFounded (Needs repos)

theorem installDeps_mono {f g : State → CStr → Option (ℤ × State)}
    (hfg : ∀ st d x, f st d = some x → g st d = some x) {ds : List CStr} {x : ℤ × State}
    (h : installDeps f st ds = some x) : installDeps g st ds = some x := by
  induction ds generalizing st with
  | nil => exact h
  | cons d ds ih =>
    rw [installDeps] at h ⊢
    split_ifs at h ⊢
    · exact ih h
    rcases hd : f st d with _ | y
    · rw [hd] at h
      cases h
    rw [hd] at h
    rw [hfg st d y hd]
    dsimp only at h ⊢
    split_ifs at h ⊢
    · exact h
    · exact ih h

theorem installPackage_mono {depth depth' : ℕ} (hle : depth ≤ depth') {x : ℤ × State}
    (h : installPackage repos dry_run depth st name = some x) :
    installPackage repos dry_run depth' st name = some x := by
  induction depth generalizing depth' st name x with
  | zero => exact absurd h (by simp [installPackage])
  | succ depth ih =>
    obtain ⟨depth', rfl⟩ : ∃ k, depth' = k + 1 := ⟨depth' - 1, by omega⟩
    rw [installPackage] at h ⊢
    by_cases hinst : st.dbInstalled name
    · rwa [if_pos hinst] at h ⊢
    rw [if_neg hinst] at h ⊢
    cases hfind : idxFind repos name with
    | none =>
      rw [hfind] at h
      exact h
    | some r =>
      rw [hfind] at h
      dsimp only at h ⊢
      rcases hdeps : installDeps (installPackage repos dry_run depth) st r.depends with _ | y
      · rw [hdeps] at h
        cases h
      · rw [hdeps] at h
        rw [installDeps_mono (fun _ _ _ hx => ih (by omega) hx) hdeps]
        exact h

/-- Dependencies of which each is handled are handled one after the other. What was installed in the
state `st₀` stays so. -/
theorem installDeps_terminates {st₀ : State} {ds : List CStr}
    (h : ∀ d ∈ ds, ∀ st, (∀ d, st₀.dbInstalled d → st.dbInstalled d) → st.dbInstalled d = false →
      Terminates repos st d) (hst : ∀ d, st₀.dbInstalled d → st.dbInstalled d) :
    ∃ depth, (installDeps (installPackage repos false depth) st ds).isSome := by
  induction ds generalizing st with
  | nil => exact ⟨0, rfl⟩
  | cons d ds ih =>
    have hds := (forall_mem_cons.mp h).2
    by_cases hinst : st.dbInstalled d
    · obtain ⟨depth, hdepth⟩ := ih hds hst
      exact ⟨depth, by rwa [installDeps, if_pos hinst]⟩
    obtain ⟨depth, hdepth⟩ := h d mem_cons_self st hst (Bool.eq_false_iff.mpr hinst)
    obtain ⟨⟨rcd, mid⟩, hd⟩ := isSome_iff_exists.mp hdepth
    obtain ⟨evs, hok, -⟩ := installOk repos depth st d rcd mid hd
    by_cases hrcd : rcd ≠ 0
    · refine ⟨depth, ?_⟩
      rw [installDeps, if_neg hinst, hd]
      dsimp only
      rw [if_pos hrcd]
      rfl
    · obtain ⟨depth', hdepth'⟩ := ih hds fun e he => hok.installed (hst e he)
      obtain ⟨x, hx⟩ := isSome_iff_exists.mp hdepth'
      have hx' := installDeps_mono (fun _ _ _ h => installPackage_mono (le_max_right depth depth') h) hx
      refine ⟨max depth depth', ?_⟩
      rw [installDeps, if_neg hinst, installPackage_mono (le_max_left depth depth') hd]
      dsimp only
      rw [if_neg hrcd, hx']
      rfl

/-- A call returns if there is no cycle of packages that are missing, from the one that is asked for on. -/
theorem terminates_of_acc {st₀ : State} (h : Acc (Lacks repos st₀) name)
    (hst : ∀ d, st₀.dbInstalled d → st.dbInstalled d) : Terminates repos st name := by
  induction h generalizing st with
  | intro name _ ih =>
    by_cases hinst : st.dbInstalled name
    · refine ⟨1, ?_⟩
      rw [installPackage, if_pos hinst]
      rfl
    cases hfind : idxFind repos name with
    | none =>
      refine ⟨1, ?_⟩
      rw [installPackage, if_neg hinst, hfind]
      rfl
    | some r =>
      have hdep : ∀ d ∈ r.depends, ∀ st, (∀ d, st₀.dbInstalled d → st.dbInstalled d) →
          st.dbInstalled d = false → Terminates repos st d := by
        intro d hd st hst hnot
        refine ih d ⟨⟨r, hfind, hd⟩, Bool.eq_false_iff.mpr fun hinst => ?_⟩ hst
        rw [hst d hinst] at hnot
        cases hnot
      obtain ⟨depth, hdepth⟩ := installDeps_terminates hdep hst
      obtain ⟨⟨rcd, mid⟩, hdeps⟩ := isSome_iff_exists.mp hdepth
      refine ⟨depth + 1, ?_⟩
      rw [installPackage, if_neg hinst, hfind]
      dsimp only
      rw [hdeps]
      dsimp only
      split_ifs <;> rfl

/-- Without cycles every call returns. -/
theorem terminates_of_acyclic (h : Acyclic repos) (st : State) (name : CStr) : Terminates repos st name :=
  terminates_of_acc (Subrelation.accessible (fun hlacks => hlacks.1) (h.apply name)) fun _ hd => hd

end FreeAsd.Apm
