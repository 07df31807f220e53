import FreeAsd.Apm.Archive

/-!
# Installing packages

`install_package` and `install_deps` of `userland/bin/apm.c`, on a file system that is a map from paths to
contents. What servers reply and what becomes of written files is part of the state, with a trace of the
archives extracted and the records saved. Directories are left out, and paths are compared as strings, so
that `./a` and `a` are two files.
-/

namespace FreeAsd.Apm

/-- What `http_get` does: whether it succeeds, and what it leaves in the file. -/
structure Reply where
  ok : Bool
  file : Option (List UInt8)

/-- What has happened: an archive was extracted for a record of the index, or the record of a package was
saved for it, when the packages in `db` were installed. -/
inductive Event
  | extracts (r : PkgInfo) (archive : List UInt8)
  | saves (r p : PkgInfo) (db : CStr → Bool)

/-- The state of a run. -/
structure State where
  files : CStr → Option (List UInt8)
  apkg_buf : ℕ → UInt8
  outcomes : List Outcome
  replies : List Reply
  trace : List Event

/-- `db_path`. -/
def dbPath (pkgname : CStr) : CStr :=
  scat pathLen (scat pathLen (scat pathLen (scopy pathLen (cstr "/var/apm/db/installed")) (cstr "/"))
    pkgname) (cstr ".apd")

/-- The path of an archive in the cache. -/
def cachePath (filename : CStr) : CStr :=
  scat pathLen (scat pathLen (scopy pathLen (cstr "/var/apm/cache")) (cstr "/")) filename

namespace State

/-- `db_installed`. -/
def dbInstalled (st : State) (name : CStr) : Bool := (st.files (dbPath name)).isSome

/-- A file gets new contents. -/
def put (st : State) (path : CStr) (data : List UInt8) : State :=
  { st with files := Function.update st.files path (some data) }

/-- `write_file`. -/
def writeFile (st : State) (path : CStr) (data : List UInt8) : Bool × State :=
  let outcome := st.outcomes.headD .done
  let st := { st with outcomes := st.outcomes.tail }
  match outcome with
  | .fails => (false, st)
  | .done => (true, st.put path data)
  | .stops k => (data.length ≤ k, st.put path (data.take k))

/-- `http_get`. -/
def httpGet (st : State) (dest_path : CStr) : Bool × State :=
  let reply := st.replies.headD ⟨false, none⟩
  let st := { st with replies := st.replies.tail }
  match reply.file with
  | none => (reply.ok, st)
  | some data => (reply.ok, st.put dest_path data)

/-- An event is noted. -/
def note (st : State) (ev : Event) : State := { st with trace := st.trace ++ [ev] }

/-- `db_save`, for the record `r` of the index. -/
def dbSave (st : State) (r p : PkgInfo) : ℤ × State :=
  match st.writeFile (dbPath p.name) (pkgSerialize 16384 p) with
  | (false, st') => (-1, st')
  | (true, st') => (0, st'.note (.saves r p st.dbInstalled))

/-- The state after an extraction. -/
def extracted (st : State) (buf : ℕ → UInt8) (e : Extract) : State :=
  { e.writes.foldl (fun st w => st.put w.1 w.2) st with apkg_buf := buf, outcomes := e.outcomes }

/-- `apkg_extract` of a file, and `db_save` of what it found. -/
def extractAndSave (st : State) (r : PkgInfo) (archive : List UInt8) : ℤ × State :=
  let (n, buf) := readFile archive st.apkg_buf
  let (rc, e) := apkgExtract buf n ⟨r, [], st.outcomes, []⟩
  if rc ≠ 0 then (-1, st.extracted buf e)
  else dbSave ((st.extracted buf e).note (.extracts r archive)) r e.p

/-- The rest of `install_package`, once the dependencies are installed: the archive is taken from the
cache, or downloaded first. -/
def fetch (repos : List Repo) (st : State) (r : PkgInfo) : ℤ × State :=
  let (ok, st) :=
    if st.files (cachePath r.filename) = none then
      if repos.any (·.name = r.repo) then st.httpGet (cachePath r.filename) else (false, st)
    else (true, st)
  if !ok then (-1, st)
  else
    match st.files (cachePath r.filename) with
    | none => (-1, st)
    | some archive => st.extractAndSave r archive

end State

/-- `install_deps`, with the function that installs a package. -/
def installDeps (install : State → CStr → Option (ℤ × State)) : State → List CStr → Option (ℤ × State)
  | st, [] => some (0, st)
  | st, d :: ds =>
    if st.dbInstalled d then installDeps install st ds
    else
      match install st d with
      | none => none
      | some (rc, st) => if rc ≠ 0 then some (-1, st) else installDeps install st ds

/-- `install_package`, with a bound on how deep its calls are nested. There is no result if the bound is
too small. -/
def installPackage (repos : List Repo) (dry_run : Bool) : ℕ → State → CStr → Option (ℤ × State)
  | 0, _, _ => none
  | depth + 1, st, name =>
    if st.dbInstalled name then some (0, st)
    else
      match idxFind repos name with
      | none => some (-1, st)
      | some r =>
        match installDeps (installPackage repos dry_run depth) st r.depends with
        | none => none
        | some (rc, st) =>
          if rc ≠ 0 then some (-1, st)
          else if dry_run then some (0, st)
          else some (st.fetch repos r)

end FreeAsd.Apm
