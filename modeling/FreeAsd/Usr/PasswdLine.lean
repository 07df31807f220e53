import FreeAsd.Usr.PasswdRoundTrip

/-!
# What a line of the password file changes

`usr_load_passwd` looks an account up by the uid alone, modulo `2^16`, and cuts a long name. So a line may
change an account that it does not name (`onlyNamed_iff`).
-/

namespace FreeAsd.Usr

open Text List

/-- The name and the uid written in the line at a position: its first two words, in full. -/
def written (p : CStr) : CStr × ℕ :=
  let name := (skipWs p).takeWhile (!isSpace ·)
  let uid := (skipWs ((skipWs p).drop name.length)).takeWhile (!isSpace ·)
  (name, (uid.takeWhile isDigit).foldl (fun v c => v * 10 + (c.toNat - 48)) 0)

/-- The fields of a line as they are read. -/
structure Line where
  name : CStr
  uid : UInt16
  gid : UInt16
  flags_s : CStr
  home : CStr
  shell : CStr
  salt_s : CStr
  hash_s : CStr
  name_ne : name ≠ []
  name_le : name.length ≤ usrNameLen - 1

/-- The line at a position, if it is not skipped. -/
def readLine (p : CStr) : Option Line :=
  let p := skipWs p
  if p = [] ∨ p.head? = some 35 ∨ p.head? = some 10 then none
  else
    let name := readTok usrNameLen p
    let uid_s := readTok 16 name.2
    let gid_s := readTok 16 uid_s.2
    let flags_s := readTok 32 gid_s.2
    let home := readTok usrHomeLen flags_s.2
    let shell := readTok usrShellLen home.2
    let salt_s := readTok 20 shell.2
    let hash_s := readTok 20 salt_s.2
    if h : name.1 = [] ∨ uid_s.1 = [] ∨ gid_s.1 = [] then none
    else some ⟨name.1, UInt16.ofNat (readDecimal uid_s.1), UInt16.ofNat (readDecimal gid_s.1), flags_s.1,
      home.1, shell.1, salt_s.1, hash_s.1, fun hn => h (.inl hn), (readTok_spec _ _).2.1⟩

/-- What a line does. -/
def Line.load (l : Line) (db : Db) : Db :=
  loadAccount db l.name l.uid l.gid l.flags_s l.home l.shell l.salt_s l.hash_s

/-- The database after the line at a position. -/
def loadOne (db : Db) (p : CStr) : Db := (readLine p).elim db (·.load db)

/-- `usr_load_passwd` loads line after line. -/
theorem loadLoop_succ {db : Db} {p : CStr} {loaded : ℕ} (n : ℕ) (h : ¬(p = [] ∨ usrMaxUsers ≤ loaded)) :
    ∃ loaded' p', loadLoop (n + 1) loaded db p = loadLoop n loaded' (loadOne db p) p' := by
  unfold loadOne readLine
  rw [loadLoop, if_neg h]
  dsimp only
  split_ifs
  · exact ⟨_, _, rfl⟩
  · exact ⟨_, _, rfl⟩
  · rw [Option.elim_some, Line.load]
    dsimp only
    exact ⟨_, _, rfl⟩

/-- The account with the salt and the hash of the line. -/
def Line.set (l : Line) (u : Account) : Account :=
  { u with
    pw_salt := if isHex64 l.salt_s then UInt64.ofNat (readHex64 l.salt_s) else u.pw_salt
    pw_hash := if isHex64 l.hash_s then UInt64.ofNat (readHex64 l.hash_s) else u.pw_hash }

/-- The account is the one named, or its salt and hash are the same. -/
def Kept (name : CStr) (uid : ℕ) (u u' : Account) : Prop :=
  u.name = name ∧ u.uid.toNat = uid ∨ u'.pw_salt = u.pw_salt ∧ u'.pw_hash = u.pw_hash

theorem Kept.refl (name : CStr) (uid : ℕ) (u : Account) : Kept name uid u u := .inr ⟨rfl, rfl⟩

/-- Only the account named is changed, and one that is made is the one named. -/
structure OnlyNamed (name : CStr) (uid : ℕ) (db db' : Db) : Prop where
  kept : Forall₂ (Kept name uid) db.users (db'.users.take db.users.length)
  made : ∀ u ∈ db'.users.drop db.users.length, u.name = name ∧ u.uid.toNat = uid

/-- The account with the uid that was read is the one named, or loses nothing; one that is made gets the
name and the uid written. -/
def Line.Safe (l : Line) (name : CStr) (uid : ℕ) (db : Db) : Prop :=
  match db.findUid l.uid with
  | some u => Kept name uid u (l.set u)
  | none => db.findName l.name = none → db.users.length < usrMaxUsers → l.name = name ∧ l.uid.toNat = uid

theorem forall₂_modifyUid {R : Account → Account → Prop} (hR : ∀ u, R u u) (uid : UInt16)
    (f : Account → Account) (us : List Account) :
    Forall₂ R us (modifyUid uid f us) ↔ ∀ u ∈ us.find? (·.uid = uid), R u (f u) := by
  induction us with
  | nil => simp [modifyUid]
  | cons v us ih =>
    by_cases hv : v.uid = uid
    · simp [modifyUid, hv, forall₂_same, hR]
    · simp [modifyUid, hv, hR, ih]

/-- Accounts are only added. -/
theorem onlyNamed_append {name : CStr} {uid : ℕ} {db db' : Db} {vs : List Account}
    (h : db'.users = db.users ++ vs) :
    OnlyNamed name uid db db' ↔ ∀ v ∈ vs, v.name = name ∧ v.uid.toNat = uid := by
  have hkept : Forall₂ (Kept name uid) db.users (db'.users.take db.users.length) := by
    rw [h, take_left, forall₂_same]
    exact fun u _ => .refl name uid u
  have hdrop : db'.users.drop db.users.length = vs := by rw [h, drop_left]
  exact ⟨fun hnamed => hdrop ▸ hnamed.made, fun hmade => ⟨hkept, hdrop.symm ▸ hmade⟩⟩

/-- An account is made, or the one with the uid is changed. -/
theorem Line.users_load (l : Line) (db : Db) :
    (db.findUid l.uid = none ∧ db.findName l.name = none ∧ db.users.length < usrMaxUsers ∧
      ∃ v : Account, v.name = l.name ∧ v.uid = l.uid ∧ (l.load db).users = db.users ++ [v]) ∨
    ¬(db.findUid l.uid = none ∧ db.findName l.name = none ∧ db.users.length < usrMaxUsers) ∧
      (l.load db).users = modifyUid l.uid l.set db.users := by
  unfold Line.load loadAccount
  by_cases hnew : db.findUid l.uid = none ∧ db.findName l.name = none
  · rw [if_pos hnew]
    by_cases hlen : db.users.length < usrMaxUsers
    · rw [usrAdd_eq hlen hnew.1 hnew.2 l.name_ne, Option.getD_some]
      dsimp only
      rw [modifyUid_append (findUid_eq_none.mp hnew.1) rfl]
      exact .inl ⟨hnew.1, hnew.2, hlen, _, take_of_length_le l.name_le, rfl, rfl⟩
    · rw [usrAdd, if_pos (by omega)]
      exact .inr ⟨fun h => hlen h.2.2, rfl⟩
  · rw [if_neg hnew]
    exact .inr ⟨fun h => hnew ⟨h.1, h.2.1⟩, rfl⟩

/-- For every database and every line: only the account named is changed or made if and only if the line
is safe. -/
theorem onlyNamed_iff (db : Db) (p : CStr) :
    OnlyNamed (written p).1 (written p).2 db (loadOne db p) ↔
      ∀ l ∈ readLine p, l.Safe (written p).1 (written p).2 db := by
  generalize (written p).1 = name, (written p).2 = uid
  unfold loadOne
  cases readLine p with
  | none =>
    rw [Option.elim_none, onlyNamed_append (append_nil _).symm]
    simp
  | some l =>
    rw [Option.elim_some]
    have hforall : (∀ l' ∈ some l, l'.Safe name uid db) ↔ l.Safe name uid db := by simp
    rw [hforall, Line.Safe]
    rcases l.users_load db with ⟨huid, hname, hlen, v, hvname, hvuid, husers⟩ | ⟨hnot, husers⟩
    · rw [onlyNamed_append husers, huid, forall_mem_singleton, hvname, hvuid]
      exact ⟨fun h _ _ => h, fun h => h hname hlen⟩
    have hlen : (l.load db).users.length ≤ db.users.length := by rw [husers, length_modifyUid]
    have hiff : OnlyNamed name uid db (l.load db) ↔ ∀ u ∈ db.findUid l.uid, Kept name uid u (l.set u) := by
      rw [Db.findUid, ← forall₂_modifyUid (Kept.refl name uid), ← husers, ← take_of_length_le hlen]
      refine ⟨fun h => h.kept, fun h => ⟨h, ?_⟩⟩
      rw [drop_eq_nil_of_le hlen]
      exact fun _ hu => absurd hu not_mem_nil
    rw [hiff]
    cases hu : db.findUid l.uid with
    | none => exact iff_of_true (by simp) fun h1 h2 => absurd ⟨hu, h1, h2⟩ hnot
    | some u => simp

/-- The account of root alone. -/
def rootAlone : Db := ⟨[⟨⟨0, 0, 0, 0, 0, cstr "root"⟩, cstr "/root", cstr "/bin/asdsh", 0⟩], fun _ => 0⟩

/-- A line for another name with uid 65536 sets the hash of root. -/
theorem other_line_sets_root :
    let p := cstr "eve 65536 0 - / / 0000000000000001 0000000000000002"
    written p = (cstr "eve", 65536) ∧ (rootAlone.users.map (·.pw_hash)) = [0] ∧
      (loadOne rootAlone p).users.map (fun u => (u.name, u.pw_hash)) = [(cstr "root", 2)] := by
  decide +kernel

end FreeAsd.Usr
