import FreeAsd.Lib.Text
import FreeAsd.Usr.Accounts

/-!
# The user database on disk

The functions of `kernel/usr/usr.c` that change accounts, write and load them, and `apply_install_credentials`
of `init/installer.c`. The table of groups is left out: the accounts do not depend on it. The random numbers
of `entropy_get64` are part of the state.
-/

namespace FreeAsd.Usr

open Text

/-- `USR_MAX_USERS`. -/
def usrMaxUsers : ℕ := 64

/-- `USR_HOME_LEN`. -/
def usrHomeLen : ℕ := 64

/-- `USR_SHELL_LEN`. -/
def usrShellLen : ℕ := 64

/-- `asd_user_t`, with all its fields. -/
structure Account extends AsdUser where
  home : CStr
  shell : CStr
  groups : UInt32
deriving DecidableEq

/-- `g_users` up to `g_user_count`, and what `entropy_get64` will return. -/
structure Db where
  users : List Account
  entropy : ℕ → UInt64

namespace Db

/-- One random number has been drawn. -/
def draw (db : Db) : Db := { db with entropy := fun n => db.entropy (n + 1) }

/-- `usr_find_by_uid`. -/
def findUid (db : Db) (uid : UInt16) : Option Account := db.users.find? (·.uid = uid)

/-- `usr_find_by_name`. -/
def findName (db : Db) (name : CStr) : Option Account := db.users.find? (·.name = name)

end Db

/-- The first account with a uid is changed. -/
def modifyUid (uid : UInt16) (f : Account → Account) : List Account → List Account
  | [] => []
  | u :: us => if u.uid = uid then f u :: us else u :: modifyUid uid f us

/-- `u_strncpy`: what is in a buffer of `n` bytes afterwards. -/
def uStrncpy (n : ℕ) (s : CStr) : CStr := s.take (n - 1)

/-- The account that `usr_add` makes. -/
def newAccount (salt : UInt64) (uid gid : UInt16) (name password : CStr) (flags : UInt32)
    (home shell : Option CStr) : Account where
  uid := uid
  gid := gid
  flags := flags
  pw_hash := pwHashSalted password salt
  pw_salt := salt
  name := uStrncpy usrNameLen name
  home := uStrncpy usrHomeLen (home.getD (cstr "/"))
  shell := uStrncpy usrShellLen (shell.getD (cstr "/bin/asdsh"))
  groups := (if gid < 32 then 1 <<< gid.toUInt32 else 0) ||| (if flags &&& usrFlagWheel ≠ 0 then 2 else 0)

/-- `usr_add`. -/
def usrAdd (db : Db) (uid gid : UInt16) (name password : CStr) (flags : UInt32)
    (home shell : Option CStr) : Option Db :=
  if usrMaxUsers ≤ db.users.length then none
  else if db.findUid uid ≠ none ∨ db.findName name ≠ none then none
  else if name = [] then none
  else some { db.draw with
    users := db.users ++ [newAccount (db.entropy 0) uid gid name password flags home shell] }

/-- `usr_set_password`. -/
def usrSetPassword (db : Db) (uid : UInt16) (password : CStr) : Option Db :=
  if db.findUid uid = none then none
  else some { db.draw with
    users := modifyUid uid (fun u => { u with
      pw_salt := db.entropy 0, pw_hash := pwHashSalted password (db.entropy 0) }) db.users }

/-- `usr_add_to_group`, on the account. -/
def usrAddToGroup (db : Db) (uid gid : UInt16) : Option Db :=
  if db.findUid uid = none then none
  else some { db with
    users := modifyUid uid (fun u =>
      { u with groups := if gid < 32 then u.groups ||| 1 <<< gid.toUInt32 else u.groups }) db.users }

/-- `usr_init`. The password of root is taken away again. -/
def usrInit (entropy : ℕ → UInt64) : Db :=
  let db := (usrAdd ⟨[], entropy⟩ 0 0 (cstr "root") [] 0 (cstr "/root") (cstr "/bin/asdsh")).getD
    ⟨[], entropy⟩
  { db with users := modifyUid 0 (fun u => { u with pw_hash := 0, pw_salt := 0 }) db.users }

/-- `apply_install_credentials`: the password of root, and the account with uid 1000, which is made or
changed. -/
def applyInstallCredentials (db : Db) (has_user wheel : Bool) (root_pw user user_pw : CStr) : Db :=
  let db :=
    if root_pw ≠ [] then (usrSetPassword db 0 root_pw).getD db
    else { db with users := modifyUid 0 (fun u => { u with pw_hash := 0, pw_salt := 0 }) db.users }
  if !has_user ∨ user = [] then db
  else
    let home_path := cstr "/home/" ++ user.take 57
    let flags : UInt32 := if wheel then usrFlagWheel else 0
    if db.findUid 1000 = none then
      (usrAdd db 1000 100 user user_pw flags home_path (cstr "/bin/asdsh")).getD db
    else
      let db := { db with users := modifyUid 1000 (fun u => { u with
        name := user.take (usrNameLen - 1), gid := 100, flags := flags,
        home := home_path.take (usrHomeLen - 1), shell := cstr "/bin/asdsh" }) db.users }
      (usrSetPassword db 1000 user_pw).getD db

/-! ## Writing -/

/-- The word for the flags. -/
def flagWord (flags : UInt32) : CStr :=
  if flags &&& usrFlagWheel ≠ 0 then cstr "wheel"
  else if flags &&& usrFlagNologin ≠ 0 then cstr "nologin"
  else if flags &&& usrFlagLocked ≠ 0 then cstr "locked"
  else cstr "-"

/-- The fields of a line. -/
def Account.fields (u : Account) : List CStr :=
  [u.name, decimal u.uid.toNat, decimal u.gid.toNat, flagWord u.flags, u.home, u.shell,
    hex64 u.pw_salt.toNat, hex64 u.pw_hash.toNat]

/-- The loops that copy a field: up to position `cap`. -/
def putField (cap : ℕ) (s out : List UInt8) : List UInt8 := out ++ s.take (cap - out.length)

/-- Fields with a blank after each but the last. The blanks are written without looking at the size of
the buffer. -/
def writeFields (cap : ℕ) : List CStr → List UInt8 → List UInt8
  | [], out => out
  | [s], out => putField cap s out
  | s :: ss, out => writeFields cap ss (putField cap s out ++ [32])

/-- A line. -/
def writeAccount (buf_sz : ℕ) (out : List UInt8) (u : Account) : List UInt8 :=
  let out := writeFields (buf_sz - 2) u.fields out
  if out.length < buf_sz - 1 then out ++ [10] else out

/-- The first line. -/
def passwdHeader : CStr := cstr "#ASDPW1" ++ [10]

/-- `usr_write_passwd`: the bytes before the terminator. -/
def usrWritePasswd (buf_sz : ℕ) (users : List Account) : Option (List UInt8) :=
  if buf_sz < 8 then none
  else some (users.foldl (writeAccount buf_sz) (putField (buf_sz - 1) passwdHeader []))

/-! ## Loading -/

/-- `skip_ws`. -/
def skipWs (p : CStr) : CStr := p.dropWhile fun c => isSpace c ∧ c ≠ 10

/-- `read_tok`, into a buffer of `n` bytes. -/
def readTok (n : ℕ) (p : CStr) : CStr × CStr :=
  let p := skipWs p
  let tok := (p.takeWhile fun c => !isSpace c).take (n - 1)
  (tok, p.drop tok.length)

/-- `next_line`. -/
def nextLine (p : CStr) : CStr := (p.dropWhile (· ≠ 10)).tail

/-- The flags for a word. -/
def wordFlags (s : CStr) : UInt32 :=
  if s = cstr "wheel" then usrFlagWheel
  else if s = cstr "nologin" then usrFlagNologin
  else if s = cstr "locked" then usrFlagLocked
  else 0

/-- What a line does. An account with the uid or the name is not made again, but the account with the
uid gets the salt and the hash. -/
def loadAccount (db : Db) (name : CStr) (uid gid : UInt16) (flags_s home shell salt_s hash_s : CStr) : Db :=
  let db :=
    if db.findUid uid = none ∧ db.findName name = none then
      (usrAdd db uid gid name [] (wordFlags flags_s) (if home = [] then none else some home)
        (if shell = [] then none else some shell)).getD db
    else db
  { db with users := modifyUid uid (fun u => { u with
      pw_salt := if isHex64 salt_s then UInt64.ofNat (readHex64 salt_s) else u.pw_salt
      pw_hash := if isHex64 hash_s then UInt64.ofNat (readHex64 hash_s) else u.pw_hash }) db.users }

/-- The loop of `usr_load_passwd`: the accounts, and how many lines were loaded. The first argument
bounds the rounds; a round takes a line. -/
def loadLoop : ℕ → ℕ → Db → CStr → Db × ℕ
  | 0, loaded, db, _ => (db, loaded)
  | n + 1, loaded, db, p =>
    if p = [] ∨ usrMaxUsers ≤ loaded then (db, loaded)
    else
      let p := skipWs p
      if p = [] ∨ p.head? = some 35 ∨ p.head? = some 10 then loadLoop n loaded db (nextLine p)
      else
        let (name, p) := readTok usrNameLen p
        let (uid_s, p) := readTok 16 p
        let (gid_s, p) := readTok 16 p
        let (flags_s, p) := readTok 32 p
        let (home, p) := readTok usrHomeLen p
        let (shell, p) := readTok usrShellLen p
        let (salt_s, p) := readTok 20 p
        let (hash_s, p) := readTok 20 p
        if name = [] ∨ uid_s = [] ∨ gid_s = [] then loadLoop n loaded db (nextLine p)
        else
          loadLoop n (loaded + 1) (loadAccount db name (UInt16.ofNat (readDecimal uid_s))
            (UInt16.ofNat (readDecimal gid_s)) flags_s home shell salt_s hash_s) (nextLine p)

/-- `usr_load_passwd` of the text before the terminator: the accounts, and how many lines were loaded. -/
def usrLoadPasswd (text : CStr) (db : Db) : Db × ℕ := loadLoop (text.length + 1) 0 db text

/-! ## Histories -/

/-- A call that changes accounts. -/
inductive Call
  | add (uid gid : UInt16) (name password : CStr) (flags : UInt32) (home shell : Option CStr)
  | setPassword (uid : UInt16) (password : CStr)
  | addToGroup (uid gid : UInt16)
  | install (has_user wheel : Bool) (root_pw user user_pw : CStr)

/-- The effect of a call. One that fails changes nothing. -/
def perform (db : Db) : Call → Db
  | .add uid gid name password flags home shell =>
    (usrAdd db uid gid name password flags home shell).getD db
  | .setPassword uid password => (usrSetPassword db uid password).getD db
  | .addToGroup uid gid => (usrAddToGroup db uid gid).getD db
  | .install has_user wheel root_pw user user_pw =>
    applyInstallCredentials db has_user wheel root_pw user user_pw

/-- The strings that are stored are C strings: there is no terminator in them. -/
def Call.Terminated : Call → Prop
  | .add _ _ name _ _ home shell =>
    (0 : UInt8) ∉ name ∧ (∀ s ∈ home, (0 : UInt8) ∉ s) ∧ ∀ s ∈ shell, (0 : UInt8) ∉ s
  | .setPassword _ _ => True
  | .addToGroup _ _ => True
  | .install _ _ _ user _ => (0 : UInt8) ∉ user

/-- A step of a history. -/
def Step (db db' : Db) : Prop := ∃ c : Call, c.Terminated ∧ db' = perform db c

end FreeAsd.Usr
