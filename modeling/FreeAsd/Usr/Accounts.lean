import FreeAsd.Lib.Bytes
import Mathlib.Data.List.Basic

/-!
# User accounts

The account table of `kernel/usr/usr.c` and the functions that login and the identity system calls
use. The account's other fields, `home`, `shell` and `groups`, are not read by these functions and
are left out.
-/

namespace FreeAsd.Usr

/-- `USR_FLAG_WHEEL`. -/
def usrFlagWheel : UInt32 := 1

/-- `USR_FLAG_NOLOGIN`. -/
def usrFlagNologin : UInt32 := 2

/-- `USR_FLAG_LOCKED`. -/
def usrFlagLocked : UInt32 := 4

/-- `USR_NAME_LEN`. -/
def usrNameLen : ℕ := 32

/-- `asd_user_t`. -/
structure AsdUser where
  uid : UInt16
  gid : UInt16
  flags : UInt32
  pw_hash : UInt64
  pw_salt : UInt64
  name : CStr
deriving DecidableEq, Repr

/-- `g_users`, up to `g_user_count`. -/
abbrev UserTable := List AsdUser

/-- `asd_group_t`, less the members. -/
structure AsdGroup where
  gid : UInt16
  name : CStr
deriving DecidableEq, Repr

/-- `g_groups`, up to `g_group_count`. -/
abbrev GroupTable := List AsdGroup

/-! ## Password hashing -/

/-- `FNV_OFFSET`. -/
def fnvOffset : UInt64 := 14695981039346656037

/-- `FNV_PRIME`. -/
def fnvPrime : UInt64 := 1099511628211

/-- One Murmur-style finalisation round. -/
def pwRound (h : UInt64) : UInt64 :=
  let h := h ^^^ (h >>> 33)
  let h := h * 0xff51afd7ed558ccd
  let h := h ^^^ (h >>> 33)
  let h := h * 0xc4ceb9fe1a85ec53
  h ^^^ (h >>> 33)

/-- `pw_hash_salted`. -/
def pwHashSalted (pw : CStr) (salt : UInt64) : UInt64 :=
  let h := (fnvOffset ^^^ salt) * fnvPrime
  let h := pw.foldl (fun h c => (h ^^^ c.toUInt64) * fnvPrime) h
  Nat.repeat pwRound 1024 h

/-! ## Look-up -/

/-- `usr_find_by_uid`. -/
def usrFindByUid (users : UserTable) (uid : UInt16) : Option AsdUser :=
  users.find? (·.uid = uid)

/-- `usr_find_by_name`. -/
def usrFindByName (users : UserTable) (name : CStr) : Option AsdUser :=
  users.find? (·.name = name)

/-- `grp_find_by_name`. -/
def grpFindByName (groups : GroupTable) (name : CStr) : Option AsdGroup :=
  groups.find? (·.name = name)

/-- `usr_is_wheel`. -/
def usrIsWheel (users : UserTable) (uid : UInt16) : Bool :=
  if uid = 0 then true
  else
    match usrFindByUid users uid with
    | none => false
    | some u => u.flags &&& usrFlagWheel ≠ 0

/-- The account is neither locked nor a service account. -/
def AsdUser.MayLogin (u : AsdUser) : Prop :=
  u.flags &&& usrFlagLocked = 0 ∧ u.flags &&& usrFlagNologin = 0

/-- The stored hash accepts the password: no hash accepts the empty one, any other hash the passwords
that hash to it. -/
def AsdUser.Accepts (u : AsdUser) (pw : CStr) : Prop :=
  (u.pw_hash = 0 ∧ pw = []) ∨ pwHashSalted pw u.pw_salt = u.pw_hash

/-- `usr_check_password`. -/
def usrCheckPassword (users : UserTable) (uid : UInt16) (password : CStr) : Bool :=
  match usrFindByUid users uid with
  | none => false
  | some u =>
    if u.flags &&& usrFlagLocked ≠ 0 then false
    else if u.flags &&& usrFlagNologin ≠ 0 then false
    else if u.pw_hash = 0 then password = []
    else u.pw_hash = pwHashSalted password u.pw_salt

/-- A password passes only if an account with the uid may log in and accepts it. -/
theorem usrCheckPassword_spec {users : UserTable} {uid : UInt16} {password : CStr}
    (h : usrCheckPassword users uid password = true) :
    ∃ u ∈ users, u.uid = uid ∧ u.MayLogin ∧ u.Accepts password := by
  unfold usrCheckPassword at h
  split at h
  · exact absurd h Bool.false_ne_true
  rename_i u hu
  have huid : u.uid = uid := by simpa using List.find?_some hu
  have hmem : u ∈ users := List.mem_of_find?_eq_some hu
  split_ifs at h with h1 h2 h3
  · have hpw : password = [] := of_decide_eq_true h
    exact ⟨u, hmem, huid, ⟨not_not.mp h1, not_not.mp h2⟩, .inl ⟨h3, hpw⟩⟩
  · have hpw : u.pw_hash = pwHashSalted password u.pw_salt := of_decide_eq_true h
    exact ⟨u, hmem, huid, ⟨not_not.mp h1, not_not.mp h2⟩, .inr hpw.symm⟩

end FreeAsd.Usr
