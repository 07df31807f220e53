import FreeAsd.Usr.PasswdRoundTrip

/-!
# Setting a password

Two passwords have the same hash if and only if they have the same FNV-1a value (`pwHashSalted_inj`). But a
hash of 0 stands for an account without password, so one password is not accepted afterwards, and the empty
one is (`usrSetPassword_effective_iff`).
-/

namespace FreeAsd.Usr

open Function

variable {db : Db} {uid : UInt16} {u : Account} {pw : CStr} {salt : UInt64}

/-- The FNV-1a value of a password with a salt: the state of `pw_hash_salted` before the rounds. -/
def fnvSalted (pw : CStr) (salt : UInt64) : UInt64 :=
  pw.foldl (fun h c => (h ^^^ c.toUInt64) * fnvPrime) ((fnvOffset ^^^ salt) * fnvPrime)

theorem pwHashSalted_eq (pw : CStr) (salt : UInt64) :
    pwHashSalted pw salt = Nat.repeat pwRound 1024 (fnvSalted pw salt) := rfl

/-! ## The rounds -/

/-- A shift by more than half of the word is taken back by doing it again. -/
theorem xorShift_xorShift (h : UInt64) : (h ^^^ h >>> 33) ^^^ (h ^^^ h >>> 33) >>> 33 = h := by
  have hshift : (h ^^^ h >>> 33) >>> 33 = h >>> 33 := by
    apply UInt64.toBitVec_inj.mp
    ext i hi
    have hhigh : h.toBitVec.getLsbD (33 + (33 + i)) = false := BitVec.getLsbD_of_ge _ _ (by omega)
    simp [hhigh]
  rw [hshift, UInt64.xor_assoc, UInt64.xor_self, UInt64.xor_zero]

theorem pwRound_injective : Injective pwRound := by
  have hshift : Injective fun h : UInt64 => h ^^^ h >>> 33 := by
    refine LeftInverse.injective (g := fun h : UInt64 => h ^^^ h >>> 33) fun h => ?_
    exact xorShift_xorShift h
  -- Odd factors have inverses.
  have hmul : ∀ a b : UInt64, a * b = 1 → Injective fun h : UInt64 => h * a := by
    intro a b hab
    refine LeftInverse.injective (g := fun h => h * b) fun h => ?_
    calc h * a * b = h * (a * b) := UInt64.mul_assoc h a b
      _ = h := by rw [hab, UInt64.mul_one]
  have h1 := hmul 0xff51afd7ed558ccd 0x4f74430c22a54005 (by decide)
  have h2 := hmul 0xc4ceb9fe1a85ec53 0x9cb4b2f8129337db (by decide)
  exact hshift.comp (h2.comp (hshift.comp (h1.comp hshift)))

theorem repeat_eq_iterate (f : UInt64 → UInt64) (n : ℕ) : Nat.repeat f n = f^[n] := by
  induction n with
  | zero => rfl
  | succ n ih =>
    rw [iterate_succ', ← ih]
    rfl

/-- The rounds keep different FNV-1a values apart. -/
theorem pwHashSalted_inj {h : UInt64} :
    pwHashSalted pw salt = Nat.repeat pwRound 1024 h ↔ fnvSalted pw salt = h := by
  rw [pwHashSalted_eq, repeat_eq_iterate]
  exact (pwRound_injective.iterate 1024).eq_iff

/-- The rounds keep 0, and no other value leads to it. -/
theorem pwHashSalted_eq_zero_iff : pwHashSalted pw salt = 0 ↔ fnvSalted pw salt = 0 := by
  have hzero : Nat.repeat pwRound 1024 0 = 0 := by
    rw [repeat_eq_iterate]
    exact iterate_fixed (by decide) 1024
  rw [← pwHashSalted_inj, hzero]

/-! ## Setting and checking -/

theorem find?_modifyUid {f : Account → Account} (hf : ∀ u, (f u).uid = u.uid) (us : List Account) :
    (modifyUid uid f us).find? (·.uid = uid) = (us.find? (·.uid = uid)).map f := by
  induction us with
  | nil => rfl
  | cons u us ih =>
    by_cases hu : u.uid = uid
    · simp [modifyUid, hu, hf]
    · simp [modifyUid, hu, ih]

/-- The accounts as `usr_check_password` sees them. -/
def Db.table (db : Db) : UserTable := db.users.map (·.toAsdUser)

theorem usrFindByUid_table (db : Db) (uid : UInt16) :
    usrFindByUid db.table uid = (db.findUid uid).map (·.toAsdUser) :=
  List.find?_map ..

/-- After `usr_set_password`, exactly the passwords with the FNV-1a value of the new one are accepted. -/
def Effective (db : Db) (uid : UInt16) (pw : CStr) : Prop :=
  ∃ db', usrSetPassword db uid pw = some db' ∧ ∀ q : CStr, (0 : UInt8) ∉ q →
    (usrCheckPassword db'.table uid q = true ↔
      fnvSalted q (db.entropy 0) = fnvSalted pw (db.entropy 0))

/-- What the hash of an account that may log in accepts. -/
theorem usrCheckPassword_iff {users : UserTable} {u : AsdUser}
    (hu : usrFindByUid users uid = some u) (hlogin : u.MayLogin) (q : CStr) :
    usrCheckPassword users uid q = true ↔
      if u.pw_hash = 0 then q = [] else u.pw_hash = pwHashSalted q u.pw_salt := by
  unfold usrCheckPassword
  rw [hu]
  dsimp only
  rw [if_neg (not_not.mpr hlogin.1), if_neg (not_not.mpr hlogin.2)]
  split_ifs
  · exact decide_eq_true_iff
  · exact decide_eq_true_iff

/-- What is accepted after `usr_set_password`. -/
theorem usrCheckPassword_usrSetPassword {u : Account} (pw : CStr) (hu : db.findUid uid = some u)
    (hlogin : u.MayLogin) :
    ∃ db', usrSetPassword db uid pw = some db' ∧ ∀ q, usrCheckPassword db'.table uid q = true ↔
      if fnvSalted pw (db.entropy 0) = 0 then q = []
      else fnvSalted q (db.entropy 0) = fnvSalted pw (db.entropy 0) := by
  -- The hash is kept as a variable: nothing may evaluate its 1024 rounds.
  obtain ⟨hash, hhash⟩ : ∃ hash, hash = pwHashSalted pw (db.entropy 0) := ⟨_, rfl⟩
  generalize hf : (fun u => { u with
    pw_salt := db.entropy 0, pw_hash := hash } : Account → Account) = f
  have hfind : (modifyUid uid f db.users).find? (·.uid = uid) = some (f u) := by
    rw [find?_modifyUid (fun _ => by rw [← hf])]
    exact congrArg (Option.map f) hu
  have hsalt : (f u).pw_salt = db.entropy 0 := by rw [← hf]
  have hnew : (f u).pw_hash = hash := by rw [← hf]
  have hmay : (f u).MayLogin := by
    rw [← hf]
    exact hlogin
  unfold usrSetPassword
  rw [if_neg (by rw [hu]; simp), ← hhash, hf]
  refine ⟨_, rfl, fun q => ?_⟩
  rw [usrCheckPassword_iff ((usrFindByUid_table _ uid).trans (congrArg _ hfind)) hmay, hsalt, hnew, hhash]
  by_cases hzero : fnvSalted pw (db.entropy 0) = 0
  · rw [if_pos hzero, if_pos (pwHashSalted_eq_zero_iff.mpr hzero)]
  · rw [if_neg hzero, if_neg (pwHashSalted_eq_zero_iff.not.mpr hzero), eq_comm,
      pwHashSalted_eq pw, pwHashSalted_inj]

/-- Nine characters that lead from the FNV-1a value 0 to 0 again. -/
def zeroLoop : CStr := cstr "jn!F0Qx-;"

/-- For every account that may log in, every salt and every password: setting the password takes effect
if and only if its FNV-1a value is not 0. -/
theorem usrSetPassword_effective_iff {db : Db} {uid : UInt16} {u : Account} {pw : CStr}
    (hu : db.findUid uid = some u) (hlogin : u.MayLogin) (hpw : (0 : UInt8) ∉ pw) :
    Effective db uid pw ↔ fnvSalted pw (db.entropy 0) ≠ 0 := by
  obtain ⟨db', hset, hcheck⟩ := usrCheckPassword_usrSetPassword pw hu hlogin
  constructor
  · rintro ⟨db'', hset', heff⟩ hzero
    obtain rfl : db' = db'' := Option.some.inj (hset.symm.trans hset')
    have hempty : ∀ q : CStr, (0 : UInt8) ∉ q → fnvSalted q (db.entropy 0) = 0 → q = [] := by
      intro q hq hqz
      have hacc := (hcheck q).mp ((heff q hq).mpr (hqz.trans hzero.symm))
      rwa [if_pos hzero] at hacc
    -- The password itself must be empty then, and so the salt is the offset.
    have hseed : (fnvOffset ^^^ db.entropy 0) * fnvPrime = 0 := by
      rw [hempty pw hpw hzero] at hzero
      exact hzero
    have hloop : fnvSalted zeroLoop (db.entropy 0) = 0 := by
      unfold fnvSalted
      rw [hseed]
      decide
    exact absurd (hempty zeroLoop (by decide) hloop) (by decide)
  · intro hne
    refine ⟨db', hset, fun q _ => ?_⟩
    rw [hcheck, if_neg hne]

/-- The account with uid 1000 alone, and the salt that comes next. -/
def aliceNext (salt : UInt64) : Db :=
  ⟨[newAccount 7 1000 100 (cstr "alice") [] 0 none none], fun _ => salt⟩

theorem usrSetPassword_effective_iff_alice : Effective (aliceNext 7) 1000 (cstr "secret") :=
  (usrSetPassword_effective_iff (u := newAccount 7 1000 100 (cstr "alice") [] 0 none none)
    (by decide +kernel) ⟨by decide +kernel, by decide +kernel⟩ (by decide)).mpr (by decide)

/-- With one salt the password `a` is rejected after it was set, and the empty one is accepted. -/
theorem password_lost : ∃ db', usrSetPassword (aliceNext 10162071143327760574) 1000 (cstr "a") = some db' ∧
    usrCheckPassword db'.table 1000 (cstr "a") = false ∧
    usrCheckPassword db'.table 1000 [] = true := by
  obtain ⟨db', hset, hcheck⟩ := @usrCheckPassword_usrSetPassword (aliceNext 10162071143327760574) 1000
    (newAccount 7 1000 100 (cstr "alice") [] 0 none none) (cstr "a") (by decide +kernel)
    ⟨by decide +kernel, by decide +kernel⟩
  have hzero : fnvSalted (cstr "a") ((aliceNext 10162071143327760574).entropy 0) = 0 := by decide
  refine ⟨db', hset, ?_, ?_⟩
  · rw [← Bool.not_eq_true, hcheck, if_pos hzero]
    decide
  · rw [hcheck, if_pos hzero]

end FreeAsd.Usr
