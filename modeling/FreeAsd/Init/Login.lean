import FreeAsd.Usr.Accounts

/-!
# The login prompt

`login_prompt` of `init/asdinit.c`, on the sequence of typed lines; a prompt that still waits when they run
out has not returned. It lets nobody in without authentication (`loginPrompt_authenticates`).
-/

namespace FreeAsd.Init

open Usr

/-- The capacity of the password buffer. -/
def pwCap : ℕ := 128

/-- What `readline_serial` leaves in a buffer of a given capacity. -/
def readline (cap : ℕ) (line : CStr) : CStr := line.take (cap - 1)

/-- Remove the trailing bytes that satisfy a test. -/
def trimEnd (p : UInt8 → Bool) (s : CStr) : CStr := (s.reverse.dropWhile p).reverse

/-- The user name as `login_prompt` looks it up: without trailing CR and LF. -/
def typedName (line : CStr) : CStr :=
  trimEnd (fun c => c = 13 ∨ c = 10) (readline usrNameLen line)

/-- The password as `login_prompt` checks it: without trailing CR, LF and spaces. -/
def typedPassword (line : CStr) : CStr :=
  trimEnd (fun c => c = 13 ∨ c = 10 ∨ c = 32) (readline pwCap line)

/-- The decision about a password: `usr_check_password`, or the fallback for root and for accounts
without a hash. -/
def passwordAccepted (users : UserTable) (u : AsdUser) (pw : CStr) : Bool :=
  usrCheckPassword users u.uid pw || ((u.uid = 0 || u.pw_hash = 0) && pw = [])

/-- `login_prompt`: `g_shell_uid` and `g_shell_gid` when it returns, `none` when it still waits for
input after the given lines. -/
def loginPrompt (users : UserTable) : List CStr → Option (UInt16 × UInt16)
  | [] => none
  | line :: rest =>
    if typedName line = [] then loginPrompt users rest
    else
      match usrFindByName users (typedName line) with
      | none =>
        -- An unknown user is asked for a password as well.
        match rest with
        | [] => none
        | _ :: rest' => loginPrompt users rest'
      | some u =>
        if u.flags &&& usrFlagNologin ≠ 0 then loginPrompt users rest
        else if u.flags &&& usrFlagLocked ≠ 0 then loginPrompt users rest
        else
          match rest with
          | [] => none
          | pw :: rest' =>
            if passwordAccepted users u (typedPassword pw) then some (u.uid, u.gid)
            else loginPrompt users rest'

/-- Login as an account: it may log in, and its hash accepts the password, or it is root and the
password is empty. -/
def Authenticated (users : UserTable) (uid : UInt16) (pw : CStr) : Prop :=
  ∃ u ∈ users, u.uid = uid ∧ u.MayLogin ∧ (u.Accepts pw ∨ (u.uid = 0 ∧ pw = []))

/-- The decision about a password lets in only who is authenticated. -/
theorem authenticated_of_passwordAccepted {users : UserTable} {u : AsdUser} {pw : CStr}
    (hu : u ∈ users) (hlogin : u.MayLogin) (h : passwordAccepted users u pw = true) :
    Authenticated users u.uid pw := by
  rcases Bool.or_eq_true_iff.mp h with hcheck | hfall
  · obtain ⟨v, hv, huid, hmay, hacc⟩ := usrCheckPassword_spec hcheck
    exact ⟨v, hv, huid, hmay, .inl hacc⟩
  · simp only [Bool.and_eq_true, Bool.or_eq_true, decide_eq_true_eq] at hfall
    obtain ⟨hroot | hnone, hempty⟩ := hfall
    · exact ⟨u, hu, rfl, hlogin, .inr ⟨hroot, hempty⟩⟩
    · exact ⟨u, hu, rfl, hlogin, .inl (.inl ⟨hnone, hempty⟩)⟩

/-- Typed lines after which the prompt is where it was before them. -/
def Skipped (users : UserTable) (before : List CStr) : Prop :=
  ∀ tail, loginPrompt users (before ++ tail) = loginPrompt users tail

/-- Skipped lines in front of skipped lines are skipped. -/
theorem Skipped.append {users : UserTable} {a b : List CStr} (ha : Skipped users a)
    (hb : Skipped users b) : Skipped users (a ++ b) := by
  intro tail
  rw [List.append_assoc, ha, hb]

/-- The attempt that ends the prompt with `uid` and `gid`: its name line finds an account with these
ids that may log in, and its password line authenticates the uid. -/
structure Attempt (users : UserTable) (uid gid : UInt16) (name pw : CStr) : Prop where
  named : ∃ u, usrFindByName users (typedName name) = some u ∧ u.MayLogin ∧ u.uid = uid ∧
    u.gid = gid
  authenticated : Authenticated users uid (typedPassword pw)

/-- `login_prompt` returns with a uid and a gid only at an attempt that authenticates: its name line finds
an account with these ids, and some account with that uid may log in and has a stored hash that accepts
the password line, without trailing CR, LF and spaces, unless the uid is 0 and that is empty. The lines
before it left the prompt as it was. -/
theorem loginPrompt_authenticates {users : UserTable} {lines : List CStr} {uid gid : UInt16}
    (h : loginPrompt users lines = some (uid, gid)) :
    ∃ before name pw after, lines = before ++ name :: pw :: after ∧ Skipped users before ∧
      Attempt users uid gid name pw := by
  -- Lines that do not end the prompt go to the front of the list.
  have hskip : ∀ {skipped rest : List CStr}, Skipped users skipped →
      (∃ before name pw after, rest = before ++ name :: pw :: after ∧ Skipped users before ∧
        Attempt users uid gid name pw) →
      ∃ before name pw after, skipped ++ rest = before ++ name :: pw :: after ∧
        Skipped users before ∧ Attempt users uid gid name pw := by
    rintro skipped _ hs ⟨before, name, pw, after, rfl, hb, hat⟩
    exact ⟨skipped ++ before, name, pw, after, (List.append_assoc ..).symm, hs.append hb, hat⟩
  fun_induction loginPrompt users lines with
  | case1 | case3 | case7 => cases h
  | case2 line rest hname ih =>
    have hs : Skipped users [line] := fun tail => by
      simp [loginPrompt.eq_def users (line :: tail), hname]
    exact hskip hs (ih h)
  | case4 line hname hu pw rest ih =>
    have hs : Skipped users [line, pw] := fun tail => by simp [loginPrompt, hname, hu]
    exact hskip hs (ih h)
  | case5 line rest hname u hu hno ih =>
    have hs : Skipped users [line] := fun tail => by
      simp [loginPrompt.eq_def users (line :: tail), hname, hu, hno]
    exact hskip hs (ih h)
  | case6 line rest hname u hu hno hlock ih =>
    have hs : Skipped users [line] := fun tail => by
      simp [loginPrompt.eq_def users (line :: tail), hname, hu, hlock]
    exact hskip hs (ih h)
  | case8 line hname u hu hno hlock pw rest hacc =>
    cases h
    have hmay : u.MayLogin := ⟨not_not.mp hlock, not_not.mp hno⟩
    exact ⟨[], line, pw, rest, rfl, fun _ => rfl, ⟨u, hu, hmay, rfl, rfl⟩,
      authenticated_of_passwordAccepted (List.mem_of_find?_eq_some hu) hmay hacc⟩
  | case9 line hname u hu hno hlock pw rest hacc ih =>
    have hs : Skipped users [line, pw] := fun tail => by
      simp [loginPrompt, hname, hu, not_not.mp hno, not_not.mp hlock, hacc]
    exact hskip hs (ih h)

/-- A table with a root account whose password is `toor`. -/
def rootOnly : UserTable :=
  [⟨0, 0, usrFlagWheel, pwHashSalted (cstr "toor") 7, 7, cstr "root"⟩]

/-- Root logs in with its password, after an attempt of an unknown user. -/
theorem loginPrompt_authenticates_root :
    loginPrompt rootOnly [cstr "bob", cstr "toor", cstr "root", cstr "toor\r"] = some (0, 0) ∧
      ∃ before name pw after, [cstr "bob", cstr "toor", cstr "root", cstr "toor\r"] =
        before ++ name :: pw :: after ∧ Skipped rootOnly before ∧
          Attempt rootOnly 0 0 name pw :=
  have h : loginPrompt rootOnly [cstr "bob", cstr "toor", cstr "root", cstr "toor\r"] = some (0, 0) := by
    decide +kernel
  ⟨h, loginPrompt_authenticates h⟩

/-- Root, whose password is not empty, logs in with an empty one as well. -/
theorem loginPrompt_root_empty : loginPrompt rootOnly [cstr "root", []] = some (0, 0) ∧
    ∀ u ∈ rootOnly, u.uid = 0 → u.pw_hash ≠ 0 ∧ pwHashSalted [] u.pw_salt ≠ u.pw_hash := by
  decide +kernel

end FreeAsd.Init
