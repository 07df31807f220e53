import FreeAsd.Lib.Runs
import FreeAsd.Usr.Passwd
import Mathlib.Data.List.Nodup

/-!
# The round trip of the user database

A database that is written and loaded again has the same accounts exactly if it is `Printable`
(`roundTrip_iff`): names, homes and shells are words, no name begins with `#`, at most one of three flags is
set and no other, and names are different. Nothing makes sure of this.
-/

namespace FreeAsd.Usr

open Text List Account

variable {db : Db} {u : Account} {users us : List Account} {f : Account → Account} {uid gid : UInt16}
  {p rest s name : CStr} {out : List UInt8} {n buf_sz loaded : ℕ}
  {entropy : ℕ → UInt64}

/-! ## What is restored -/

/-- Everything but the mask of groups. -/
def Account.record (u : Account) : AsdUser × CStr × CStr := (u.toAsdUser, u.home, u.shell)

/-- A word: not empty, and no blank in it. -/
def Word (s : CStr) : Prop := s ≠ [] ∧ ∀ c ∈ s, isSpace c = false

/-- A line can say all about the account. -/
structure Account.Plain (u : Account) : Prop where
  name : Word u.name ∧ u.name.head? ≠ some 35
  flags : u.flags = 0 ∨ u.flags = usrFlagWheel ∨ u.flags = usrFlagNologin ∨ u.flags = usrFlagLocked
  home : Word u.home
  shell : Word u.shell

instance (s : CStr) : Decidable (Word s) :=
  have := List.decidableBAll (isSpace · = false) s
  inferInstanceAs (Decidable (_ ∧ _))

/-- The fields of `Plain` as one condition, to decide it. -/
theorem Account.plain_iff : u.Plain ↔ (Word u.name ∧ u.name.head? ≠ some 35) ∧
    (u.flags = 0 ∨ u.flags = usrFlagWheel ∨ u.flags = usrFlagNologin ∨ u.flags = usrFlagLocked) ∧
    Word u.home ∧ Word u.shell :=
  ⟨fun h => ⟨h.name, h.flags, h.home, h.shell⟩, fun h => ⟨h.1, h.2.1, h.2.2.1, h.2.2.2⟩⟩

instance (u : Account) : Decidable u.Plain := decidable_of_iff _ Account.plain_iff.symm

/-- The text can say all about the accounts. -/
def Printable (users : List Account) : Prop :=
  (∀ u ∈ users, u.Plain) ∧ (users.map (·.name)).Nodup

instance (users : List Account) : Decidable (Printable users) := inferInstanceAs (Decidable (_ ∧ _))

/-- Every account comes back from a text that is loaded into a fresh database. -/
def RoundTrip (users : List Account) (text : CStr) (entropy : ℕ → UInt64) : Prop :=
  ∀ a ∈ users, ∃ b ∈ (usrLoadPasswd text (usrInit entropy)).1.users, b.record = a.record

instance (users : List Account) (text : CStr) (entropy : ℕ → UInt64) :
    Decidable (RoundTrip users text entropy) :=
  inferInstanceAs (Decidable (∀ a ∈ users, ∃ b ∈ _, _))

/-! ## Histories -/

/-- The account of root as `usr_init` makes it, with any password. -/
def IsRoot (u : Account) : Prop :=
  u.uid = 0 ∧ u.gid = 0 ∧ u.flags = 0 ∧ u.name = cstr "root" ∧ u.home = cstr "/root" ∧
    u.shell = cstr "/bin/asdsh"

/-- The strings of an account fit their buffers. -/
structure Account.Fits (u : Account) : Prop where
  name : u.name.length < usrNameLen ∧ (0 : UInt8) ∉ u.name
  home : u.home.length < usrHomeLen ∧ (0 : UInt8) ∉ u.home
  shell : u.shell.length < usrShellLen ∧ (0 : UInt8) ∉ u.shell

/-- What holds of every database: root is first, and uids are different. -/
structure Db.Wf (db : Db) : Prop where
  root : ∃ r rest, db.users = r :: rest ∧ IsRoot r
  nodup : (db.users.map (·.uid)).Nodup
  length : db.users.length ≤ usrMaxUsers
  fits : ∀ u ∈ db.users, u.Fits

/-- A field that the change keeps is kept. -/
theorem map_modifyUid {α : Type} {g : Account → α} (hf : ∀ u, g (f u) = g u) (us : List Account) :
    (modifyUid uid f us).map g = us.map g := by
  induction us with
  | nil => rfl
  | cons u us ih =>
    rw [modifyUid]
    split_ifs with hu
    · rw [map_cons, map_cons, hf]
    · rw [map_cons, map_cons, ih]

/-- An account is an old one or the changed one. -/
theorem mem_modifyUid (h : u ∈ modifyUid uid f us) : u ∈ us ∨ ∃ v ∈ us, v.uid = uid ∧ u = f v := by
  induction us with
  | nil => exact .inl h
  | cons v us ih =>
    rw [modifyUid] at h
    split_ifs at h with hv
    · rcases mem_cons.mp h with rfl | hu
      · exact .inr ⟨v, mem_cons_self, hv, rfl⟩
      · exact .inl (mem_cons_of_mem _ hu)
    · rcases mem_cons.mp h with rfl | hu
      · exact .inl mem_cons_self
      · rcases ih hu with hu | ⟨w, hw, hwuid, rfl⟩
        · exact .inl (mem_cons_of_mem _ hu)
        · exact .inr ⟨w, mem_cons_of_mem _ hw, hwuid, rfl⟩

/-- No account is lost. -/
theorem length_modifyUid (uid : UInt16) (f : Account → Account) (us : List Account) :
    (modifyUid uid f us).length = us.length := by
  have hmap : (modifyUid uid f us).map (fun _ => ()) = us.map fun _ => () :=
    map_modifyUid (g := fun _ => ()) (fun _ => rfl) us
  rw [← length_map fun _ => (), hmap, length_map]

/-- Changing an account keeps the invariant, if root stays root and the strings fit. -/
theorem Db.Wf.modify (h : db.Wf) (hf : ∀ u, (f u).uid = u.uid)
    (hroot : ∀ u, u.uid = uid → IsRoot u → IsRoot (f u)) (hfits : ∀ u, u.Fits → (f u).Fits) :
    ({ db with users := modifyUid uid f db.users } : Db).Wf := by
  constructor
  case root =>
    obtain ⟨r, rest, husers, hr⟩ := h.root
    rw [husers, modifyUid]
    split_ifs with hu
    · exact ⟨f r, rest, rfl, hroot r hu hr⟩
    · exact ⟨r, _, rfl, hr⟩
  case nodup =>
    rw [map_modifyUid hf]
    exact h.nodup
  case length =>
    rw [length_modifyUid]
    exact h.length
  case fits =>
    intro u hu
    rcases mem_modifyUid hu with hu | ⟨v, hv, -, rfl⟩
    · exact h.fits u hu
    · exact hfits v (h.fits v hv)

/-- A search by a field fails exactly if no account has the value. -/
theorem find?_eq_none_iff {α : Type} [DecidableEq α] {g : Account → α} {a : α} :
    us.find? (fun u => g u = a) = none ↔ a ∉ us.map g := by
  rw [find?_eq_none, mem_map]
  constructor
  · rintro h ⟨u, hu, rfl⟩
    exact h u hu (decide_eq_true rfl)
  · intro h u hu heq
    exact h ⟨u, hu, of_decide_eq_true heq⟩

/-- A uid is free. -/
theorem findUid_eq_none : db.findUid uid = none ↔ uid ∉ db.users.map (·.uid) := find?_eq_none_iff

/-- A name is free. -/
theorem findName_eq_none : db.findName name = none ↔ name ∉ db.users.map (·.name) := find?_eq_none_iff

/-- A copy fits its buffer. -/
theorem length_uStrncpy (hn : 0 < n) (h : (0 : UInt8) ∉ s) :
    (uStrncpy n s).length < n ∧ (0 : UInt8) ∉ uStrncpy n s := by
  refine ⟨?_, fun hmem => h (mem_of_mem_take hmem)⟩
  rw [uStrncpy, length_take]
  omega

/-- `usr_add` keeps the invariant. -/
theorem Db.Wf.usrAdd {password : CStr} {flags : UInt32} {home shell : Option CStr} (h : db.Wf)
    (hname : (0 : UInt8) ∉ name) (hhome : ∀ s ∈ home, (0 : UInt8) ∉ s)
    (hshell : ∀ s ∈ shell, (0 : UInt8) ∉ s) :
    ((Usr.usrAdd db uid gid name password flags home shell).getD db).Wf := by
  unfold Usr.usrAdd
  split_ifs with hfull htaken hempty
  · exact h
  · exact h
  · exact h
  rw [not_or, not_not, not_not] at htaken
  rw [Option.getD_some]
  constructor
  case root =>
    obtain ⟨r, rest, husers, hr⟩ := h.root
    rw [husers]
    exact ⟨r, _, rfl, hr⟩
  case nodup =>
    rw [map_append, map_singleton]
    apply List.Nodup.append h.nodup (nodup_singleton _)
    rw [disjoint_singleton]
    exact findUid_eq_none.mp htaken.1
  case length =>
    rw [length_append, length_singleton]
    omega
  case fits =>
    intro u hu
    rcases mem_append.mp hu with hu | hu
    · exact h.fits u hu
    obtain rfl := mem_singleton.mp hu
    have hhome' : (0 : UInt8) ∉ home.getD (cstr "/") := by
      cases home with
      | none => decide
      | some s => exact hhome s rfl
    have hshell' : (0 : UInt8) ∉ shell.getD (cstr "/bin/asdsh") := by
      cases shell with
      | none => decide
      | some s => exact hshell s rfl
    exact ⟨length_uStrncpy (by decide) hname, length_uStrncpy (by decide) hhome',
      length_uStrncpy (by decide) hshell'⟩

/-- A new hash keeps the invariant. -/
theorem Db.Wf.setHash (h : db.Wf) (uid : UInt16) (salt hash : UInt64) :
    ({ db with users := modifyUid uid (fun u => { u with pw_salt := salt, pw_hash := hash }) db.users } :
      Db).Wf :=
  h.modify (fun _ => rfl) (fun _ _ hr => hr) (fun _ hf => { hf with })

/-- `usr_set_password` keeps the invariant. -/
theorem Db.Wf.usrSetPassword (h : db.Wf) (uid : UInt16) (password : CStr) :
    ((Usr.usrSetPassword db uid password).getD db).Wf := by
  unfold Usr.usrSetPassword
  split_ifs
  · exact h
  · rw [Option.getD_some]
    have hdraw : db.draw.Wf := ⟨h.root, h.nodup, h.length, h.fits⟩
    exact hdraw.setHash uid _ _

/-- The strings of root fit. -/
theorem IsRoot.fits (h : IsRoot u) : u.Fits := by
  obtain ⟨-, -, -, hname, hhome, hshell⟩ := h
  constructor
  · rw [hname]
    decide
  · rw [hhome]
    decide
  · rw [hshell]
    decide

/-- The only account of a fresh database. -/
theorem usrInit_users (entropy : ℕ → UInt64) : ∃ r, (usrInit entropy).users = [r] ∧ IsRoot r := by
  have hadd : ∃ salt, (usrAdd ⟨[], entropy⟩ 0 0 (cstr "root") [] 0 (cstr "/root")
      (cstr "/bin/asdsh")).getD ⟨[], entropy⟩ = ⟨[newAccount salt 0 0 (cstr "root") [] 0 (cstr "/root")
        (cstr "/bin/asdsh")], fun n => entropy (n + 1)⟩ := by
    refine ⟨entropy 0, ?_⟩
    unfold usrAdd
    rw [if_neg (by rw [length_nil]; decide), if_neg (by simp [Db.findUid, Db.findName]), if_neg (by decide)]
    rfl
  obtain ⟨salt, hsalt⟩ := hadd
  unfold usrInit
  rw [hsalt]
  refine ⟨{ newAccount salt 0 0 (cstr "root") [] 0 (cstr "/root") (cstr "/bin/asdsh") with
    pw_hash := 0, pw_salt := 0 }, ?_, ?_⟩
  · rfl
  · exact ⟨rfl, rfl, rfl, rfl, rfl, rfl⟩

/-- The invariant holds at first. -/
theorem wf_usrInit (entropy : ℕ → UInt64) : (usrInit entropy).Wf := by
  obtain ⟨r, husers, hroot⟩ := usrInit_users entropy
  constructor
  case root => exact ⟨r, [], husers, hroot⟩
  case nodup =>
    rw [husers]
    exact nodup_singleton _
  case length =>
    rw [husers, length_singleton]
    decide
  case fits =>
    intro u hu
    rw [husers] at hu
    rw [mem_singleton.mp hu]
    exact hroot.fits

/-- The installer keeps the invariant. -/
theorem Db.Wf.applyInstallCredentials (h : db.Wf) {has_user wheel : Bool} {root_pw user user_pw : CStr}
    (huser : (0 : UInt8) ∉ user) :
    (Usr.applyInstallCredentials db has_user wheel root_pw user user_pw).Wf := by
  unfold Usr.applyInstallCredentials
  generalize hdb' : (if root_pw ≠ [] then (Usr.usrSetPassword db 0 root_pw).getD db
    else { db with users := modifyUid 0 (fun u => { u with pw_hash := 0, pw_salt := 0 }) db.users } : Db) = db'
  have hwf : db'.Wf := by
    rw [← hdb']
    split_ifs
    · exact h.usrSetPassword 0 root_pw
    · exact h.setHash 0 0 0
  have hhome : (0 : UInt8) ∉ cstr "/home/" ++ user.take 57 := by
    rw [mem_append]
    rintro (hmem | hmem)
    · exact absurd hmem (by decide)
    · exact huser (mem_of_mem_take hmem)
  have hshell : (cstr "/bin/asdsh").length < usrShellLen ∧ (0 : UInt8) ∉ cstr "/bin/asdsh" := by decide
  generalize hflags : (if wheel then usrFlagWheel else 0 : UInt32) = flags
  dsimp only
  split_ifs with hnone hfind
  · exact hwf
  · apply hwf.usrAdd huser
    · intro s hs
      rw [← Option.mem_some_iff.mp hs]
      exact hhome
    · intro s hs
      rw [← Option.mem_some_iff.mp hs]
      decide
  · apply Db.Wf.usrSetPassword
    apply hwf.modify
    · exact fun u => rfl
    · intro u hu hr
      exact absurd (hr.1.symm.trans hu) (by decide)
    · intro u hf
      exact ⟨length_uStrncpy (by decide) huser, length_uStrncpy (by decide) hhome, hshell⟩

/-- A step keeps the invariant. -/
theorem Db.Wf.step {db' : Db} (h : db.Wf) (hstep : Step db db') : db'.Wf := by
  obtain ⟨c, hc, rfl⟩ := hstep
  cases c with
  | add uid gid name password flags home shell => exact h.usrAdd hc.1 hc.2.1 hc.2.2
  | setPassword uid password => exact h.usrSetPassword uid password
  | addToGroup uid gid =>
    rw [perform, usrAddToGroup]
    by_cases hfind : db.findUid uid = none
    · rw [if_pos hfind]
      exact h
    · rw [if_neg hfind]
      exact h.modify (fun _ => rfl) (fun _ _ hr => hr) (fun _ hf => { hf with })
  | install has_user wheel root_pw user user_pw => exact h.applyInstallCredentials hc

/-- The invariant holds in every history. -/
theorem Db.Wf.run (hrun : Relation.ReflTransGen Step (usrInit entropy) db) : db.Wf :=
  Runs.invariant (P := Db.Wf) hrun (wf_usrInit entropy) fun _ _ h hstep => h.step hstep

/-! ## The text -/

/-- A line of the file. -/
def Account.line (u : Account) : CStr := joined u.fields ++ [10]

/-- The file. -/
def passwdText (users : List Account) : CStr := passwdHeader ++ users.flatMap Account.line

/-- A field that fits is written whole. -/
theorem putField_eq {cap : ℕ} {s : List UInt8} (h : out.length + s.length ≤ cap) :
    putField cap s out = out ++ s := by
  rw [putField, take_of_length_le (by omega)]

/-- Fields that fit are joined. -/
theorem writeFields_eq {cap : ℕ} {ss : List CStr} (h : out.length + (joined ss).length ≤ cap) :
    writeFields cap ss out = out ++ joined ss := by
  induction ss generalizing out with
  | nil => rw [writeFields, joined, append_nil]
  | cons s ss ih =>
    cases ss with
    | nil => exact putField_eq h
    | cons t ss =>
      rw [joined, length_append, length_cons] at h
      rw [writeFields, putField_eq (by omega), ih]
      · rw [joined, append_assoc, append_assoc, singleton_append]
      · rw [length_append, length_append, length_singleton]
        omega
      · exact cons_ne_nil _ _

/-- A line that fits is written whole. -/
theorem writeAccount_eq (h : out.length + u.line.length < buf_sz) :
    writeAccount buf_sz out u = out ++ u.line := by
  rw [line, length_append, length_singleton] at h
  unfold writeAccount
  rw [writeFields_eq (by omega), if_pos (by rw [length_append]; omega), line, append_assoc]

/-- Lines that fit are written whole. -/
theorem foldl_writeAccount (h : out.length + (users.flatMap line).length < buf_sz) :
    users.foldl (writeAccount buf_sz) out = out ++ users.flatMap line := by
  induction users generalizing out with
  | nil => rw [foldl_nil, flatMap_nil, append_nil]
  | cons u users ih =>
    rw [flatMap_cons, length_append] at h
    rw [foldl_cons, writeAccount_eq (by omega), ih, flatMap_cons, append_assoc]
    rw [length_append]
    omega

/-- A text that fits the buffer is written whole. -/
theorem usrWritePasswd_eq (h : (passwdText users).length < buf_sz) :
    usrWritePasswd buf_sz users = some (passwdText users) := by
  rw [passwdText, length_append] at h
  have hheader : passwdHeader.length = 8 := rfl
  unfold usrWritePasswd
  rw [if_neg (by omega), putField_eq (by rw [length_nil]; omega), nil_append, foldl_writeAccount (by omega)]
  rfl

/-! ## Loading the text -/

/-- A word does not begin with a blank. -/
theorem skipWs_word (hs : Word s) : skipWs (s ++ rest) = s ++ rest := by
  obtain ⟨hne, hspace⟩ := hs
  cases s with
  | nil => exact absurd rfl hne
  | cons c s =>
    have hc := hspace c mem_cons_self
    rw [skipWs, cons_append, dropWhile_cons_of_neg]
    simp [hc]

/-- A word is read up to the blank after it. -/
theorem readTok_word {c : UInt8} (hs : Word s) (hlen : s.length < n) (hc : isSpace c = true) :
    readTok n (s ++ c :: rest) = (s, c :: rest) := by
  have htake : (s ++ c :: rest).takeWhile (fun c => !isSpace c) = s := by
    rw [takeWhile_append_of_pos (fun a ha => by rw [hs.2 a ha]; rfl),
      takeWhile_cons_of_neg (by simp [hc]), append_nil]
  unfold readTok
  dsimp only
  rw [skipWs_word hs, htake, take_of_length_le (by omega), drop_left]

/-- A blank before a word is skipped. -/
theorem readTok_blank (n : ℕ) (p : CStr) : readTok n (32 :: p) = readTok n p := by
  have hskip : skipWs (32 :: p) = skipWs p := by
    rw [skipWs, dropWhile_cons_of_pos (by decide)]
    rfl
  unfold readTok
  rw [hskip]

/-- The next line begins after the newline. -/
theorem nextLine_newline (rest : CStr) : nextLine (10 :: rest) = rest := rfl

/-- A decimal is a word. -/
theorem word_decimal (v : ℕ) : Word (decimal v) :=
  ⟨ne_nil_of_length_pos (length_decimal v).1,
    fun _ hc => isSpace_of_isDigit (isDigit_of_mem_decimal hc)⟩

/-- A hexadecimal is a word. -/
theorem word_hex64 (v : ℕ) : Word (hex64 v) := by
  refine ⟨ne_nil_of_length_pos (by rw [length_hex64]; decide), fun c hc => ?_⟩
  obtain ⟨n, hn, rfl⟩ := mem_hex64 hc
  exact isSpace_hexDigit hn

/-- The words for flags. -/
theorem flagWord_cases (flags : UInt32) :
    flagWord flags ∈ [cstr "wheel", cstr "nologin", cstr "locked", cstr "-"] := by
  unfold flagWord
  split_ifs <;> decide

/-- Flags are a short word. -/
theorem word_flagWord (flags : UInt32) : Word (flagWord flags) ∧ (flagWord flags).length < 32 := by
  have hall : ∀ s ∈ [cstr "wheel", cstr "nologin", cstr "locked", cstr "-"],
      Word s ∧ s.length < 32 := by decide
  exact hall _ (flagWord_cases flags)

/-- What the line of an account does. -/
def loadLine (db : Db) (u : Account) : Db :=
  loadAccount db u.name u.uid u.gid (flagWord u.flags) u.home u.shell (hex64 u.pw_salt.toNat)
    (hex64 u.pw_hash.toNat)

/-- A decimal is read back. -/
theorem ofNat_readDecimal (v : UInt16) : UInt16.ofNat (readDecimal (decimal v.toNat)) = v := by
  have hlt := v.toNat_lt
  rw [readDecimal_decimal (by omega), UInt16.ofNat_toNat]

/-- A hexadecimal is read back. -/
theorem ofNat_readHex64 (v : UInt64) : UInt64.ofNat (readHex64 (hex64 v.toNat)) = v := by
  rw [readHex64_hex64 v.toNat_lt, UInt64.ofNat_toNat]

/-- The line of a plain account is read whole. -/
theorem loadLoop_line (hplain : u.Plain) (hfits : u.Fits) (hloaded : loaded < usrMaxUsers) :
    loadLoop (n + 1) loaded db (u.line ++ rest) = loadLoop n (loaded + 1) (loadLine db u) rest := by
  have hline : u.line ++ rest = u.name ++ 32 :: (decimal u.uid.toNat ++ 32 :: (decimal u.gid.toNat ++
      32 :: (flagWord u.flags ++ 32 :: (u.home ++ 32 :: (u.shell ++ 32 :: (hex64 u.pw_salt.toNat ++
      32 :: (hex64 u.pw_hash.toNat ++ 10 :: rest))))))) := by
    simp [line, fields, joined]
  obtain ⟨hname, hhash⟩ := hplain.name
  obtain ⟨c, name, hcons⟩ : ∃ c s, u.name = c :: s := exists_cons_of_ne_nil hname.1
  have hc35 : c ≠ 35 := by
    rintro rfl
    exact hhash (by rw [hcons]; rfl)
  have hc10 : c ≠ 10 := by
    rintro rfl
    exact absurd (hname.2 10 (hcons ▸ mem_cons_self)) (by decide)
  have huid := length_decimal u.uid.toNat
  have hgid := length_decimal u.gid.toNat
  rw [hline, loadLoop, if_neg]
  · rw [skipWs_word hname, if_neg, readTok_word hname hfits.name.1 rfl]
    · dsimp only
      rw [readTok_blank, readTok_word (word_decimal _) (by omega) rfl]
      rw [readTok_blank, readTok_word (word_decimal _) (by omega) rfl]
      rw [readTok_blank, readTok_word (word_flagWord _).1 (word_flagWord _).2 rfl]
      rw [readTok_blank, readTok_word hplain.home hfits.home.1 rfl]
      rw [readTok_blank, readTok_word hplain.shell hfits.shell.1 rfl]
      rw [readTok_blank, readTok_word (word_hex64 _) (by rw [length_hex64]; decide) rfl]
      rw [readTok_blank, readTok_word (word_hex64 _) (by rw [length_hex64]; decide) rfl]
      rw [if_neg, nextLine_newline, ofNat_readDecimal, ofNat_readDecimal]
      · rfl
      · rintro (h | h | h)
        · exact hname.1 h
        · exact (word_decimal _).1 h
        · exact (word_decimal _).1 h
    · rw [hcons]
      simp [hc35, hc10]
  · rw [hcons]
    simp [hloaded]

/-- So are the lines of several. -/
theorem loadLoop_lines (hplain : ∀ u ∈ users, u.Plain) (hfits : ∀ u ∈ users, u.Fits)
    (hloaded : loaded + users.length ≤ usrMaxUsers) (hn : users.length ≤ n) :
    (loadLoop n loaded db (users.flatMap line)).1 = users.foldl loadLine db := by
  induction users generalizing n loaded db with
  | nil =>
    rw [flatMap_nil, foldl_nil]
    cases n with
    | zero => rfl
    | succ n => rw [loadLoop, if_pos (.inl rfl)]
  | cons u users ih =>
    rw [length_cons] at hloaded hn
    obtain ⟨n, rfl⟩ : ∃ m, n = m + 1 := ⟨n - 1, by omega⟩
    rw [flatMap_cons, foldl_cons, loadLoop_line (hplain u mem_cons_self) (hfits u mem_cons_self) (by omega)]
    exact ih (forall_mem_cons.mp hplain).2 (forall_mem_cons.mp hfits).2 (by omega) (by omega)

/-! ## The accounts that are loaded -/

/-- Equal records have equal uids and names. -/
theorem record_map {vs : List Account} (h : us.map record = vs.map record) :
    us.map (·.uid) = vs.map (·.uid) ∧ us.map (·.name) = vs.map (·.name) ∧ us.length = vs.length := by
  refine ⟨?_, ?_, ?_⟩
  · have huid := congrArg (List.map fun r => r.1.uid) h
    rwa [map_map, map_map] at huid
  · have hname := congrArg (List.map fun r => r.1.name) h
    rwa [map_map, map_map] at hname
  · have hlen := congrArg List.length h
    rwa [length_map, length_map] at hlen

/-- The last account is changed, if it alone has the uid. -/
theorem modifyUid_append (h : uid ∉ us.map (·.uid)) (hu : u.uid = uid) :
    modifyUid uid f (us ++ [u]) = us ++ [f u] := by
  induction us with
  | nil => rw [nil_append, modifyUid, if_pos hu, nil_append]
  | cons v us ih =>
    rw [map_cons, mem_cons, not_or] at h
    rw [cons_append, modifyUid, if_neg (Ne.symm h.1), ih h.2, cons_append]

/-- A string that fits is copied whole. -/
theorem uStrncpy_of_lt (h : s.length < n) : uStrncpy n s = s := take_of_length_le (by omega)

/-- Records are equal field by field. -/
theorem record_eq {a b : Account} (huid : a.uid = b.uid) (hgid : a.gid = b.gid) (hflags : a.flags = b.flags)
    (hhash : a.pw_hash = b.pw_hash) (hsalt : a.pw_salt = b.pw_salt) (hname : a.name = b.name)
    (hhome : a.home = b.home) (hshell : a.shell = b.shell) : a.record = b.record := by
  simp only [record, Prod.mk.injEq]
  refine ⟨?_, hhome, hshell⟩
  cases ha : a.toAsdUser
  cases hb : b.toAsdUser
  simp_all

/-- `usr_add` of a free uid and name. -/
theorem usrAdd_eq {password : CStr} {flags : UInt32} {home shell : Option CStr}
    (hlen : db.users.length < usrMaxUsers) (huid : db.findUid uid = none)
    (hname : db.findName name = none) (hne : name ≠ []) :
    usrAdd db uid gid name password flags home shell = some { db.draw with
      users := db.users ++ [newAccount (db.entropy 0) uid gid name password flags home shell] } := by
  have hfree : ¬(db.findUid uid ≠ none ∨ db.findName name ≠ none) := by
    rintro (h | h)
    · exact h huid
    · exact h hname
  unfold usrAdd
  rw [if_neg (by omega), if_neg hfree, if_neg hne]

/-- The fields of a new account. Its hash and its groups stay closed, as unfolding them is costly. -/
theorem exists_newAccount (salt : UInt64) (uid gid : UInt16) (name password : CStr) (flags : UInt32)
    (home shell : CStr) :
    ∃ v, newAccount salt uid gid name password flags (some home) (some shell) = v ∧ v.uid = uid ∧
      v.gid = gid ∧ v.flags = flags ∧ v.name = uStrncpy usrNameLen name ∧
      v.home = uStrncpy usrHomeLen home ∧ v.shell = uStrncpy usrShellLen shell :=
  ⟨_, rfl, rfl, rfl, rfl, rfl, rfl, rfl⟩

/-- The line of an account that is not there yet makes it. -/
theorem record_loadLine (hplain : u.Plain) (hfits : u.Fits) (huid : u.uid ∉ db.users.map (·.uid))
    (hname : u.name ∉ db.users.map (·.name)) (hlen : db.users.length < usrMaxUsers) :
    (loadLine db u).users.map record = db.users.map record ++ [u.record] := by
  have hfree : db.findUid u.uid = none ∧ db.findName u.name = none :=
    ⟨findUid_eq_none.mpr huid, findName_eq_none.mpr hname⟩
  obtain ⟨v, hv, hvuid, hvgid, hvflags, hvname, hvhome, hvshell⟩ :=
    exists_newAccount (db.entropy 0) u.uid u.gid u.name [] u.flags u.home u.shell
  rw [uStrncpy_of_lt hfits.name.1] at hvname
  rw [uStrncpy_of_lt hfits.home.1] at hvhome
  rw [uStrncpy_of_lt hfits.shell.1] at hvshell
  have hflags : wordFlags (flagWord u.flags) = u.flags := by
    rcases hplain.flags with h | h | h | h <;> rw [h] <;> decide
  unfold loadLine loadAccount
  rw [if_pos hfree, if_neg hplain.home.1, if_neg hplain.shell.1, hflags,
    usrAdd_eq hlen hfree.1 hfree.2 hplain.name.1.1, Option.getD_some, hv]
  dsimp only
  rw [modifyUid_append huid hvuid, map_append, map_singleton, isHex64_hex64, isHex64_hex64,
    if_pos rfl, if_pos rfl, ofNat_readHex64, ofNat_readHex64]
  congr 2
  exact record_eq hvuid hvgid hvflags rfl rfl hvname hvhome hvshell

/-- The line of root gives the password to the root of the fresh database. -/
theorem record_loadRoot (entropy : ℕ → UInt64) (hroot : IsRoot u) :
    (loadLine (usrInit entropy) u).users.map record = [u.record] := by
  obtain ⟨r, husers, hr⟩ := usrInit_users entropy
  have hfound : ¬((usrInit entropy).findUid u.uid = none ∧ (usrInit entropy).findName u.name = none) := by
    intro h
    have hnone := findUid_eq_none.mp h.1
    rw [husers, hroot.1, map_singleton, hr.1] at hnone
    exact hnone mem_cons_self
  unfold loadLine loadAccount
  dsimp only
  rw [if_neg hfound, husers, modifyUid, if_pos (hr.1.trans hroot.1.symm), isHex64_hex64, isHex64_hex64,
    if_pos rfl, if_pos rfl, ofNat_readHex64, ofNat_readHex64]
  obtain ⟨hruid, hrgid, hrflags, hrname, hrhome, hrshell⟩ := hr
  obtain ⟨huid, hgid, hflags, hname, hhome, hshell⟩ := hroot
  rw [map_singleton]
  congr 1
  exact record_eq (hruid.trans huid.symm) (hrgid.trans hgid.symm) (hrflags.trans hflags.symm) rfl rfl
    (hrname.trans hname.symm) (hrhome.trans hhome.symm) (hrshell.trans hshell.symm)

/-- The lines of different accounts that are not there yet make them all. -/
theorem record_foldl_loadLine (hplain : ∀ u ∈ us, u.Plain) (hfits : ∀ u ∈ us, u.Fits)
    (huids : ((db.users ++ us).map (·.uid)).Nodup) (hnames : ((db.users ++ us).map (·.name)).Nodup)
    (hlen : (db.users ++ us).length ≤ usrMaxUsers) :
    (us.foldl loadLine db).users.map record = (db.users ++ us).map record := by
  induction us generalizing db with
  | nil => rw [foldl_nil, append_nil]
  | cons u us ih =>
    have hnew : ∀ {α : Type} {g : Account → α}, ((db.users ++ u :: us).map g).Nodup → g u ∉ db.users.map g := by
      intro α g hnodup hmem
      rw [map_append, nodup_append] at hnodup
      exact hnodup.2.2 _ hmem _ mem_cons_self rfl
    have hlt : db.users.length < usrMaxUsers := by
      rw [length_append, length_cons] at hlen
      omega
    have hline := record_loadLine (hplain u mem_cons_self) (hfits u mem_cons_self) (hnew huids) (hnew hnames) hlt
    have hall : ((loadLine db u).users ++ us).map record = (db.users ++ u :: us).map record := by
      rw [map_append, hline, map_append, map_cons, append_assoc, singleton_append]
    obtain ⟨huids', hnames', hlen'⟩ := record_map hall
    rw [foldl_cons, ih (forall_mem_cons.mp hplain).2
      (forall_mem_cons.mp hfits).2 (huids' ▸ huids) (hnames' ▸ hnames)
      (hlen' ▸ hlen), hall]

/-- A line is not empty. -/
theorem length_le_lines (users : List Account) : users.length ≤ (users.flatMap line).length := by
  induction users with
  | nil => exact Nat.zero_le _
  | cons u users ih =>
    rw [flatMap_cons, length_append, length_cons, line, length_append, length_singleton]
    omega

/-- The text of a printable database gives its accounts, in their order. -/
theorem record_usrLoadPasswd (hdb : db.Wf) (hprint : Printable db.users) (entropy : ℕ → UInt64) :
    (usrLoadPasswd (passwdText db.users) (usrInit entropy)).1.users.map record =
      db.users.map record := by
  obtain ⟨hplain, hnames⟩ := hprint
  have hlines : (usrLoadPasswd (passwdText db.users) (usrInit entropy)).1 =
      db.users.foldl loadLine (usrInit entropy) := by
    have hle := length_le_lines db.users
    have hlength : (passwdText db.users).length = 8 + (db.users.flatMap line).length := length_append
    rw [usrLoadPasswd, loadLoop]
    exact loadLoop_lines hplain hdb.fits (by rw [zero_add]; exact hdb.length) (by omega)
  obtain ⟨r, rest, husers, hroot⟩ := hdb.root
  have hfirst := record_loadRoot entropy hroot
  have hall : ((loadLine (usrInit entropy) r).users ++ rest).map record = db.users.map record := by
    rw [map_append, hfirst, husers, map_cons, singleton_append]
  obtain ⟨huids', hnames', hlen'⟩ := record_map hall
  rw [hlines, husers, foldl_cons, ← husers, ← hall]
  apply record_foldl_loadLine
  · exact fun u hu => hplain u (husers ▸ mem_cons_of_mem _ hu)
  · exact fun u hu => hdb.fits u (husers ▸ mem_cons_of_mem _ hu)
  · exact huids' ▸ hdb.nodup
  · exact hnames' ▸ hnames
  · exact hlen' ▸ hdb.length

/-- The count never falls. -/
theorem le_loadLoop (n loaded : ℕ) (db : Db) (p : CStr) : loaded ≤ (loadLoop n loaded db p).2 := by
  induction n generalizing loaded db p with
  | zero => exact le_rfl
  | succ n ih =>
    unfold loadLoop
    dsimp only
    split_ifs
    · exact le_rfl
    · exact ih ..
    · exact ih ..
    · exact (Nat.le_succ loaded).trans (ih ..)

/-- Root is plain. -/
theorem IsRoot.plain (h : IsRoot u) : u.Plain := by
  obtain ⟨-, -, hflags, hname, hhome, hshell⟩ := h
  refine ⟨?_, .inl hflags, ?_, ?_⟩
  · rw [hname]
    decide
  · rw [hhome]
    decide
  · rw [hshell]
    decide

/-- At least the line of root is loaded. -/
theorem usrLoadPasswd_pos (hdb : db.Wf) (db' : Db) : 0 < (usrLoadPasswd (passwdText db.users) db').2 := by
  obtain ⟨r, rest, husers, hroot⟩ := hdb.root
  obtain ⟨n, hn⟩ : ∃ n, (passwdText db.users).length = n + 1 := by
    refine ⟨7 + (db.users.flatMap line).length, ?_⟩
    have hlength : (passwdText db.users).length = 8 + (db.users.flatMap line).length := length_append
    omega
  have hheader : loadLoop (n + 1 + 1) 0 db' (passwdText db.users) =
      loadLoop (n + 1) 0 db' (db.users.flatMap line) := by
    rw [loadLoop]
    rfl
  rw [usrLoadPasswd, hn, hheader, husers, flatMap_cons, loadLoop_line hroot.plain hroot.fits (by decide)]
  exact le_loadLoop ..

/-- Joined strings have no terminator. -/
theorem zero_notMem_joined {ss : List CStr} (h : ∀ s ∈ ss, (0 : UInt8) ∉ s) : (0 : UInt8) ∉ joined ss := by
  induction ss with
  | nil => exact not_mem_nil
  | cons s ss ih =>
    have hs := h s mem_cons_self
    have hss := ih (forall_mem_cons.mp h).2
    cases ss with
    | nil => exact hs
    | cons t ss =>
      rw [joined, mem_append, mem_cons, not_or, not_or]
      exact ⟨hs, by decide, hss⟩

/-- A line has no terminator. -/
theorem zero_notMem_line (hfits : u.Fits) : (0 : UInt8) ∉ u.line := by
  have hdecimal : ∀ v, (0 : UInt8) ∉ decimal v :=
    fun v h => absurd (isDigit_of_mem_decimal h) (by decide)
  have hhex : ∀ v, (0 : UInt8) ∉ hex64 v := by
    intro v h
    obtain ⟨n, hn, hzero⟩ := mem_hex64 h
    have hall : ∀ n < 16, (0 : UInt8) ≠ hexDigit n := by decide
    exact hall n hn hzero
  have hflags : (0 : UInt8) ∉ flagWord u.flags := by
    have hall : ∀ s ∈ [cstr "wheel", cstr "nologin", cstr "locked", cstr "-"], (0 : UInt8) ∉ s := by decide
    exact hall _ (flagWord_cases u.flags)
  rw [line, mem_append, not_or]
  refine ⟨zero_notMem_joined ?_, by decide⟩
  simp only [fields, mem_cons, not_mem_nil, or_false, forall_eq_or_imp, forall_eq]
  exact ⟨hfits.name.2, hdecimal _, hdecimal _, hflags, hfits.home.2, hfits.shell.2, hhex _, hhex _⟩

/-- The file has no terminator. -/
theorem zero_notMem_passwdText (hfits : ∀ u ∈ users, u.Fits) : (0 : UInt8) ∉ passwdText users := by
  rw [passwdText, mem_append, mem_flatMap, not_or]
  refine ⟨by decide, ?_⟩
  rintro ⟨u, hu, hmem⟩
  exact zero_notMem_line (hfits u hu) hmem

/-! ## What is loaded is printable -/

/-- What is read: no blanks, not too long, and from the front. -/
theorem readTok_spec (n : ℕ) (p : CStr) : (∀ c ∈ (readTok n p).1, isSpace c = false) ∧
    (readTok n p).1.length ≤ n - 1 ∧ (readTok n p).1 <+: skipWs p := by
  refine ⟨fun c hc => ?_, length_take_le _ _, (List.take_prefix _ _).trans (List.takeWhile_prefix _)⟩
  have hnot := mem_takeWhile_imp (mem_of_mem_take hc)
  rwa [Bool.not_eq_true'] at hnot

/-- What is read is a word. -/
theorem word_readTok (h : (readTok n p).1 ≠ []) : Word (readTok n p).1 := ⟨h, (readTok_spec n p).1⟩

/-- At most one flag is read. -/
theorem wordFlags_cases (s : CStr) : wordFlags s = 0 ∨ wordFlags s = usrFlagWheel ∨
    wordFlags s = usrFlagNologin ∨ wordFlags s = usrFlagLocked := by
  unfold wordFlags
  split_ifs <;> simp

/-- The record tells if an account is plain. -/
theorem Account.Plain.congr {v : Account} (h : u.Plain) (hrecord : v.record = u.record) : v.Plain := by
  obtain ⟨huser, hhome, hshell⟩ : v.toAsdUser = u.toAsdUser ∧ v.home = u.home ∧ v.shell = u.shell := by
    simpa only [record, Prod.mk.injEq] using hrecord
  have hname : v.name = u.name := congrArg AsdUser.name huser
  have hflags : v.flags = u.flags := congrArg AsdUser.flags huser
  exact ⟨hname ▸ h.name, hflags ▸ h.flags, hhome ▸ h.home, hshell ▸ h.shell⟩

/-- New salts and hashes do not matter. -/
theorem Printable.modifyUid (h : Printable users) (uid : UInt16) (salt hash : Account → UInt64) :
    Printable (Usr.modifyUid uid (fun u => { u with pw_salt := salt u, pw_hash := hash u }) users) := by
  refine ⟨fun u hu => ?_, ?_⟩
  · rcases mem_modifyUid hu with hu | ⟨v, hv, -, rfl⟩
    · exact h.1 u hu
    · have hplain := h.1 v hv
      exact { hplain with }
  · rw [map_modifyUid]
    · exact h.2
    · exact fun _ => rfl

/-- A string of a line, or what stands for one that is missing. -/
theorem word_getD {d : CStr} (hs : ∀ c ∈ s, isSpace c = false) (hd : Word d) :
    Word ((if s = [] then none else some s).getD d) := by
  split_ifs with h
  · exact hd
  · exact ⟨h, hs⟩

/-- A copied word is a word. -/
theorem Word.uStrncpy (h : Word s) (hn : 1 < n) : Word (Usr.uStrncpy n s) := by
  refine ⟨?_, fun c hc => h.2 c (mem_of_mem_take hc)⟩
  rw [Usr.uStrncpy, Ne, take_eq_nil_iff]
  rintro (h0 | hnil)
  · omega
  · exact h.1 hnil

/-- A line keeps the database printable. -/
theorem Printable.loadAccount {flags_s home shell salt_s hash_s : CStr} (h : Printable db.users)
    (hname : Word name) (hhead : name.head? ≠ some 35) (hlen : name.length ≤ usrNameLen - 1)
    (hhome : ∀ c ∈ home, isSpace c = false) (hshell : ∀ c ∈ shell, isSpace c = false) :
    Printable (Usr.loadAccount db name uid gid flags_s home shell salt_s hash_s).users := by
  apply Printable.modifyUid
  by_cases hfree : db.findUid uid = none ∧ db.findName name = none
  swap
  · rw [if_neg hfree]
    exact h
  rw [if_pos hfree]
  by_cases hfull : usrMaxUsers ≤ db.users.length
  · unfold usrAdd
    rw [if_pos hfull]
    exact h
  have hcut : uStrncpy usrNameLen name = name := take_of_length_le hlen
  rw [usrAdd_eq (Nat.lt_of_not_le hfull) hfree.1 hfree.2 hname.1, Option.getD_some]
  refine ⟨fun u hu => ?_, ?_⟩
  · rcases mem_append.mp hu with hu | hu
    · exact h.1 u hu
    rw [mem_singleton.mp hu]
    refine ⟨?_, wordFlags_cases flags_s, ?_, ?_⟩
    · change Word (uStrncpy usrNameLen name) ∧ (uStrncpy usrNameLen name).head? ≠ some 35
      rw [hcut]
      exact ⟨hname, hhead⟩
    · exact (word_getD hhome (by decide)).uStrncpy (by decide)
    · exact (word_getD hshell (by decide)).uStrncpy (by decide)
  · rw [map_append, map_singleton]
    change (_ ++ [uStrncpy usrNameLen name]).Nodup
    rw [hcut]
    apply List.Nodup.append h.2 (nodup_singleton _)
    rw [disjoint_singleton]
    exact findName_eq_none.mp hfree.2

/-- The first word of a line begins as the line does. -/
theorem head_readTok (h : (readTok n p).1 ≠ []) : (readTok n p).1.head? = (skipWs p).head? := by
  obtain ⟨t, ht⟩ := (readTok_spec n p).2.2
  rw [← ht, head?_append_of_ne_nil _ h]

/-- Blanks are skipped once. -/
theorem skipWs_skipWs (p : CStr) : skipWs (skipWs p) = skipWs p := by
  unfold skipWs
  rw [dropWhile_eq_self_iff]
  exact fun hlen => dropWhile_get_zero_not _ _ hlen

/-- What is loaded is printable. -/
theorem printable_loadLoop (h : Printable db.users) : Printable (loadLoop n loaded db p).1.users := by
  induction n generalizing loaded db p with
  | zero => exact h
  | succ n ih =>
    unfold loadLoop
    dsimp only
    split_ifs with hend hskip hempty
    · exact h
    · exact ih h
    · exact ih h
    · rw [not_or, not_or] at hskip hempty
      have hhead := head_readTok hempty.1
      rw [skipWs_skipWs] at hhead
      apply ih
      apply Printable.loadAccount h (word_readTok hempty.1)
      · rw [hhead]
        exact hskip.2.1
      · exact (readTok_spec _ _).2.1
      · exact (readTok_spec _ _).1
      · exact (readTok_spec _ _).1

/-- A fresh database is printable. -/
theorem printable_usrInit (entropy : ℕ → UInt64) : Printable (usrInit entropy).users := by
  obtain ⟨r, husers, hroot⟩ := usrInit_users entropy
  rw [husers]
  refine ⟨fun u hu => ?_, nodup_singleton _⟩
  rw [mem_singleton.mp hu]
  exact hroot.plain

/-- Only a printable database comes back. -/
theorem Printable.of_roundTrip {text : CStr} (hdb : db.Wf)
    (h : RoundTrip db.users text entropy) : Printable db.users := by
  have hloaded : Printable (usrLoadPasswd text (usrInit entropy)).1.users :=
    printable_loadLoop (printable_usrInit entropy)
  refine ⟨fun a ha => ?_, ?_⟩
  · obtain ⟨b, hb, hrecord⟩ := h a ha
    exact (hloaded.1 b hb).congr hrecord.symm
  -- Two accounts of one name would be one account among those loaded, and have one uid.
  apply List.Nodup.map_on _ (List.Nodup.of_map _ hdb.nodup)
  intro a ha a' ha' hname
  obtain ⟨b, hb, hrecord⟩ := h a ha
  obtain ⟨b', hb', hrecord'⟩ := h a' ha'
  have hsame : b = b' := by
    apply inj_on_of_nodup_map hloaded.2 hb hb'
    calc b.name = a.name := congrArg (·.1.name) hrecord
      _ = a'.name := hname
      _ = b'.name := (congrArg (·.1.name) hrecord').symm
  apply inj_on_of_nodup_map hdb.nodup ha ha'
  calc a.uid = b.uid := (congrArg (·.1.uid) hrecord).symm
    _ = b'.uid := by rw [hsame]
    _ = a'.uid := congrArg (·.1.uid) hrecord'

/-- In every history, a database whose text fits the buffer is written, and every account comes back
exactly if the database is printable. -/
theorem roundTrip_iff {buf_sz : ℕ} {entropy : ℕ → UInt64}
    (hrun : Relation.ReflTransGen Step (usrInit entropy) db)
    (hfits : (passwdText db.users).length < buf_sz) (entropy' : ℕ → UInt64) :
    ∃ text, usrWritePasswd buf_sz db.users = some text ∧
      (RoundTrip db.users text entropy' ↔ Printable db.users) := by
  have hdb : db.Wf := Db.Wf.run hrun
  refine ⟨passwdText db.users, usrWritePasswd_eq hfits, Printable.of_roundTrip hdb, ?_⟩
  intro hprint a ha
  have hmem : a.record ∈ (usrLoadPasswd (passwdText db.users) (usrInit entropy')).1.users.map
      record := by
    rw [record_usrLoadPasswd hdb hprint]
    exact mem_map_of_mem ha
  obtain ⟨b, hb, hrecord⟩ := mem_map.mp hmem
  exact ⟨b, hb, hrecord⟩

/-- A database with one more account, of given flags. -/
def withAlice (flags : UInt32) : Db :=
  perform (usrInit fun _ => 7) (.add 1000 100 (cstr "alice") (cstr "secret") flags none none)

/-- Adding alice is a step. -/
theorem step_withAlice (flags : UInt32) : Step (usrInit fun _ => 7) (withAlice flags) := by
  refine ⟨.add 1000 100 (cstr "alice") (cstr "secret") flags none none, ⟨by decide, ?_, ?_⟩, rfl⟩
  · exact fun s hs => absurd hs (Option.not_mem_none s)
  · exact fun s hs => absurd hs (Option.not_mem_none s)

/-- An account that can use `do` is restored. -/
theorem roundTrip_wheel : ∃ text, usrWritePasswd 4096 (withAlice usrFlagWheel).users = some text ∧
    (RoundTrip (withAlice usrFlagWheel).users text (fun _ => 9) ↔
      Printable (withAlice usrFlagWheel).users) ∧ Printable (withAlice usrFlagWheel).users := by
  have hfits : (passwdText (withAlice usrFlagWheel).users).length < 4096 := by decide +kernel
  obtain ⟨text, htext, hiff⟩ := roundTrip_iff (.single (step_withAlice usrFlagWheel)) hfits (fun _ => 9)
  exact ⟨text, htext, hiff, by decide +kernel⟩

/-- An account that can use `do` and is locked comes back unlocked. -/
theorem lock_lost : ∃ db text, Relation.ReflTransGen Step (usrInit fun _ => 7) db ∧
    (passwdText db.users).length < 4096 ∧ usrWritePasswd 4096 db.users = some text ∧
    ¬RoundTrip db.users text (fun _ => 9) ∧
    db.users.map (·.flags) = [0, usrFlagWheel ||| usrFlagLocked] ∧
    (usrLoadPasswd text (usrInit fun _ => 9)).1.users.map (·.flags) = [0, usrFlagWheel] :=
  ⟨withAlice (usrFlagWheel ||| usrFlagLocked), passwdText (withAlice (usrFlagWheel ||| usrFlagLocked)).users,
    .single (step_withAlice _), by decide +kernel⟩

end FreeAsd.Usr
