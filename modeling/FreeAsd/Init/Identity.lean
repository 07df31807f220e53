import FreeAsd.Init.Login
import FreeAsd.Lib.Lists
import FreeAsd.Lib.Runs

/-!
# The identity of processes

`macho_spawn` gives a process the identity of the shell, so it has its creator's, and a service its account's,
exactly when these agree (`sysSpawn_inherits_iff`, `svcLaunch_account_iff`). Along the runs where they do, a
process without privileges never gets a descendant with uid 0 (`identity_of_run`).
-/

namespace FreeAsd.Init

open Usr Relation List Option

/-- The identity fields of `pcb_t`. Processes are numbered in the order of their creation, because
`sched_spawn` gives a pid out again once its owner is dead. -/
structure Pcb where
  /-- The process that was running when this one was created. -/
  ppid : Option ℕ
  uid : UInt16
  gid : UInt16
deriving DecidableEq, Repr

/-- The processes and the identity of the shell. -/
structure IdState where
  g_shell_uid : UInt16
  g_shell_gid : UInt16
  procs : List Pcb
deriving DecidableEq, Repr

/-- `asdinit` runs as root, and so does the shell before anybody logs in. -/
def IdState.start : IdState := ⟨0, 0, [⟨none, 0, 0⟩]⟩

/-- What a system call fails with. -/
inductive Esys
  | perm
  | fault
deriving DecidableEq, Repr

/-! ## The operations -/

/-- The test of `sys_setuid`: root may take any uid, everybody their own, and an account with the
wheel flag uid 0. -/
def setuidAllowed (users : UserTable) (uid : UInt16) (new_uid : UInt64) : Bool :=
  if uid ≠ 0 ∧ new_uid.toUInt32 ≠ uid.toUInt32 then
    if new_uid.toUInt32 = 0 then
      match usrFindByUid users uid with
      | none => false
      | some u => u.flags &&& usrFlagWheel ≠ 0
    else false
  else true

/-- `sys_setuid`, called by process `cur`. -/
def sysSetuid (users : UserTable) (cur : ℕ) (new_uid : UInt64) (s : IdState) :
    Except Esys Unit × IdState :=
  match s.procs[cur]? with
  | none => (.error .fault, s)
  | some p =>
    if setuidAllowed users p.uid new_uid then
      (.ok (), { s with procs := s.procs.set cur { p with uid := new_uid.toUInt32.toUInt16 } })
    else (.error .perm, s)

/-- `sys_setgid`, called by process `cur`. -/
def sysSetgid (cur : ℕ) (new_gid : UInt64) (s : IdState) : Except Esys Unit × IdState :=
  match s.procs[cur]? with
  | none => (.error .fault, s)
  | some p =>
    if p.uid ≠ 0 ∧ new_gid.toUInt32 ≠ p.gid.toUInt32 then (.error .perm, s)
    else (.ok (), { s with procs := s.procs.set cur { p with gid := new_gid.toUInt32.toUInt16 } })

/-- `macho_spawn`, run by process `cur`: the new process, if the image loads and there is room for
it. -/
def machoSpawn (cur : ℕ) (loads : Bool) (s : IdState) : Option ℕ × IdState :=
  if loads then
    (some s.procs.length,
      { s with procs := s.procs ++ [⟨some cur, s.g_shell_uid, s.g_shell_gid⟩] })
  else (none, s)

/-- `sys_spawn`, called by process `cur`: its arguments may be unreadable, and the result -1 of a
failed `macho_spawn` is `ESYS_PERM`. -/
def sysSpawn (cur : ℕ) (readable loads : Bool) (s : IdState) : Except Esys ℕ × IdState :=
  if readable then
    match machoSpawn cur loads s with
    | (some pid, s) => (.ok pid, s)
    | (none, s) => (.error .perm, s)
  else (.error .fault, s)

/-- The states of a service. -/
inductive SvcState
  | new
  | starting
  | running
  | exited
  | restarting
  | failed
deriving DecidableEq, Repr

/-- What `svc_launch` uses of `service_t`. -/
structure Service where
  svc_user : CStr
  svc_group : CStr
  state : SvcState
  pid : ℕ
deriving DecidableEq, Repr

/-- `run_uid` and `run_gid` of `svc_launch`. -/
def runIdentity (users : UserTable) (groups : GroupTable) (svc : Service) : UInt16 × UInt16 :=
  if svc.svc_user = [] then (0, 0)
  else
    match usrFindByName users svc.svc_user with
    | none => (0, 0)
    | some u =>
      if svc.svc_group = [] then (u.uid, u.gid)
      else
        match grpFindByName groups svc.svc_group with
        | none => (u.uid, u.gid)
        | some g => (u.uid, g.gid)

/-- `svc_launch`, run by `asdinit`, for a binary that may be missing or not load. -/
def svcLaunch (users : UserTable) (groups : GroupTable) (found loads : Bool) (svc : Service)
    (s : IdState) : Service × IdState :=
  -- The source casts the identity of the service to void and passes it to nobody.
  let _run := runIdentity users groups svc
  if found then
    match machoSpawn 0 loads s with
    | (some pid, s) => ({ svc with pid := pid, state := .running }, s)
    | (none, s) => ({ svc with state := .failed }, s)
  else ({ svc with state := .failed }, s)

/-- `login_prompt` on the lines typed. -/
def login (users : UserTable) (lines : List CStr) (s : IdState) : IdState :=
  match loginPrompt users lines with
  | none => s
  | some (uid, gid) => { s with g_shell_uid := uid, g_shell_gid := gid }

/-! ## Runs -/

/-- The steps of a run. -/
inductive IdOp
  | login (lines : List CStr)
  | setuid (cur : ℕ) (new_uid : UInt64)
  | setgid (cur : ℕ) (new_gid : UInt64)
  | spawn (cur : ℕ) (readable loads : Bool)
  | launch (svc : Service) (found loads : Bool)

/-- The state after a step. -/
def IdOp.run (users : UserTable) (groups : GroupTable) (s : IdState) : IdOp → IdState
  | .login lines => Init.login users lines s
  | .setuid cur new_uid => (sysSetuid users cur new_uid s).2
  | .setgid cur new_gid => (sysSetgid cur new_gid s).2
  | .spawn cur readable loads => (sysSpawn cur readable loads s).2
  | .launch svc found loads => (svcLaunch users groups found loads svc s).2

/-- A step is made by an existing process. `asdinit` runs in the kernel and makes no system call; its
shell creates processes. -/
def IdOp.Enabled (s : IdState) : IdOp → Prop
  | .login _ | .launch .. => True
  | .setuid cur _ | .setgid cur _ => cur ≠ 0 ∧ cur < s.procs.length
  | .spawn cur .. => cur < s.procs.length

/-- Process `q` was created by process `p`. -/
def IdState.Child (s : IdState) (p q : ℕ) : Prop := ∃ c, s.procs[q]? = some c ∧ c.ppid = some p

/-- The condition on a step: a process is spawned by somebody with the identity of the shell, a service
whose account exists is launched while the shell has its uid, and nobody gives up root for a uid without
privileges while a child of theirs has privileges. -/
def IdOp.Safe (users : UserTable) (s : IdState) : IdOp → Prop
  | .login _ | .setgid .. => True
  | .setuid cur new_uid => ∀ p q c, s.procs[cur]? = some p → p.uid = 0 →
      usrIsWheel users new_uid.toUInt32.toUInt16 = false → s.Child cur q → s.procs[q]? = some c →
      usrIsWheel users c.uid = false
  | .spawn cur .. => ∀ p, s.procs[cur]? = some p →
      p.uid = s.g_shell_uid ∧ p.gid = s.g_shell_gid
  | .launch svc .. => ∀ u, svc.svc_user ≠ [] → usrFindByName users svc.svc_user = some u →
      u.uid = s.g_shell_uid

/-- A step that meets the condition. -/
def IdStep (users : UserTable) (groups : GroupTable) (s t : IdState) : Prop :=
  ∃ op : IdOp, op.Enabled s ∧ op.Safe users s ∧ t = op.run users groups s

/-! ## What a step does -/

section

variable {users : UserTable} {groups : GroupTable} {s t : IdState} {cur : ℕ}

/-- Root has all privileges. -/
@[simp]
theorem usrIsWheel_zero : usrIsWheel users 0 = true := rfl

/-- Who may take a uid: root, its owner, and for uid 0 an account with the wheel flag. -/
theorem setuidAllowed_cases {uid : UInt16} {new_uid : UInt64} (h : setuidAllowed users uid new_uid = true) :
    uid = 0 ∨ new_uid.toUInt32.toUInt16 = uid ∨
      (new_uid.toUInt32.toUInt16 = 0 ∧ usrIsWheel users uid = true) := by
  unfold setuidAllowed at h
  by_cases hroot : uid = 0
  · exact .inl hroot
  by_cases hown : new_uid.toUInt32 = uid.toUInt32
  · exact .inr (.inl (by rw [hown]; simp))
  rw [if_pos ⟨hroot, hown⟩] at h
  split_ifs at h with hzero
  refine .inr (.inr ⟨by rw [hzero]; rfl, ?_⟩)
  rw [usrIsWheel, if_neg hroot]
  exact h

section

variable (users groups s cur)

/-- A successful `sys_setuid` changes the uid of its caller, any other leaves all as it was. -/
theorem sysSetuid_cases (new_uid : UInt64) :
    (sysSetuid users cur new_uid s).2 = s ∨
      ∃ p, s.procs[cur]? = some p ∧ setuidAllowed users p.uid new_uid = true ∧
        (sysSetuid users cur new_uid s).2 =
          { s with procs := s.procs.set cur { p with uid := new_uid.toUInt32.toUInt16 } } := by
  unfold sysSetuid
  split
  · exact .inl rfl
  · rename_i p hp
    split_ifs with hall
    · exact .inr ⟨p, hp, hall, rfl⟩
    · exact .inl rfl

/-- `sys_setgid` changes at most the gid of its caller. -/
theorem sysSetgid_cases (new_gid : UInt64) :
    (sysSetgid cur new_gid s).2 = s ∨
      ∃ p, s.procs[cur]? = some p ∧ (sysSetgid cur new_gid s).2 =
        { s with procs := s.procs.set cur { p with gid := new_gid.toUInt32.toUInt16 } } := by
  unfold sysSetgid
  split
  · exact .inl rfl
  · rename_i p hp
    split_ifs
    · exact .inl rfl
    · exact .inr ⟨p, hp, rfl⟩

/-- The state with one more process, which has the identity of the shell. -/
def IdState.grow (s : IdState) (cur : ℕ) : IdState :=
  { s with procs := s.procs ++ [⟨some cur, s.g_shell_uid, s.g_shell_gid⟩] }

/-- `sys_spawn` creates one process or none. -/
theorem sysSpawn_cases (readable loads : Bool) :
    (sysSpawn cur readable loads s).2 = s ∨ (sysSpawn cur readable loads s).2 = s.grow cur := by
  cases readable <;> cases loads <;> simp [sysSpawn, machoSpawn, IdState.grow]

/-- `svc_launch` creates one child of `asdinit` or none. -/
theorem svcLaunch_cases (svc : Service) (found loads : Bool) :
    (svcLaunch users groups found loads svc s).2 = s ∨
      (svcLaunch users groups found loads svc s).2 = s.grow 0 := by
  cases found <;> cases loads <;> simp [svcLaunch, machoSpawn, IdState.grow]

end

/-- A login changes no process. -/
@[simp]
theorem login_procs (lines : List CStr) : (login users lines s).procs = s.procs := by
  unfold login
  split <;> rfl

/-- The new process is the last one. -/
theorem getElem?_grow {i : ℕ} {c : Pcb} : (s.grow cur).procs[i]? = some c ↔
    s.procs[i]? = some c ∨ i = s.procs.length ∧ c = ⟨some cur, s.g_shell_uid, s.g_shell_gid⟩ :=
  getElem?_concat_eq_some

/-- After a change of one process every other one is as it was. -/
theorem getElem?_set_cases {l : List Pcb} {i : ℕ} {p c : Pcb} (h : (l.set cur p)[i]? = some c) :
    (i = cur ∧ c = p) ∨ (i ≠ cur ∧ l[i]? = some c) := by
  rw [List.getElem?_set] at h
  split_ifs at h with hi
  · exact .inl ⟨hi.symm, (some.inj h).symm⟩
  · exact .inr ⟨Ne.symm hi, h⟩

/-- What a step does to the processes: nothing; or it changes the uid or gid of one, other than
`asdinit`, who was root, or keeps the uid, or becomes root by the wheel flag; or it adds one with the
identity of the shell. -/
theorem IdStep.cases (hst : IdStep users groups s t) :
    t.procs = s.procs ∨
    (∃ cur p p', cur ≠ 0 ∧ s.procs[cur]? = some p ∧ p'.ppid = p.ppid ∧
      (p.uid = 0 ∨ p'.uid = p.uid ∨ (p'.uid = 0 ∧ usrIsWheel users p.uid = true)) ∧
      (p.uid = 0 → usrIsWheel users p'.uid = false → ∀ q c, s.Child cur q →
        s.procs[q]? = some c → usrIsWheel users c.uid = false) ∧
      t = { s with procs := s.procs.set cur p' }) ∨
    (∃ cur, (cur = 0 ∨ cur < s.procs.length ∧
      ∀ a, s.procs[cur]? = some a → a.uid = s.g_shell_uid) ∧ t = s.grow cur) := by
  obtain ⟨op, hen, hsafe, rfl⟩ := hst
  match op with
  | .login lines => exact .inl (login_procs lines)
  | .setuid cur new_uid =>
    rcases sysSetuid_cases users s cur new_uid with heq | ⟨p, hp, hall, heq⟩
    · exact .inl (congrArg IdState.procs heq)
    · exact .inr (.inl ⟨cur, p, { p with uid := new_uid.toUInt32.toUInt16 }, hen.1, hp, rfl,
        setuidAllowed_cases hall, fun hroot hnew q c => hsafe p q c hp hroot hnew, heq⟩)
  | .setgid cur new_gid =>
    rcases sysSetgid_cases s cur new_gid with heq | ⟨p, hp, heq⟩
    · exact .inl (congrArg IdState.procs heq)
    · refine .inr (.inl ⟨cur, p, { p with gid := new_gid.toUInt32.toUInt16 }, hen.1, hp, rfl,
        .inr (.inl rfl), ?_, heq⟩)
      intro hroot hnew
      simp [hroot] at hnew
  | .spawn cur readable loads =>
    rcases sysSpawn_cases s cur readable loads with heq | heq
    · exact .inl (congrArg IdState.procs heq)
    · exact .inr (.inr ⟨cur, .inr ⟨hen, fun a ha => (hsafe a ha).1⟩, heq⟩)
  | .launch svc found loads =>
    rcases svcLaunch_cases users groups s svc found loads with heq | heq
    · exact .inl (congrArg IdState.procs heq)
    · exact .inr (.inr ⟨0, .inl rfl, heq⟩)

/-! ## The invariant -/

/-- What holds in every state of a run: `asdinit` is root, creators come before the processes they
created, and the children of a process without privileges have none. -/
structure IdInv (users : UserTable) (s : IdState) : Prop where
  init : ∃ c, s.procs[0]? = some c ∧ c.uid = 0
  creator : ∀ {p q}, s.Child p q → p < s.procs.length
  dropped : ∀ {p q a c}, s.Child p q → s.procs[p]? = some a → s.procs[q]? = some c →
    usrIsWheel users a.uid = false → usrIsWheel users c.uid = false

/-- The invariant holds at the start. -/
theorem IdInv.start : IdInv users .start := by
  have hnone : ∀ p q, ¬IdState.start.Child p q := by
    rintro p q ⟨c, hq, hc⟩
    obtain ⟨hlt, rfl⟩ := List.getElem?_eq_some_iff.mp hq
    obtain rfl : q = 0 := Nat.lt_one_iff.mp hlt
    exact absurd hc (by simp [IdState.start])
  exact ⟨⟨_, rfl, rfl⟩, fun h => absurd h (hnone _ _), fun h => absurd h (hnone _ _)⟩

section

variable (h : IdInv users s)

include h

/-- The invariant depends on the processes only. -/
theorem IdInv.congr (hp : t.procs = s.procs) : IdInv users t := by
  have hchild : ∀ {p q}, t.Child p q → s.Child p q := by
    rintro p q ⟨c, hq, hc⟩
    exact ⟨c, hp ▸ hq, hc⟩
  refine ⟨hp ▸ h.init, fun hc => hp ▸ h.creator (hchild hc), fun hc ha hb => ?_⟩
  exact h.dropped (hchild hc) (hp ▸ ha) (hp ▸ hb)

/-- A new process keeps the invariant if it has no privileges that its creator lacks. -/
theorem IdInv.grow (hcur : cur < s.procs.length)
    (hdrop : ∀ a, s.procs[cur]? = some a → usrIsWheel users a.uid = false →
      usrIsWheel users s.g_shell_uid = false) : IdInv users (s.grow cur) := by
  have hlen : (s.grow cur).procs.length = s.procs.length + 1 := by simp [IdState.grow]
  constructor
  · obtain ⟨c, hc, h0⟩ := h.init
    exact ⟨c, getElem?_grow.mpr (.inl hc), h0⟩
  · rintro p q ⟨c, hq, hc⟩
    rw [hlen]
    rcases getElem?_grow.mp hq with hold | ⟨-, rfl⟩
    · exact Nat.lt_succ_of_lt (h.creator ⟨c, hold, hc⟩)
    · cases hc
      exact Nat.lt_succ_of_lt hcur
  · rintro p q a c ⟨c', hq', hc⟩ ha hq hwheel
    obtain rfl : c' = c := some.inj (hq'.symm.trans hq)
    -- Nobody was created by a process that was not there, so the creator is an old process.
    rcases getElem?_grow.mp hq with hold | ⟨-, rfl⟩
    · have hp := h.creator ⟨c', hold, hc⟩
      rcases getElem?_grow.mp ha with haold | ⟨rfl, -⟩
      · exact h.dropped ⟨c', hold, hc⟩ haold hold hwheel
      · exact absurd hp (lt_irrefl _)
    · cases hc
      rcases getElem?_grow.mp ha with haold | ⟨rfl, -⟩
      · exact hdrop a haold hwheel
      · exact absurd hcur (lt_irrefl _)

/-- A change of one process keeps the invariant if the process stays without privileges when its
creator has none, and gives its privileges up only when its children have none. -/
theorem IdInv.set {p p' : Pcb} (hp : s.procs[cur]? = some p) (hppid : p'.ppid = p.ppid)
    (hinit : cur = 0 → p'.uid = p.uid)
    (hkeep : usrIsWheel users p.uid = false → usrIsWheel users p'.uid = false)
    (hgive : usrIsWheel users p'.uid = false → usrIsWheel users p.uid = true →
      ∀ q c, s.Child cur q → s.procs[q]? = some c → usrIsWheel users c.uid = false) :
    IdInv users { s with procs := s.procs.set cur p' } := by
  have hchild : ∀ {i j}, IdState.Child { s with procs := s.procs.set cur p' } i j → s.Child i j := by
    rintro i j ⟨c, hj, hc⟩
    rcases getElem?_set_cases hj with ⟨rfl, rfl⟩ | ⟨-, hold⟩
    · exact ⟨p, hp, hppid ▸ hc⟩
    · exact ⟨c, hold, hc⟩
  have hlt := (List.getElem?_eq_some_iff.mp hp).1
  constructor
  · obtain ⟨c, hc, h0⟩ := h.init
    by_cases hcur : cur = 0
    · subst hcur
      obtain rfl : p = c := some.inj (hp.symm.trans hc)
      exact ⟨p', getElem?_set_self hlt, (hinit rfl).trans h0⟩
    · exact ⟨c, by rw [← hc]; exact getElem?_set_ne hcur, h0⟩
  · intro i j hc
    rw [length_set]
    exact h.creator (hchild hc)
  · intro i j a c hc ha hj hwheel
    have hold := hchild hc
    -- The child's privileges before the change, from those its creator had.
    have hbefore : ∀ b, s.procs[j]? = some b → usrIsWheel users b.uid = false := by
      intro b hb
      rcases getElem?_set_cases ha with ⟨rfl, rfl⟩ | ⟨-, haold⟩
      · by_cases hpw : usrIsWheel users p.uid = true
        · exact hgive hwheel hpw j b hold hb
        · exact h.dropped hold hp hb (Bool.eq_false_iff.mpr hpw)
      · exact h.dropped hold haold hb hwheel
    rcases getElem?_set_cases hj with ⟨rfl, rfl⟩ | ⟨-, hjold⟩
    · exact hkeep (hbefore p hp)
    · exact hbefore c hjold

/-- Every step keeps the invariant. -/
theorem IdInv.step (hst : IdStep users groups s t) : IdInv users t := by
  rcases hst.cases with heq | ⟨cur, p, p', hcur, hp, hppid, hwho, hgive, rfl⟩ | ⟨cur, hwho, rfl⟩
  · exact h.congr heq
  · refine h.set hp hppid (fun h0 => absurd h0 hcur) (fun hdrop => ?_) (fun hnew hold => ?_)
    · rcases hwho with hroot | hown | ⟨-, hwheel⟩
      · rw [hroot] at hdrop
        cases hdrop
      · exact hown ▸ hdrop
      · cases hwheel.symm.trans hdrop
    · rcases hwho with hroot | hown | ⟨hzero, -⟩
      · exact hgive hroot hnew
      · exact absurd ((hown ▸ hnew).symm.trans hold) (by simp)
      · rw [hzero] at hnew
        cases hnew
  · obtain ⟨c, hc, h0⟩ := h.init
    have hpos := (List.getElem?_eq_some_iff.mp hc).1
    rcases hwho with rfl | ⟨hlt, hshell⟩
    · refine h.grow hpos fun a ha hwheel => ?_
      obtain rfl : c = a := some.inj (hc.symm.trans ha)
      rw [h0] at hwheel
      cases hwheel
    · exact h.grow hlt fun a ha hwheel => hshell a ha ▸ hwheel

end

/-- A process without privileges keeps its uid. -/
theorem IdStep.uid_of_dropped (hst : IdStep users groups s t) {p : ℕ} {a : Pcb}
    (ha : s.procs[p]? = some a) (hwheel : usrIsWheel users a.uid = false) :
    ∃ b, t.procs[p]? = some b ∧ b.uid = a.uid := by
  rcases hst.cases with heq | ⟨cur, c, c', -, hc, -, hwho, -, rfl⟩ | ⟨cur, -, rfl⟩
  · exact ⟨a, by rw [heq, ha], rfl⟩
  · by_cases hcur : cur = p
    · subst hcur
      obtain rfl : c = a := some.inj (hc.symm.trans ha)
      have hlt := (List.getElem?_eq_some_iff.mp hc).1
      refine ⟨c', getElem?_set_self hlt, ?_⟩
      rcases hwho with hroot | hown | ⟨-, hw⟩
      · rw [hroot] at hwheel
        cases hwheel
      · exact hown
      · cases hw.symm.trans hwheel
    · exact ⟨a, (getElem?_set_ne hcur).trans ha, rfl⟩
  · exact ⟨a, getElem?_grow.mpr (.inl ha), rfl⟩

/-- The descendants of a process without privileges have none. -/
theorem IdInv.dropped_of_descendant (h : IdInv users s) {p d : ℕ} (hd : TransGen s.Child p d)
    {a b : Pcb} (ha : s.procs[p]? = some a) (hb : s.procs[d]? = some b)
    (hwheel : usrIsWheel users a.uid = false) : usrIsWheel users b.uid = false := by
  induction hd generalizing b with
  | single hc => exact h.dropped hc ha hb hwheel
  | tail _ hc ih =>
    have he := getElem?_eq_getElem (h.creator hc)
    exact h.dropped hc he hb (ih he)

/-! ## Results -/

/-- A spawned process gets its creator's identity exactly when that is the identity of the shell. -/
theorem sysSpawn_inherits_iff {pid : ℕ} {readable loads : Bool} (p : Pcb)
    (h : sysSpawn cur readable loads s = (.ok pid, t)) :
    ∃ c, t.procs[pid]? = some c ∧ c.ppid = some cur ∧
      ((c.uid = p.uid ∧ c.gid = p.gid) ↔ (p.uid = s.g_shell_uid ∧ p.gid = s.g_shell_gid)) := by
  cases readable <;> cases loads <;> simp [sysSpawn, machoSpawn] at h
  obtain ⟨rfl, rfl⟩ := h
  refine ⟨_, getElem?_concat_length, rfl, ?_⟩
  rw [eq_comm (a := p.uid), eq_comm (a := p.gid)]

/-- A launched service gets the uid of an account exactly when that is the uid of the shell. -/
theorem svcLaunch_account_iff {svc svc' : Service} {found loads : Bool} (u : AsdUser)
    (h : svcLaunch users groups found loads svc s = (svc', t)) (hrun : svc'.state = .running) :
    ∃ c, t.procs[svc'.pid]? = some c ∧ (c.uid = u.uid ↔ u.uid = s.g_shell_uid) := by
  cases found <;> cases loads <;> simp [svcLaunch, machoSpawn] at h <;> obtain ⟨rfl, rfl⟩ := h
  · cases hrun
  · cases hrun
  · cases hrun
  · exact ⟨_, getElem?_concat_length, eq_comm⟩

/-- In every state that steps under the condition reach:

* a process that `sys_spawn` creates has the uid and gid of its creator exactly when the step meets
  the condition;
* a service that `svc_launch` starts for an existing account has its uid exactly when the step meets
  the condition;
* a process with a uid other than 0 and without the wheel flag has no descendant with uid 0, now or
  after any further steps under the condition. -/
theorem identity_of_run {users : UserTable} {groups : GroupTable} {s : IdState}
    (h : ReflTransGen (IdStep users groups) .start s) :
    (∀ cur p readable loads pid t, s.procs[cur]? = some p →
      sysSpawn cur readable loads s = (.ok pid, t) →
      ∃ c, t.procs[pid]? = some c ∧ c.ppid = some cur ∧
        ((c.uid = p.uid ∧ c.gid = p.gid) ↔ IdOp.Safe users s (.spawn cur readable loads))) ∧
    (∀ svc u found loads svc' t, svc.svc_user ≠ [] →
      usrFindByName users svc.svc_user = some u →
      svcLaunch users groups found loads svc s = (svc', t) → svc'.state = .running →
      ∃ c, t.procs[svc'.pid]? = some c ∧
        (c.uid = u.uid ↔ IdOp.Safe users s (.launch svc found loads))) ∧
    (∀ t, ReflTransGen (IdStep users groups) s t → ∀ p a, s.procs[p]? = some a → a.uid ≠ 0 →
      usrIsWheel users a.uid = false →
      ∀ d b, TransGen t.Child p d → t.procs[d]? = some b → b.uid ≠ 0) := by
  have hinv : IdInv users s := Runs.invariant h .start fun _ _ => IdInv.step
  refine ⟨?_, ?_, ?_⟩
  · intro cur p readable loads pid t hp hspawn
    obtain ⟨c, hc, hppid, hiff⟩ := sysSpawn_inherits_iff p hspawn
    refine ⟨c, hc, hppid, hiff.trans ⟨fun hshell p' hp' => ?_, fun hsafe => hsafe p hp⟩⟩
    obtain rfl : p = p' := some.inj (hp.symm.trans hp')
    exact hshell
  · intro svc u found loads svc' t huser hu hlaunch hrun
    obtain ⟨c, hc, hiff⟩ := svcLaunch_account_iff u hlaunch hrun
    refine ⟨c, hc, hiff.trans ⟨fun hshell u' _ hu' => ?_, fun hsafe => hsafe u huser hu⟩⟩
    obtain rfl : u = u' := some.inj (hu.symm.trans hu')
    exact hshell
  · intro t hrun p a ha _ hwheel d b hd hb hzero
    -- The process has kept its uid, and the invariant holds at the end of the run as well.
    obtain ⟨hinv', a', ha', huid⟩ : IdInv users t ∧ ∃ a', t.procs[p]? = some a' ∧ a'.uid = a.uid := by
      refine Runs.invariant (P := fun x => IdInv users x ∧ ∃ c, x.procs[p]? = some c ∧
        c.uid = a.uid) hrun ⟨hinv, a, ha, rfl⟩ ?_
      rintro x y ⟨hx, c, hc, hcuid⟩ hxy
      obtain ⟨e, he, heuid⟩ := hxy.uid_of_dropped hc (hcuid ▸ hwheel)
      exact ⟨hx.step hxy, e, he, heuid.trans hcuid⟩
    have hdrop := hinv'.dropped_of_descendant hd ha' hb (huid ▸ hwheel)
    rw [hzero] at hdrop
    cases hdrop

end

/-- Root, and an account without the wheel flag. -/
def rootAndAlice : UserTable :=
  [⟨0, 0, usrFlagWheel, 0, 0, cstr "root"⟩,
    ⟨1000, 1000, 0, 0, 0, cstr "alice"⟩]

/-- A service that runs as the account. -/
def asAlice : Service := ⟨cstr "alice", [], .new, 0⟩

/-- A service without an account gives up root. -/
theorem identity_of_run_drop :
    let s : IdState := ⟨0, 0, [⟨none, 0, 0⟩, ⟨some 0, 1000, 0⟩]⟩
    ∀ t, ReflTransGen (IdStep rootAndAlice []) s t →
      ∀ d b, TransGen t.Child 1 d → t.procs[d]? = some b → b.uid ≠ 0 := by
  intro s t ht
  have hlaunch : IdStep rootAndAlice [] .start ⟨0, 0, [⟨none, 0, 0⟩, ⟨some 0, 0, 0⟩]⟩ :=
    ⟨.launch ⟨[], [], .new, 0⟩ true true, trivial, fun u h => absurd rfl h, rfl⟩
  have hdrop : IdStep rootAndAlice [] ⟨0, 0, [⟨none, 0, 0⟩, ⟨some 0, 0, 0⟩]⟩ s := by
    refine ⟨.setuid 1 1000, ⟨by decide, by decide⟩, ?_, rfl⟩
    rintro p q c - - - ⟨c', hq, hc⟩ -
    match q, hq with
    | 0, hq | 1, hq =>
      cases hq
      cases hc
  have hrun : ReflTransGen (IdStep rootAndAlice []) .start s := (ReflTransGen.single hlaunch).tail hdrop
  exact (identity_of_run hrun).2.2 t ht 1 ⟨some 0, 1000, 0⟩ rfl (by decide) (by decide)

/-- Before anybody has logged in, a service of an account without privileges runs as root; after it
has set its uid to that of the account, it creates a process with uid 0. -/
theorem sysSpawn_regains_root : ∃ svc s s' t,
    svcLaunch rootAndAlice [] true true asAlice .start = (svc, s) ∧ svc.state = .running ∧
    svc.pid = 1 ∧ (usrFindByName rootAndAlice asAlice.svc_user).map (·.uid) = some 1000 ∧
    s.procs[1]?.map (·.uid) = some 0 ∧
    sysSetuid rootAndAlice 1 1000 s = (.ok (), s') ∧ s'.procs[1]?.map (·.uid) = some 1000 ∧
    usrIsWheel rootAndAlice 1000 = false ∧
    sysSpawn 1 true true s' = (.ok 2, t) ∧ t.Child 1 2 ∧ t.procs[2]?.map (·.uid) = some 0 := by
  refine ⟨_, _, _, _, rfl, rfl, rfl, by decide, rfl, rfl, rfl, by decide, rfl, ⟨_, rfl, rfl⟩, rfl⟩

end FreeAsd.Init
