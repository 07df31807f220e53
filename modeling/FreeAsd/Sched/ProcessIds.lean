import FreeAsd.Sched.ExitStatus
import FreeAsd.Vfs.Descriptors

/-!
# Process identifiers

The number at which `sched_spawn` finds a free slot is the pid, which can be `MAX_PROCS` or more. Pids in the
table are different, but the first process gets that of the bootstrap thread (`distinct_iff`,
`spawn_distinct_iff`). Without memory for a kernel stack the slot stays filled (`spawn_fails_iff`). The counter
is right as long as the calls are orderly (`CountInv`).
-/

namespace FreeAsd.Sched

open Nat Function Finset Option

open Vfs (Fd NodeId maxFds)

/-! ## The search -/

/-- The slots of pids that differ by `MAX_PROCS` are the same. -/
theorem slotOf_add (pid : ℕ) : slotOf (pid + maxProcs) = slotOf pid := slotOf_congr (add_mod_right _ _)

variable {s : Procs} {pid n : ℕ}

/-- It looks at each slot once at most. -/
theorem spawnPid_range {fuel : ℕ} (h : spawnPid s fuel n = some pid) (hn : n < maxProcs) :
    n ≤ pid ∧ pid < n + maxProcs ∧ ¬ Busy s pid := by
  obtain ⟨k, rfl, hfree, hbefore⟩ := spawnPid_first h (hn.trans (by decide))
  have hk : k < maxProcs := by
    by_contra hk
    refine hfree ?_
    have hbusy := hbefore (k - maxProcs) (by simp only [maxProcs] at hk ⊢; omega)
    unfold Busy at hbusy ⊢
    rwa [← slotOf_add, show n + (k - maxProcs) + maxProcs = n + k by omega, ← slotOf_mod] at hbusy
  have hsmall : (n + k) % 2^32 = n + k := mod_eq_of_lt (by simp only [maxProcs] at hn hk; omega)
  rw [hsmall] at hfree ⊢
  exact ⟨by omega, by omega, hfree⟩

/-- It finds a slot if there is one. -/
theorem spawnPid_ne_none {fuel k : ℕ} (hnext : s.g_next_pid + k < 2^32) (hfree : ¬ Busy s (s.g_next_pid + k))
    (hfuel : k < fuel) {j : ℕ} (hj : j ≤ k) : spawnPid s (fuel - j) (s.g_next_pid + j) ≠ none := by
  induction hj using Nat.decreasingInduction with
  | self =>
    obtain ⟨m, hm⟩ : ∃ m, fuel - k = m + 1 := ⟨fuel - k - 1, by omega⟩
    rw [Busy] at hfree
    rw [hm, spawnPid, if_neg hfree]
    exact some_ne_none _
  | of_succ j hj ih =>
    obtain ⟨m, hm⟩ : ∃ m, fuel - j = m + 1 := ⟨fuel - j - 1, by omega⟩
    have hm' : fuel - (j + 1) = m := by omega
    have hnext' : (s.g_next_pid + j + 1) % 2^32 = s.g_next_pid + (j + 1) := mod_eq_of_lt (by omega)
    rw [hm, spawnPid]
    dsimp only
    rw [hnext']
    split_ifs with hbusy hround
    · omega
    · rw [hm'] at ih
      exact ih
    · exact some_ne_none _

/-- The search does not go on for ever: there is no endless sequence of rounds. -/
theorem search_terminates (s : Procs) (hn : n < 2^32) :
    ¬ ∃ f : ℕ → ℕ, f 0 = n ∧ ∀ j, Busy s (f j) ∧ f (j + 1) = (f j + 1) % 2^32 ∧ f (j + 1) ≠ n := by
  rintro ⟨f, hstart, hround⟩
  have hf (j : ℕ) : f j = (n + j) % 2^32 := by
    induction j with
    | zero => rw [hstart, add_zero, mod_eq_of_lt hn]
    | succ j ih => rw [(hround j).2.1, ih, mod_add_mod, add_assoc]
  refine (hround (2^32 - 1)).2.2 ?_
  rw [hf, show n + (2^32 - 1 + 1) = n + 2^32 by omega, add_mod_right, mod_eq_of_lt hn]

/-! ## Spawning, with the files -/

/-- The pid whose slot `sched_spawn` fills. -/
def spawnSlot (s : Procs) : Option ℕ :=
  if s.g_proc_count ≥ maxProcs then none else spawnPid s (2^32) s.g_next_pid

/-- The descriptor tables of all processes, and the reference counts of the nodes. -/
structure Files where
  fd_table : PcbId → Fd → Option NodeId
  refcount : NodeId → ℕ

namespace Files

/-- One place in `vfs_fd_inherit`. -/
def inheritSlot (child parent : PcbId) (f : Files) (fd : Fd) : Files :=
  match f.fd_table parent fd with
  | none => f
  | some i =>
    { fd_table := Function.update f.fd_table child (Function.update (f.fd_table child) fd (some i))
      refcount := Function.update f.refcount i ((f.refcount i + 1) % 2^32) }

/-- `vfs_fd_inherit`. -/
def vfsFdInherit (f : Files) (child parent : PcbId) : Files :=
  (List.finRange maxFds).foldl (inheritSlot child parent) f

/-- What `sched_spawn` does to the files of the process that it makes: the zeroing of the slot, and the
files of the current process. -/
def spawn (f : Files) (child : PcbId) (current : Option PcbId) : Files :=
  let f := { f with fd_table := Function.update f.fd_table child fun _ => none }
  match current with
  | none => f
  | some parent => f.vfsFdInherit child parent

end Files

/-- The arguments of `sched_spawn`, and whether there is memory for a kernel stack. -/
structure SpawnArgs where
  sched_class : ℕ
  priority : ℤ
  cpu_affinity : ℕ
  kstack : Bool

/-- `sched_spawn`. -/
def SpawnArgs.run (a : SpawnArgs) (s : Procs) : ℕ × Procs :=
  schedSpawn s a.sched_class a.priority a.cpu_affinity a.kstack

/-- The files after `sched_spawn`. -/
def spawnFiles (s : Procs) (f : Files) : Files :=
  match spawnSlot s with
  | none => f
  | some pid => f.spawn (slotOf pid) s.g_current

variable {a : SpawnArgs}

/-- `sched_spawn` without a free slot. -/
theorem run_of_none (h : spawnSlot s = none) : a.run s = (0, s) := by
  obtain ⟨-, hs⟩ | ⟨pid, _, _, hcount, hpid, -⟩ :=
    schedSpawn_cases s a.sched_class a.priority a.cpu_affinity a.kstack
  · exact hs
  · rw [spawnSlot, if_neg (not_le.mpr hcount), hpid] at h
    cases h

/-- What `sched_spawn` does if it has filled the slot of a pid. -/
structure Filled (s : Procs) (a : SpawnArgs) (pid : ℕ) : Prop where
  count_lt : s.g_proc_count < maxProcs
  search : spawnPid s (2^32) s.g_next_pid = some pid
  result : (a.run s).1 = if a.kstack then pid else 0
  other : ∀ v, v ≠ slotOf pid → (a.run s).2.pcb v = s.pcb v
  pid_eq : ((a.run s).2.pcb (slotOf pid)).pid = pid
  state : ((a.run s).2.pcb (slotOf pid)).state = .new
  count : (a.run s).2.g_proc_count = if a.kstack then (s.g_proc_count + 1) % 2^32 else s.g_proc_count
  next : (a.run s).2.g_next_pid = if (pid + 1) % maxProcs = 0 then 1 else (pid + 1) % maxProcs
  jmp : (a.run s).2.g_reap_jmp = s.g_reap_jmp
  runq : (a.run s).2.runq = s.runq

/-- `sched_spawn` with a free slot. -/
theorem run_of_some (h : spawnSlot s = some pid) : Filled s a pid := by
  unfold spawnSlot at h
  split_ifs at h with hcount
  obtain ⟨hfull | hnone, -⟩ | ⟨pid', pcb, links, hlt, hpid, ⟨hself, hstate⟩, -, -, hs⟩ :=
    schedSpawn_cases s a.sched_class a.priority a.cpu_affinity a.kstack
  · exact absurd hfull hcount
  · cases h.symm.trans hnone
  obtain rfl := some.inj (h.symm.trans hpid)
  have hrun : a.run s = _ := hs
  have hslot := update_self (slotOf pid) pcb s.pcb
  refine ⟨hlt, h, ?_, fun v hv => ?_, ?_, ?_, ?_, ?_, ?_, ?_⟩ <;> rw [hrun]
  · exact update_of_ne hv _ _
  · exact (congrArg Pcb.pid hslot).trans hself
  · exact (congrArg Pcb.state hslot).trans hstate

/-! ## What the calls leave alone -/

/-- The pids and the place of the search are the same, and nobody outside `D` has died or has come back
to life. -/
structure Frame (D : Set PcbId) (s s' : Procs) : Prop where
  pid : ∀ v, (s'.pcb v).pid = (s.pcb v).pid
  dead : ∀ v, v ∉ D → ((s'.pcb v).state = .dead ↔ (s.pcb v).state = .dead)
  next : s'.g_next_pid = s.g_next_pid
  idle : (s'.runq 0).idle_pcb = (s.runq 0).idle_pcb

variable {s' s'' : Procs} {D : Set PcbId} {p cur waiter : PcbId} {call : ReapCall}

theorem Frame.trans (h : Frame D s s') (h' : Frame D s' s'') : Frame D s s'' where
  pid v := (h'.pid v).trans (h.pid v)
  dead v hv := (h'.dead v hv).trans (h.dead v hv)
  next := h'.next.trans h.next
  idle := h'.idle.trans h.idle

/-- Only run queues, links and other globals change. -/
theorem Frame.of_pcb (hpcb : s'.pcb = s.pcb) (hnext : s'.g_next_pid = s.g_next_pid)
    (hidle : (s'.runq 0).idle_pcb = (s.runq 0).idle_pcb) : Frame D s s' :=
  ⟨fun v => by rw [hpcb], fun v _ => by rw [hpcb], hnext, hidle⟩

/-- A process is written that keeps its pid, and is in `D` or as dead as before. -/
theorem Frame.setPcb {pcb : Pcb} (hpid : pcb.pid = (s.pcb p).pid)
    (hdead : p ∈ D ∨ (pcb.state = .dead ↔ (s.pcb p).state = .dead)) : Frame D s (s.setPcb p pcb) := by
  refine ⟨fun v => ?_, fun v hv => ?_, rfl, rfl⟩ <;> by_cases hvp : v = p
  · rw [hvp, Procs.pcb_setPcb_self, hpid]
  · rw [Procs.pcb_setPcb_of_ne _ hvp]
  · rw [hvp, Procs.pcb_setPcb_self]
    exact hdead.resolve_left (hvp ▸ hv)
  · rw [Procs.pcb_setPcb_of_ne _ hvp]

/-- What a computation that does not fail returns has a property. -/
def Yields {α : Type} (x : Except Fault α) (P : α → Prop) : Prop :=
  match x with
  | .error _ => True
  | .ok a => P a

theorem Yields.ok {α : Type} {x : Except Fault α} {P : α → Prop} {b : α} (h : Yields x P)
    (hb : x = .ok b) : P b := by
  rw [hb] at h
  exact h

theorem Yields.bind {α β : Type} {x : Except Fault α} {f : α → Except Fault β} {P : α → Prop}
    {Q : β → Prop} (hx : Yields x P) (hf : ∀ b, P b → Yields (f b) Q) : Yields (x >>= f) Q := by
  cases x with
  | error e => exact trivial
  | ok b => exact hf b hx

/-- Run queues and links change, and who is current and who waits. -/
structure SameTable (s s' : Procs) : Prop where
  pcb : s'.pcb = s.pcb
  next : s'.g_next_pid = s.g_next_pid
  idle : (s'.runq 0).idle_pcb = (s.runq 0).idle_pcb
  count : s'.g_proc_count = s.g_proc_count
  jmp : s'.g_reap_jmp = s.g_reap_jmp

theorem SameTable.trans (h : SameTable s s') (h' : SameTable s' s'') : SameTable s s'' where
  pcb := h'.pcb.trans h.pcb
  next := h'.next.trans h.next
  idle := h'.idle.trans h.idle
  count := h'.count.trans h.count
  jmp := h'.jmp.trans h.jmp

theorem sameTable_setRunq {rq : Runq} (h : rq.idle_pcb = (s.runq 0).idle_pcb) :
    SameTable s (s.setRunq 0 rq) := by
  refine ⟨rfl, rfl, ?_, rfl, rfl⟩
  exact (congrArg Runq.idle_pcb (update_self 0 rq s.runq)).trans h

section

variable (s)

theorem yields_lock : Yields (s.lock 0) (SameTable s) := by
  unfold Procs.lock
  split_ifs
  · exact trivial
  · exact sameTable_setRunq rfl

theorem sameTable_unlock : SameTable s (s.unlock 0) := sameTable_setRunq rfl

theorem yields_remove (q : Queue) (p : PcbId) : Yields (s.remove 0 q p) (SameTable s) := by
  unfold Procs.remove
  cases rbRemoveNode Procs.nodeFuel (s.tree 0 q) p with
  | none => exact trivial
  | some t =>
    have h : SameTable s (s.setRunq 0 { s.runq 0 with
        tree := update (s.runq 0).tree q t.root
        count := update (s.runq 0).count q (((s.runq 0).count q + 2^32 - 1) % 2^32) }) :=
      sameTable_setRunq rfl
    exact { h with }

theorem yields_schedDequeue : Yields (schedDequeue s 0) fun r => SameTable s r.1 := by
  unfold schedDequeue
  cases dequeueTree (s.runq 0) with
  | none => exact ⟨rfl, rfl, rfl, rfl, rfl⟩
  | some q =>
    have hleft : Yields (s.leftmost 0 q) fun _ => True := by
      unfold Procs.leftmost
      cases rbLeftmost Procs.nodeFuel (s.tree 0 q) <;> exact trivial
    refine hleft.bind fun n _ => ?_
    cases n with
    | none => exact ⟨rfl, rfl, rfl, rfl, rfl⟩
    | some n => exact (yields_remove s q n).bind fun s' h => h

theorem yields_dequeueLocked : Yields (dequeueLocked s) fun r => SameTable s r.1 := by
  refine (yields_lock s).bind fun s₁ h₁ => ?_
  refine (yields_schedDequeue s₁).bind fun ⟨s₂, next⟩ h₂ => ?_
  exact (h₁.trans h₂).trans (sameTable_unlock s₂)

theorem yields_exitNext : Yields (exitNext s) fun r => SameTable s r.1 := by
  unfold exitNext
  cases s.g_reap_waiter with
  | none => exact yields_dequeueLocked s
  | some waiter =>
    dsimp only
    split_ifs
    · exact ⟨rfl, rfl, rfl, rfl, rfl⟩
    · exact yields_dequeueLocked s

theorem yields_reapTakeoff (p : PcbId) : Yields (reapTakeoff s p) (SameTable s) := by
  refine (yields_lock s).bind fun s₁ h₁ => ?_
  have htake : Yields (schedTakeoffRunqLocked s₁ 0 p) (SameTable s₁) := by
    unfold schedTakeoffRunqLocked
    dsimp only
    split_ifs
    · exact ⟨rfl, rfl, rfl, rfl, rfl⟩
    · exact ⟨rfl, rfl, rfl, rfl, rfl⟩
    · exact (yields_remove s₁ _ p).bind fun s₂ h => { h with }
    · exact ⟨rfl, rfl, rfl, rfl, rfl⟩
  exact htake.bind fun s₂ h₂ => (h₁.trans h₂).trans (sameTable_unlock s₂)

end

theorem SameTable.frame (h : SameTable s s') : Frame D s s' := .of_pcb h.pcb h.next h.idle

/-- The end of `sched_exit` without a wait: it brings nobody back to life but an idle process. -/
theorem yields_exitSwitch (hidle : ∀ v, (s.runq 0).idle_pcb = some v → v ∈ D) :
    Yields (exitSwitch s) fun r => (∃ next, r.2 = .process next) ∧ Frame D s r.1 ∧
      r.1.g_proc_count = s.g_proc_count ∧ r.1.g_reap_jmp = s.g_reap_jmp := by
  refine (yields_exitNext s).bind fun ⟨s₁, next⟩ h₁ => ?_
  dsimp only at h₁ ⊢
  cases htarget : exitTarget s₁ next with
  | none => exact trivial
  | some target =>
    refine ⟨⟨target, rfl⟩, h₁.frame.trans ?_, h₁.count, h₁.jmp⟩
    have hcurrent : Frame D s₁ { s₁ with g_current := some target } := .of_pcb rfl rfl rfl
    refine hcurrent.trans ?_
    apply Frame.setPcb
    · rfl
    -- The target is alive, or it is the idle process.
    unfold exitTarget at htarget
    cases next with
    | none => exact .inl (hidle target (h₁.idle ▸ htarget))
    | some n =>
      dsimp only at htarget
      split_ifs at htarget with hdead
      · exact .inl (hidle target (h₁.idle ▸ htarget))
      · cases htarget
        exact .inr (iff_of_false (by simp) hdead)

section

variable (s cur) (code : ℤ)

/-- `sched_exit` kills the current process. -/
theorem frame_die (hcur : cur ∈ D) : Frame D s (die s cur code) := by
  obtain ⟨pcb, hdie, hpcb, -⟩ := die_eq s cur code
  rw [hdie]
  exact ⟨fun v => (hpcb v).1, fun v hv => by rw [(hpcb v).2 fun e => hv (e ▸ hcur)], rfl, rfl⟩

theorem die_count : (die s cur code).g_proc_count = (s.g_proc_count + 2^32 - 1) % 2^32 := by
  obtain ⟨pcb, hdie, -⟩ := die_eq s cur code
  rw [hdie]

theorem die_jmp : (die s cur code).g_reap_jmp = s.g_reap_jmp := by
  obtain ⟨pcb, hdie, -⟩ := die_eq s cur code
  rw [hdie]

/-- `sched_exit` lets the process that waits run. -/
theorem frame_exitResume (hwaiter : waiter ∈ D ∨ (s.pcb waiter).state ≠ .dead) :
    Frame D s (exitResume s waiter) := by
  have hset : Frame D s (s.setPcb waiter { s.pcb waiter with state := .run }) :=
    .setPcb rfl (hwaiter.imp_right fun h => iff_of_false (by simp) h)
  exact hset.trans (.of_pcb rfl rfl rfl)

end

/-- The end of `sched_reap` writes one process. -/
theorem reapFinish_pcb_of_ne {v : PcbId} (hv : v ≠ call.pcb) : (reapFinish s call).1.pcb v = s.pcb v := by
  rw [reapFinish_eq]
  exact s.pcb_setPcb_of_ne hv _

theorem reapFinish_pcb_self (s : Procs) (call : ReapCall) :
    ((reapFinish s call).1.pcb call.pcb).pid = 0 ∧ ((reapFinish s call).1.pcb call.pcb).state = .dead := by
  rw [reapFinish_eq]
  rw [s.pcb_setPcb_self]
  exact ⟨rfl, rfl⟩

theorem reapFinish_globals (s : Procs) (call : ReapCall) :
    (reapFinish s call).1.g_next_pid = s.g_next_pid ∧ (reapFinish s call).1.runq = s.runq ∧
      (reapFinish s call).1.g_proc_count = s.g_proc_count ∧
      (reapFinish s call).1.g_reap_jmp = s.g_reap_jmp := by
  rw [reapFinish_eq]
  exact ⟨rfl, rfl, rfl, rfl⟩

/-! ## Runs -/

/-- The processes, with the slots of those that were spawned. -/
structure Life where
  procs : Procs
  spawned : Finset (Fin maxProcs)

namespace Life

/-- After `sched_init` and `sched_bootstrap_init_thread`. -/
def start (cpu_count idle_fn : ℕ) : Life := ⟨schedBootstrapInitThread (schedInit cpu_count idle_fn), ∅⟩

/-- `sched_spawn`. A slot that was filled in vain is not that of a process that was spawned. -/
def spawn (r : Life) (a : SpawnArgs) : Life where
  procs := (a.run r.procs).2
  spawned :=
    match spawnSlot r.procs with
    | none => r.spawned
    | some pid =>
      if a.kstack then insert (Fin.ofNat maxProcs pid) r.spawned else r.spawned.erase (Fin.ofNat maxProcs pid)

/-- `sched_exit`, with the rest of the call of `sched_reap` to which it goes back. -/
def exit (s : Procs) (code : ℤ) : Except Fault Procs := do
  match ← schedExit s code with
  | (s, .process _) => return s
  | (s, .reap call) => return (reapFinish s call).1

/-- What the rest of the scheduler may do: it changes no pid, kills nobody, and leaves the counters and the
call that waits alone. -/
structure Quiet (s s' : Procs) : Prop extends Frame ∅ s s' where
  count : s'.g_proc_count = s.g_proc_count
  jmp : s'.g_reap_jmp = s.g_reap_jmp

/-- Conditions on the states in which calls are made. -/
structure Rules where
  spawn : Life → Prop
  exit : Life → Prop
  reap : Life → ℕ → Prop

/-- A step of a run, whose call meets the conditions. -/
inductive Step (R : Rules) : Life → Life → Prop
  | spawn {r : Life} (hok : R.spawn r) (a : SpawnArgs) : Step R r (r.spawn a)
  | exit {r : Life} {code : ℤ} {s : Procs} (hok : R.exit r) (h : exit r.procs code = .ok s) :
    Step R r ⟨s, r.spawned⟩
  | reap {r : Life} {pid : ℕ} {s : Procs} (hok : R.reap r pid) (h : reapStart r.procs pid = .ok s) :
    Step R r ⟨s, r.spawned⟩
  | other {r : Life} {s : Procs} (h : Quiet r.procs s) : Step R r ⟨s, r.spawned⟩

/-- Any calls. -/
def Rules.any : Rules := ⟨fun _ => True, fun _ => True, fun _ _ => True⟩

/-- What every step keeps: the slot of a process is that of its pid, the bootstrap thread has pid 1, and
idle processes have none. -/
structure PidInv (s : Procs) : Prop where
  slot : ∀ i : Fin maxProcs, (s.pcb (.slot i)).pid ≠ 0 → (s.pcb (.slot i)).pid % maxProcs = i
  bootstrap : (s.pcb .bootstrap).pid = 1
  idle : ∀ cpu, (s.pcb (.idle cpu)).pid = 0
  next : 1 ≤ s.g_next_pid ∧ s.g_next_pid < maxProcs
  jmp : ∀ call, s.g_reap_jmp = some call → ∃ i, call.pcb = .slot i
  idle_pcb : ∀ v, (s.runq 0).idle_pcb = some v → ∃ cpu, v = .idle cpu

theorem PidInv.frame (h : PidInv s) (hframe : Frame D s s')
    (hjmp : ∀ call, s'.g_reap_jmp = some call → ∃ i, call.pcb = .slot i) : PidInv s' where
  slot i := by
    rw [hframe.pid]
    exact h.slot i
  bootstrap := (hframe.pid _).trans h.bootstrap
  idle cpu := (hframe.pid _).trans (h.idle cpu)
  next := by
    rw [hframe.next]
    exact h.next
  jmp := hjmp
  idle_pcb := by
    rw [hframe.idle]
    exact h.idle_pcb

theorem PidInv.start (cpu_count idle_fn : ℕ) : PidInv (start cpu_count idle_fn).procs where
  slot i h := absurd rfl h
  bootstrap := rfl
  idle cpu := by
    change ((schedInit cpu_count idle_fn).pcb (.idle cpu)).pid = 0
    unfold schedInit
    dsimp only
    split_ifs <;> rfl
  next := ⟨le_rfl, show 1 < maxProcs by decide⟩
  jmp call h := absurd h (show (none : Option ReapCall) ≠ some call by simp)
  idle_pcb v h := by
    change ((schedInit cpu_count idle_fn).runq 0).idle_pcb = some v at h
    unfold schedInit at h
    dsimp only at h
    split_ifs at h
    · exact ⟨_, (some.inj h).symm⟩
    · exact ⟨_, (some.inj h).symm⟩
    · exact absurd h (show (none : Option PcbId) ≠ some v by simp)
    · exact absurd h (show (none : Option PcbId) ≠ some v by simp)

/-- The end of `sched_reap` for a process in a slot. -/
theorem PidInv.reapFinish (h : PidInv s) {i : Fin maxProcs} (hcall : call.pcb = .slot i) :
    PidInv (reapFinish s call).1 := by
  obtain ⟨hnext, hrunq, -, hjmp⟩ := reapFinish_globals s call
  refine ⟨fun j hj => ?_, ?_, fun cpu => ?_, hnext ▸ h.next, hjmp ▸ h.jmp, hrunq ▸ h.idle_pcb⟩
  · by_cases hji : PcbId.slot j = call.pcb
    · rw [hji] at hj
      exact absurd (reapFinish_pcb_self s call).1 hj
    · rw [reapFinish_pcb_of_ne hji] at hj ⊢
      exact h.slot j hj
  · rw [reapFinish_pcb_of_ne (by rw [hcall]; simp)]
    exact h.bootstrap
  · rw [reapFinish_pcb_of_ne (by rw [hcall]; simp)]
    exact h.idle cpu

/-- What `sched_reap` does before another process runs: nothing, or it goes over to the process, or it ends
at once. -/
theorem reapStart_cases (h : reapStart s pid = .ok s') :
    (schedFind s pid = none ∧ s' = s) ∨
    ∃ waiter, schedFind s pid = some (slotOf pid) ∧ s.g_current = some waiter ∧
      ((s.pcb (slotOf pid)).state = .ready ∧ (s.pcb (slotOf pid)).rip ≠ 0 ∧ Frame ∅ s s' ∧
        s'.g_proc_count = s.g_proc_count ∧
        s'.g_reap_jmp = some (reapCall s (slotOf pid) waiter) ∨
      ¬ ((s.pcb (slotOf pid)).state = .ready ∧ (s.pcb (slotOf pid)).rip ≠ 0) ∧
        s' = (Sched.reapFinish (reapWait s (reapCall s (slotOf pid) waiter))
          (reapCall s (slotOf pid) waiter)).1) := by
  unfold reapStart schedReap at h
  cases hfind : schedFind s pid with
  | none =>
    rw [hfind] at h
    exact .inl ⟨rfl, (Except.ok.inj h).symm⟩
  | some p =>
    obtain ⟨rfl, -⟩ := schedFind_slot hfind
    rw [hfind] at h
    cases hcur : s.g_current with
    | none =>
      rw [hcur] at h
      exact nomatch h
    | some waiter =>
      rw [hcur] at h
      dsimp only at h
      refine .inr ⟨waiter, rfl, rfl, ?_⟩
      by_cases hrun : (s.pcb (slotOf pid)).state = .ready ∧ (s.pcb (slotOf pid)).rip ≠ 0
      · rw [if_pos hrun] at h
        refine .inl ⟨hrun.1, hrun.2, ?_⟩
        obtain ⟨start, hstart, h⟩ := bind_eq_ok h
        obtain ⟨s₁, htake, hstart⟩ := bind_eq_ok hstart
        have hsame := (yields_reapTakeoff _ _).ok htake
        cases hstart
        cases h
        have hwait : Frame ∅ s (reapWait s (reapCall s (slotOf pid) waiter)) := .of_pcb rfl rfl rfl
        have hstate : (s₁.pcb (slotOf pid)).state = .ready := by
          rw [hsame.pcb]
          exact hrun.1
        refine ⟨(hwait.trans hsame.frame).trans ?_, hsame.count, hsame.jmp⟩
        have hset : Frame ∅ s₁ (s₁.setPcb (slotOf pid) { s₁.pcb (slotOf pid) with
            sched_class := 0, priority := 0, state := .run }) := by
          apply Frame.setPcb
          · rfl
          · exact .inr (iff_of_false (by simp) (by simp [hstate]))
        exact hset.trans (.of_pcb rfl rfl rfl)
      · rw [if_neg hrun] at h
        exact .inr ⟨hrun, (Except.ok.inj h).symm⟩

/-- The idle processes. -/
def idles : Set PcbId := {v | ∃ cpu, v = .idle cpu}

/-- What `sched_exit` does: it switches to a process, or goes back to the call of `sched_reap` that waits. -/
theorem exit_cases {code : ℤ} (hidle : ∀ v, (s.runq 0).idle_pcb = some v → v ∈ idles)
    (h : exit s code = .ok s') :
    ∃ cur, s.g_current = some cur ∧
      ((s.g_reap_jmp_active = true → s.g_reap_waiter = none) ∧ Frame idles (die s cur code) s' ∧
        s'.g_proc_count = (die s cur code).g_proc_count ∧ s'.g_reap_jmp = s.g_reap_jmp ∨
      ∃ waiter call, s.g_reap_jmp_active = true ∧ s.g_reap_waiter = some waiter ∧
        s.g_reap_jmp = some call ∧
        s' = (Sched.reapFinish (exitResume (die s cur code) waiter) call).1) := by
  obtain ⟨⟨s₁, dest⟩, hexit, h⟩ := bind_eq_ok h
  unfold schedExit at hexit
  cases hcur : s.g_current with
  | none =>
    rw [hcur] at hexit
    exact nomatch hexit
  | some cur =>
    refine ⟨cur, rfl, ?_⟩
    rw [hcur] at hexit
    dsimp only at hexit
    obtain ⟨pcb, hdie, -⟩ := die_eq s cur code
    have hactive : (die s cur code).g_reap_jmp_active = s.g_reap_jmp_active := by rw [hdie]
    have hwaiter : (die s cur code).g_reap_waiter = s.g_reap_waiter := by rw [hdie]
    have hrunq : (die s cur code).runq = s.runq := by rw [hdie]
    have hswitch : exitSwitch (die s cur code) = .ok (s₁, dest) →
        Frame idles (die s cur code) s' ∧ s'.g_proc_count = (die s cur code).g_proc_count ∧
          s'.g_reap_jmp = s.g_reap_jmp := by
      intro hswitch
      have hyields := (yields_exitSwitch (s := die s cur code) (D := idles) (hrunq ▸ hidle)).ok hswitch
      obtain ⟨⟨next, rfl⟩, hframe, hcount, hjmp⟩ := hyields
      cases h
      exact ⟨hframe, hcount, hjmp.trans (die_jmp s cur code)⟩
    rw [hactive, hwaiter, die_jmp] at hexit
    cases ha : s.g_reap_jmp_active <;> cases hw : s.g_reap_waiter <;> rw [ha, hw] at hexit
    · exact .inl ⟨fun _ => rfl, hswitch hexit⟩
    · exact .inl ⟨fun e => absurd e Bool.false_ne_true, hswitch hexit⟩
    · exact .inl ⟨fun _ => rfl, hswitch hexit⟩
    · next waiter =>
      cases hj : s.g_reap_jmp with
      | none =>
        rw [hj] at hexit
        exact nomatch hexit
      | some call =>
        rw [hj] at hexit
        cases hexit
        exact .inr ⟨waiter, call, rfl, rfl, rfl, (Except.ok.inj h).symm⟩

/-! ### Pids -/

theorem PidInv.spawn (h : PidInv s) (a : SpawnArgs) : PidInv (a.run s).2 := by
  cases hslot : spawnSlot s with
  | none =>
    rw [run_of_none hslot]
    exact h
  | some pid =>
    have hf := run_of_some (a := a) hslot
    refine ⟨fun i hi => ?_, ?_, fun cpu => ?_, ?_, hf.jmp ▸ h.jmp, hf.runq ▸ h.idle_pcb⟩
    · by_cases hi' : PcbId.slot i = slotOf pid
      · rw [hi', hf.pid_eq]
        exact (congrArg Fin.val (PcbId.slot.inj hi')).symm
      · rw [hf.other _ hi'] at hi ⊢
        exact h.slot i hi
    · rw [hf.other _ (by simp [slotOf])]
      exact h.bootstrap
    · rw [hf.other _ (by simp [slotOf])]
      exact h.idle cpu
    · rw [hf.next]
      have hlt : (pid + 1) % maxProcs < maxProcs := mod_lt _ (by decide)
      split_ifs with hzero
      · exact ⟨le_rfl, by decide⟩
      · exact ⟨pos_of_ne_zero hzero, hlt⟩

theorem PidInv.exit {code : ℤ} (h : PidInv s) (hexit : Life.exit s code = .ok s') : PidInv s' := by
  obtain ⟨cur, -, hcases⟩ := exit_cases h.idle_pcb hexit
  have hdie : PidInv (die s cur code) :=
    h.frame (frame_die s cur code (Set.mem_univ cur)) (die_jmp s cur code ▸ h.jmp)
  rcases hcases with ⟨-, hframe, -, hjmp⟩ | ⟨waiter, call, -, -, hjmp, rfl⟩
  · exact hdie.frame hframe (hjmp ▸ h.jmp)
  · obtain ⟨i, hi⟩ := h.jmp call hjmp
    exact (hdie.frame (frame_exitResume _ (.inl (Set.mem_univ waiter))) hdie.jmp).reapFinish hi

theorem PidInv.reap (h : PidInv s) (hreap : reapStart s pid = .ok s') : PidInv s' := by
  rcases reapStart_cases hreap with ⟨-, rfl⟩ | ⟨waiter, -, -, ⟨-, -, hframe, -, hjmp⟩ | ⟨-, rfl⟩⟩
  · exact h
  · refine h.frame hframe fun call hcall => ⟨Fin.ofNat maxProcs pid, ?_⟩
    rw [← some.inj (hjmp.symm.trans hcall)]
    rfl
  · refine PidInv.reapFinish (i := Fin.ofNat maxProcs pid) ?_ rfl
    refine h.frame (D := ∅) (.of_pcb rfl rfl rfl) fun call hcall => ⟨Fin.ofNat maxProcs pid, ?_⟩
    rw [← some.inj hcall]
    rfl

theorem PidInv.step {R : Rules} {r r' : Life} (h : PidInv r.procs) (hstep : Step R r r') : PidInv r'.procs := by
  cases hstep with
  | spawn _ a => exact h.spawn a
  | exit _ hexit => exact h.exit hexit
  | reap _ hreap => exact h.reap hreap
  | other hquiet => exact h.frame hquiet.toFrame (hquiet.jmp ▸ h.jmp)

/-- A process with a pid that has not died. -/
def Live (s : Procs) (v : PcbId) : Prop := (s.pcb v).pid ≠ 0 ∧ (s.pcb v).state ≠ .dead

/-- The pids of the live processes, the bootstrap thread among them, are different. -/
def Distinct (s : Procs) : Prop := ∀ v w, Live s v → Live s w → (s.pcb v).pid = (s.pcb w).pid → v = w

/-- Only the bootstrap thread and the process in slot 1 can have the same pid. -/
theorem PidInv.distinct_iff (h : PidInv s) :
    Distinct s ↔ ¬ (Live s .bootstrap ∧ Live s (.slot 1) ∧ (s.pcb (.slot 1)).pid = 1) := by
  constructor
  · rintro hdistinct ⟨hboot, hone, hpid⟩
    exact absurd (hdistinct _ _ hboot hone (h.bootstrap.trans hpid.symm)) (by simp)
  intro hnot
  -- Against a slot the bootstrap thread loses only with slot 1.
  have hboot {i : Fin maxProcs} (hb : Live s .bootstrap) (hi : Live s (.slot i))
      (hpid : (s.pcb (.slot i)).pid = 1) : False := by
    have hslot := h.slot i hi.1
    rw [hpid] at hslot
    obtain rfl : i = 1 := Fin.ext hslot.symm
    exact hnot ⟨hb, hi, hpid⟩
  intro v w hv hw hpid
  cases v with
  | idle cpu => exact absurd (h.idle cpu) hv.1
  | bootstrap =>
    cases w with
    | idle cpu => exact absurd (h.idle cpu) hw.1
    | bootstrap => rfl
    | slot i => exact (hboot hv hw (hpid.symm.trans h.bootstrap)).elim
  | slot i =>
    cases w with
    | idle cpu => exact absurd (h.idle cpu) hw.1
    | bootstrap => exact (hboot hw hv (hpid.trans h.bootstrap)).elim
    | slot j =>
      have hi := h.slot i hv.1
      have hj := h.slot j hw.1
      rw [hpid] at hi
      rw [show i = j from Fin.ext (hi.symm.trans hj)]

/-- `sched_spawn` is about to give the pid of the bootstrap thread to a process. -/
def TakesOne (s : Procs) : Prop :=
  s.g_proc_count < maxProcs ∧ Live s .bootstrap ∧ s.g_next_pid = 1 ∧ ¬ Busy s 1

/-- The search finds slot 1 at once. -/
theorem TakesOne.spawnSlot (h : TakesOne s) : spawnSlot s = some 1 := by
  obtain ⟨hcount, -, hnext, hfree⟩ := h
  obtain ⟨fuel, hfuel⟩ : ∃ fuel, 2^32 = fuel + 1 := ⟨2^32 - 1, rfl⟩
  rw [Sched.spawnSlot, if_neg (not_le.mpr hcount), hnext, hfuel, spawnPid]
  exact if_neg hfree

/-- Pids that are different before `sched_spawn` are different after it, unless the bootstrap thread loses
its pid to the new process. -/
theorem PidInv.spawn_distinct_iff (h : PidInv s) (hdistinct : Distinct s) (a : SpawnArgs) :
    Distinct (a.run s).2 ↔ ¬ TakesOne s := by
  constructor
  · intro hafter htakes
    have hf := run_of_some (a := a) htakes.spawnSlot
    refine (h.spawn a).distinct_iff.mp hafter ⟨?_, ⟨?_, ?_⟩, hf.pid_eq⟩
    · rw [Live, hf.other _ (by simp [slotOf])]
      exact htakes.2.1
    · exact hf.pid_eq ▸ one_ne_zero
    · exact hf.state ▸ (by simp)
  · intro hnot
    cases hslot : Sched.spawnSlot s with
    | none =>
      rw [run_of_none hslot]
      exact hdistinct
    | some pid =>
      have hf := run_of_some (a := a) hslot
      refine (h.spawn a).distinct_iff.mpr ?_
      rintro ⟨hboot, hone, hpid⟩
      rw [Live, hf.other _ (by simp [slotOf])] at hboot
      by_cases hslot1 : PcbId.slot 1 = slotOf pid
      · -- The process in slot 1 is the new one.
        rw [hslot1, hf.pid_eq] at hpid
        obtain ⟨hle, -, hfree⟩ := spawnPid_range hf.search h.next.2
        have hfirst := h.next.1
        exact hnot ⟨hf.count_lt, hboot, by omega, hpid ▸ hfree⟩
      · rw [Live, hf.other _ hslot1] at hone
        rw [hf.other _ hslot1] at hpid
        exact h.distinct_iff.mp hdistinct ⟨hboot, hone, hpid⟩

/-- If nobody but an idle process has come to life, then pids that are different stay so. -/
theorem Distinct.mono (h : Distinct s) (hpids : PidInv s')
    (hlive : ∀ v, v ∉ idles → Live s' v → Live s v ∧ (s'.pcb v).pid = (s.pcb v).pid) : Distinct s' := by
  have hreal : ∀ v, Live s' v → v ∉ idles := by
    rintro v hv ⟨cpu, rfl⟩
    exact hv.1 (hpids.idle cpu)
  intro v w hv hw heq
  obtain ⟨hv', hvpid⟩ := hlive v (hreal v hv) hv
  obtain ⟨hw', hwpid⟩ := hlive w (hreal w hw) hw
  exact h v w hv' hw' (hvpid.symm.trans (heq.trans hwpid))

/-- Who is alive after steps that kill and revive nobody was alive before. -/
theorem live_of_frame (h : Frame D s s') {v : PcbId} (hv : v ∉ D) (hlive : Live s' v) :
    Live s v ∧ (s'.pcb v).pid = (s.pcb v).pid := by
  rw [Live, h.pid, Ne, Ne, h.dead v hv] at hlive
  exact ⟨hlive, h.pid v⟩

/-- Who is alive after the end of `sched_reap` was alive before. -/
theorem live_reapFinish {v : PcbId} (hlive : Live (Sched.reapFinish s call).1 v) :
    Live s v ∧ ((Sched.reapFinish s call).1.pcb v).pid = (s.pcb v).pid := by
  have hne : v ≠ call.pcb := by
    rintro rfl
    exact hlive.1 (reapFinish_pcb_self s call).1
  rw [Live, reapFinish_pcb_of_ne hne] at hlive
  exact ⟨hlive, by rw [reapFinish_pcb_of_ne hne]⟩

/-- Who is alive after the current process has died was alive before. -/
theorem live_die {code : ℤ} {v : PcbId} (hlive : Live (die s cur code) v) :
    v ≠ cur ∧ Live s v ∧ ((die s cur code).pcb v).pid = (s.pcb v).pid := by
  have hne : v ≠ cur := by
    rintro rfl
    obtain ⟨pcb, hdie, -, hdead, -⟩ := die_eq s v code
    rw [hdie] at hlive
    exact hlive.2 hdead
  exact ⟨hne, live_of_frame (frame_die s cur code (Set.mem_singleton cur)) hne hlive⟩

/-- A call of `sched_reap` that waits is by a process that is not dead and does not exit. -/
def WaiterAlive (r : Life) : Prop :=
  ∀ cur waiter, r.procs.g_current = some cur → r.procs.g_reap_jmp_active = true →
    r.procs.g_reap_waiter = some waiter → waiter ≠ cur ∧ (r.procs.pcb waiter).state ≠ .dead

/-- Calls that keep pids apart. -/
def Rules.apart : Rules := ⟨fun r => ¬ TakesOne r.procs, WaiterAlive, fun _ _ => True⟩

theorem Distinct.exit {r : Life} {code : ℤ} (h : Distinct r.procs) (hpids : PidInv r.procs)
    (hwait : r.WaiterAlive) (hexit : Life.exit r.procs code = .ok s') : Distinct s' := by
  refine h.mono (hpids.exit hexit) fun v hv hlive => ?_
  obtain ⟨cur, hcur, ⟨-, hframe, -⟩ | ⟨waiter, call, hactive, hwaiter, -, rfl⟩⟩ :=
    exit_cases hpids.idle_pcb hexit
  · obtain ⟨hdie, hpid⟩ := live_of_frame hframe hv hlive
    obtain ⟨-, hbefore, hpid'⟩ := live_die hdie
    exact ⟨hbefore, hpid.trans hpid'⟩
  · obtain ⟨hne, halive⟩ := hwait cur waiter hcur hactive hwaiter
    have hdead := (frame_die r.procs cur code (Set.mem_singleton cur)).dead waiter hne
    have hresume : Frame ∅ (die r.procs cur code) (exitResume (die r.procs cur code) waiter) :=
      frame_exitResume _ (.inr fun e => halive (hdead.mp e))
    obtain ⟨hresumed, hpid⟩ := live_reapFinish hlive
    obtain ⟨hdie, hpid'⟩ := live_of_frame hresume (Set.notMem_empty v) hresumed
    obtain ⟨-, hbefore, hpid''⟩ := live_die hdie
    exact ⟨hbefore, hpid.trans (hpid'.trans hpid'')⟩

theorem Distinct.reap (h : Distinct s) (hpids : PidInv s) (hreap : reapStart s pid = .ok s') : Distinct s' := by
  refine h.mono (hpids.reap hreap) fun v _ hlive => ?_
  rcases reapStart_cases hreap with ⟨-, rfl⟩ | ⟨waiter, -, -, ⟨-, -, hframe, -⟩ | ⟨-, rfl⟩⟩
  · exact ⟨hlive, rfl⟩
  · exact live_of_frame hframe (Set.notMem_empty v) hlive
  · exact live_reapFinish hlive

/-- What steps keep that keep pids apart. -/
theorem Distinct.step {r r' : Life} (h : Distinct r.procs ∧ PidInv r.procs)
    (hstep : Step .apart r r') : Distinct r'.procs ∧ PidInv r'.procs := by
  refine ⟨?_, h.2.step hstep⟩
  cases hstep with
  | spawn hok a => exact (h.2.spawn_distinct_iff h.1 a).mpr hok
  | exit hok hexit => exact h.1.exit h.2 hok hexit
  | reap _ hreap => exact h.1.reap h.2 hreap
  | other hquiet =>
    exact h.1.mono (h.2.step (.other (R := .any) hquiet)) fun v _ =>
      live_of_frame hquiet.toFrame (Set.notMem_empty v)

/-! ### Results of `sched_spawn` -/

/-- The pid is below `MAX_PROCS` if a slot from `g_next_pid` on is free. -/
theorem pid_lt_iff {a : SpawnArgs} (hf : Filled s a pid) (h : PidInv s) :
    pid < maxProcs ↔ ∃ i, s.g_next_pid ≤ i ∧ i < maxProcs ∧ ¬ Busy s i := by
  obtain ⟨hle, -, hfree⟩ := spawnPid_range hf.search h.next.2
  constructor
  · intro hlt
    exact ⟨pid, hle, hlt, hfree⟩
  · rintro ⟨i, hi, hlt, hfree'⟩
    exact (spawnPid_le hf.search hi (hlt.trans (by decide)) hfree').trans_lt hlt

/-- The new process is found by its pid if a slot from `g_next_pid` on is free. -/
theorem PidInv.spawn_find_iff (hpids : PidInv s) (a : SpawnArgs) (h : (a.run s).1 ≠ 0) :
    schedFind (a.run s).2 (a.run s).1 = some (slotOf (a.run s).1) ↔
      ∃ i, s.g_next_pid ≤ i ∧ i < maxProcs ∧ ¬ Busy s i := by
  cases hslot : spawnSlot s with
  | none =>
    rw [run_of_none hslot] at h
    exact absurd rfl h
  | some pid =>
    have hf := run_of_some (a := a) hslot
    have hpid : (a.run s).1 = pid := by
      have hresult := hf.result
      split_ifs at hresult
      · exact hresult
      · exact absurd hresult h
    rw [← pid_lt_iff hf hpids]
    rw [hpid] at h ⊢
    rw [schedFind]
    by_cases hlt : pid < maxProcs
    · rw [if_neg (by omega)]
      exact iff_of_true (if_pos ⟨hf.pid_eq, by rw [hf.state]; simp⟩) hlt
    · rw [if_pos (by omega)]
      exact iff_of_false (by simp) hlt

/-- `sched_spawn` finds no slot if the counter is too high or no slot is free. -/
theorem PidInv.spawnSlot_eq_none_iff (h : PidInv s) :
    spawnSlot s = none ↔ maxProcs ≤ s.g_proc_count ∨ ∀ i, Busy s i := by
  rw [spawnSlot]
  split_ifs with hcount
  · exact iff_of_true rfl (.inl hcount)
  constructor
  · intro hnone
    refine .inr fun i => ?_
    by_contra hfree
    -- The slot is one of those that the search looks at first.
    have hnext := h.next.2
    have hmod : i % maxProcs < maxProcs := mod_lt i (by decide)
    obtain ⟨k, hk⟩ : ∃ k, s.g_next_pid + k = i % maxProcs + maxProcs :=
      ⟨i % maxProcs + maxProcs - s.g_next_pid, by omega⟩
    have hfree' : ¬ Busy s (s.g_next_pid + k) := by
      rw [hk, Busy, slotOf_add, slotOf_congr (mod_mod i maxProcs)]
      exact hfree
    have hbound : s.g_next_pid + k < 2^32 ∧ k < 2^32 := by
      simp only [maxProcs] at *
      omega
    exact spawnPid_ne_none hbound.1 hfree' hbound.2 (zero_le k) hnone
  · rintro (hhigh | hbusy)
    · exact absurd hhigh hcount
    · by_contra hsome
      obtain ⟨pid, hpid⟩ := ne_none_iff_exists'.mp hsome
      exact (spawnPid_range hpid h.next.2).2.2 (hbusy pid)

/-- `sched_spawn` leaves the table and the files alone if it can find no free slot. -/
theorem PidInv.spawn_fails_iff (h : PidInv s) (a : SpawnArgs) (f : Files) :
    ((∀ i : Fin maxProcs, (a.run s).2.pcb (.slot i) = s.pcb (.slot i)) ∧
      (spawnFiles s f).refcount = f.refcount) ↔ maxProcs ≤ s.g_proc_count ∨ ∀ i, Busy s i := by
  rw [← h.spawnSlot_eq_none_iff]
  constructor
  · rintro ⟨htable, -⟩
    cases hslot : spawnSlot s with
    | none => rfl
    | some pid =>
      -- The slot was free, and now it is not.
      have hf := run_of_some (a := a) hslot
      obtain ⟨hle, -, hfree⟩ := spawnPid_range hf.search h.next.2
      have hone := h.next.1
      have hsame : (a.run s).2.pcb (slotOf pid) = s.pcb (slotOf pid) := htable _
      refine absurd ⟨?_, ?_⟩ hfree
      · rw [← hsame, hf.state]
        simp
      · rw [← hsame, hf.pid_eq]
        omega
  · intro hslot
    rw [run_of_none hslot, spawnFiles, hslot]
    exact ⟨fun _ => rfl, rfl⟩

/-! ### The counter -/

/-- The slots of the processes that were spawned and are not dead. -/
def alive (r : Life) : Finset (Fin maxProcs) :=
  r.spawned.filter fun i => (r.procs.pcb (.slot i)).state ≠ .dead

/-- The counter is right, and processes that are not dead have a pid. -/
structure CountInv (r : Life) : Prop where
  count : r.procs.g_proc_count = r.alive.card
  pid : ∀ i ∈ r.alive, (r.procs.pcb (.slot i)).pid ≠ 0

variable {r : Life} {i : Fin maxProcs}

theorem mem_alive : i ∈ r.alive ↔ i ∈ r.spawned ∧ (r.procs.pcb (.slot i)).state ≠ .dead := mem_filter

theorem CountInv.count_le (h : CountInv r) : r.procs.g_proc_count ≤ maxProcs := by
  rw [h.count]
  exact (card_le_univ r.alive).trans_eq (Fintype.card_fin maxProcs)

/-- Nobody in a slot has died. -/
theorem CountInv.frame (h : CountInv r) {s : Procs} (hframe : Frame D r.procs s)
    (hD : ∀ i : Fin maxProcs, PcbId.slot i ∉ D) (hcount : s.g_proc_count = r.procs.g_proc_count) :
    CountInv ⟨s, r.spawned⟩ := by
  have halive : alive ⟨s, r.spawned⟩ = r.alive := by
    ext i
    rw [mem_alive, mem_alive, Ne, hframe.dead _ (hD i)]
  refine ⟨by rw [halive, ← h.count, hcount], fun i hi => ?_⟩
  rw [halive] at hi
  rw [hframe.pid]
  exact h.pid i hi

/-- One process has died, and it was counted. -/
theorem CountInv.died (h : CountInv r) {s : Procs} (hi : i ∈ r.alive) (hdead : (s.pcb (.slot i)).state = .dead)
    (hother : ∀ j ≠ i, ((s.pcb (.slot j)).state = .dead ↔ (r.procs.pcb (.slot j)).state = .dead) ∧
      (s.pcb (.slot j)).pid = (r.procs.pcb (.slot j)).pid)
    (hcount : s.g_proc_count = (r.procs.g_proc_count + 2^32 - 1) % 2^32) : CountInv ⟨s, r.spawned⟩ := by
  have halive : alive ⟨s, r.spawned⟩ = r.alive.erase i := by
    ext j
    rw [mem_erase, mem_alive, mem_alive]
    by_cases hji : j = i
    · rw [hji]
      exact iff_of_false (fun h => h.2 hdead) fun h => h.1 rfl
    · rw [Ne, (hother j hji).1]
      exact (and_iff_right hji).symm
  refine ⟨?_, fun j hj => ?_⟩
  · have hpos : 0 < r.alive.card := card_pos.mpr ⟨i, hi⟩
    have hle := h.count_le
    have hcard := h.count
    rw [halive, card_erase_of_mem hi, hcount, ← hcard]
    simp only [maxProcs] at hle
    omega
  · rw [halive] at hj
    rw [(hother j (ne_of_mem_erase hj)).2]
    exact h.pid j (mem_of_mem_erase hj)

theorem CountInv.spawn (h : CountInv r) (hpids : PidInv r.procs) (a : SpawnArgs) : CountInv (r.spawn a) := by
  unfold Life.spawn
  cases hslot : spawnSlot r.procs with
  | none =>
    rw [run_of_none hslot]
    exact h
  | some pid =>
    have hf := run_of_some (a := a) hslot
    generalize hi : Fin.ofNat maxProcs pid = i
    have hself : slotOf pid = .slot i := by rw [← hi, slotOf]
    have hother {j : Fin maxProcs} (hj : j ≠ i) : (a.run r.procs).2.pcb (.slot j) = r.procs.pcb (.slot j) := by
      apply hf.other
      rw [hself]
      simpa using hj
    -- The slot was free, so its process was not counted.
    obtain ⟨hle, -, hnotBusy⟩ := spawnPid_range hf.search hpids.next.2
    have hfree : i ∉ r.alive := by
      intro hmem
      refine hnotBusy ?_
      rw [Busy, hself]
      exact ⟨(mem_alive.mp hmem).2, h.pid i hmem⟩
    have hlt := hf.count_lt
    dsimp only
    rw [hi]
    cases hk : a.kstack with
    | false =>
      have halive : alive ⟨(a.run r.procs).2, r.spawned.erase i⟩ = r.alive := by
        ext j
        rw [mem_alive, mem_alive, mem_erase]
        by_cases hji : j = i
        · rw [hji]
          exact iff_of_false (fun h => h.1.1 rfl) fun h => hfree (mem_alive.mpr h)
        · rw [hother hji, and_iff_right hji]
      rw [if_neg Bool.false_ne_true]
      refine ⟨?_, fun j hj => ?_⟩
      · rw [halive, ← h.count, hf.count, hk, if_neg Bool.false_ne_true]
      · rw [halive] at hj
        have hji : j ≠ i := fun e => hfree (e ▸ hj)
        rw [hother hji]
        exact h.pid j hj
    | true =>
      have halive : alive ⟨(a.run r.procs).2, insert i r.spawned⟩ = insert i r.alive := by
        ext j
        rw [mem_insert, mem_alive, mem_alive, mem_insert]
        by_cases hji : j = i
        · rw [hji, ← hself, hf.state]
          simp
        · rw [hother hji]
          simp [hji]
      rw [if_pos rfl]
      refine ⟨?_, fun j hj => ?_⟩
      · rw [halive, card_insert_of_notMem hfree, ← h.count, hf.count, hk, if_pos rfl]
        exact mod_eq_of_lt (by simp only [maxProcs] at hlt; omega)
      rw [halive, mem_insert] at hj
      by_cases hji : j = i
      · have hone := hpids.next.1
        rw [hji, ← hself, hf.pid_eq]
        omega
      · rw [hother hji]
        exact h.pid j (hj.resolve_left hji)

/-- A process exits that was spawned and is not dead, and a call of `sched_reap` that waits is one for it, by
another process that is not dead. -/
def OrderlyExit (r : Life) : Prop :=
  ∃ i ∈ r.alive, r.procs.g_current = some (.slot i) ∧
    ∀ waiter call, r.procs.g_reap_jmp_active = true → r.procs.g_reap_waiter = some waiter →
      r.procs.g_reap_jmp = some call →
      call.pcb = .slot i ∧ waiter ≠ .slot i ∧ (r.procs.pcb waiter).state ≠ .dead

/-- `sched_reap` is for a process that can run, or for none. -/
def OrderlyReap (r : Life) (pid : ℕ) : Prop :=
  ∀ p, schedFind r.procs pid = some p → (r.procs.pcb p).state = .ready ∧ (r.procs.pcb p).rip ≠ 0

/-- Orderly calls. -/
def Rules.orderly : Rules := ⟨fun _ => True, OrderlyExit, OrderlyReap⟩

theorem CountInv.exit {code : ℤ} {s : Procs} (h : CountInv r) (hpids : PidInv r.procs)
    (horderly : r.OrderlyExit) (hexit : Life.exit r.procs code = .ok s) : CountInv ⟨s, r.spawned⟩ := by
  obtain ⟨i, hi, hcur, hwait⟩ := horderly
  obtain ⟨cur, hcur', hcases⟩ := exit_cases hpids.idle_pcb hexit
  obtain rfl := some.inj (hcur'.symm.trans hcur)
  have hcount := die_count r.procs (.slot i) code
  have hdead : ((die r.procs (.slot i) code).pcb (.slot i)).state = .dead := by
    obtain ⟨pcb, hdie, -, hdead, -⟩ := die_eq r.procs (.slot i) code
    rw [hdie]
    exact hdead
  have hdie := frame_die r.procs (.slot i) code (Set.mem_singleton (PcbId.slot i))
  generalize die r.procs (.slot i) code = s₁ at *
  have hslot {j : Fin maxProcs} (hj : j ≠ i) : PcbId.slot j ≠ .slot i := by simpa using hj
  rcases hcases with ⟨-, hframe, hcount', -⟩ | ⟨waiter, call, hactive, hwaiter, hjmp, rfl⟩
  · have hnotIdle (j : Fin maxProcs) : PcbId.slot j ∉ idles := by simp [idles]
    refine h.died hi ((hframe.dead _ (hnotIdle i)).mpr hdead) (fun j hj => ?_) (hcount'.trans hcount)
    rw [hframe.dead _ (hnotIdle j), hframe.pid, hdie.dead _ (hslot hj), hdie.pid]
    exact ⟨Iff.rfl, rfl⟩
  · obtain ⟨hcall, hne, halive⟩ := hwait waiter call hactive hwaiter hjmp
    have hresume : Frame ∅ s₁ (exitResume s₁ waiter) :=
      frame_exitResume _ (.inr fun e => halive ((hdie.dead _ hne).mp e))
    obtain ⟨-, -, hcount', -⟩ := reapFinish_globals (exitResume s₁ waiter) call
    refine h.died hi (hcall ▸ (reapFinish_pcb_self _ call).2) (fun j hj => ?_) (hcount'.trans hcount)
    rw [reapFinish_pcb_of_ne (hcall ▸ hslot hj), hresume.dead _ (Set.notMem_empty _), hresume.pid,
      hdie.dead _ (hslot hj), hdie.pid]
    exact ⟨Iff.rfl, rfl⟩

theorem CountInv.reap {s : Procs} (h : CountInv r) (horderly : r.OrderlyReap pid)
    (hreap : reapStart r.procs pid = .ok s) : CountInv ⟨s, r.spawned⟩ := by
  rcases reapStart_cases hreap with ⟨-, rfl⟩ | ⟨waiter, hfind, -, ⟨-, -, hframe, hcount, -⟩ | ⟨hnot, -⟩⟩
  · exact h
  · exact h.frame hframe (fun _ => Set.notMem_empty _) hcount
  · exact absurd (horderly _ hfind) hnot

/-- What orderly steps keep. -/
theorem CountInv.step {r r' : Life} (h : CountInv r ∧ PidInv r.procs) (hstep : Step .orderly r r') :
    CountInv r' ∧ PidInv r'.procs := by
  refine ⟨?_, h.2.step hstep⟩
  cases hstep with
  | spawn _ a => exact h.1.spawn h.2 a
  | exit horderly hexit => exact h.1.exit h.2 horderly hexit
  | reap horderly hreap => exact h.1.reap horderly hreap
  | other hquiet => exact h.1.frame hquiet.toFrame (fun _ => Set.notMem_empty _) hquiet.count

theorem CountInv.start (cpu_count idle_fn : ℕ) : CountInv (start cpu_count idle_fn) :=
  ⟨rfl, fun _ hi => absurd (mem_alive.mp hi).1 (notMem_empty _)⟩

/-- In every state of a run: if the pids of the live processes are different, as they are at the start,
then after a call of `sched_spawn` they are so if and only if it does not give pid 1 away while the
bootstrap thread lives, and they stay so in every run whose calls keep them apart. The search of
`sched_spawn` ends. A pid that it returns is found if and only if a slot from `g_next_pid` on is free. If
it returns 0, it leaves the table and the reference counts alone if and only if the counter is too high or
no slot is free. The counter is the number of spawned processes that are not dead, if all calls before
were orderly. -/
theorem process_ids_of_run {cpu_count idle_fn : ℕ} {r : Life}
    (hrun : Relation.ReflTransGen (Step .any) (start cpu_count idle_fn) r) :
    Distinct (start cpu_count idle_fn).procs ∧
    (Distinct r.procs →
      (∀ a : SpawnArgs, Distinct (a.run r.procs).2 ↔ ¬ TakesOne r.procs) ∧
      ∀ r', Relation.ReflTransGen (Step .apart) r r' → Distinct r'.procs) ∧
    (¬ ∃ f : ℕ → ℕ, f 0 = r.procs.g_next_pid ∧ ∀ j, Busy r.procs (f j) ∧
      f (j + 1) = (f j + 1) % 2^32 ∧ f (j + 1) ≠ r.procs.g_next_pid) ∧
    (∀ a : SpawnArgs, (a.run r.procs).1 ≠ 0 →
      (schedFind (a.run r.procs).2 (a.run r.procs).1 = some (slotOf (a.run r.procs).1) ↔
        ∃ i, r.procs.g_next_pid ≤ i ∧ i < maxProcs ∧ ¬ Busy r.procs i)) ∧
    (∀ (a : SpawnArgs) (f : Files), (a.run r.procs).1 = 0 →
      (((∀ i : Fin maxProcs, (a.run r.procs).2.pcb (.slot i) = r.procs.pcb (.slot i)) ∧
        (spawnFiles r.procs f).refcount = f.refcount) ↔
        maxProcs ≤ r.procs.g_proc_count ∨ ∀ i, Busy r.procs i)) ∧
    (Relation.ReflTransGen (Step .orderly) (start cpu_count idle_fn) r →
      r.procs.g_proc_count = r.alive.card) := by
  have hpids : PidInv r.procs :=
    Runs.invariant (P := fun r => PidInv r.procs) hrun (.start ..) fun _ _ => PidInv.step
  have hstart : Distinct (start cpu_count idle_fn).procs :=
    (PidInv.start cpu_count idle_fn).distinct_iff.mpr fun h => h.2.1.1 rfl
  refine ⟨hstart, fun hdistinct => ⟨hpids.spawn_distinct_iff hdistinct, fun r' happart => ?_⟩,
    search_terminates _ (hpids.next.2.trans (by decide)), fun a ha => hpids.spawn_find_iff a ha,
    fun a f _ => hpids.spawn_fails_iff a f, fun horderly => ?_⟩
  · have hboth := Runs.invariant (P := fun r => Distinct r.procs ∧ PidInv r.procs) happart
      ⟨hdistinct, hpids⟩ fun _ _ => Distinct.step
    exact hboth.1
  · have hboth := Runs.invariant (P := fun r => CountInv r ∧ PidInv r.procs) horderly
      ⟨.start .., .start ..⟩ fun _ _ => CountInv.step
    exact hboth.1.count

/-- The first process. -/
def firstProcess : Life := (start 1 0).spawn ⟨schedBatch, 0, 0, true⟩

/-- After the first `sched_spawn` the counter is 1, and a second process is found by its pid. -/
theorem process_ids_of_run_first :
    firstProcess.procs.g_proc_count = firstProcess.alive.card ∧
      schedFind ((⟨schedBatch, 0, 0, true⟩ : SpawnArgs).run firstProcess.procs).2 2 = some (slotOf 2) := by
  obtain ⟨-, -, -, hfind, -, hcount⟩ := process_ids_of_run (.single (.spawn (r := start 1 0) trivial _))
  have htwo : ((⟨schedBatch, 0, 0, true⟩ : SpawnArgs).run firstProcess.procs).1 = 2 := by decide +kernel
  have hfree : ∃ i, firstProcess.procs.g_next_pid ≤ i ∧ i < maxProcs ∧ ¬ Busy firstProcess.procs i := by
    refine ⟨2, ?_⟩
    unfold Busy
    decide +kernel
  refine ⟨hcount (.single (.spawn trivial _)), ?_⟩
  have hfound := (hfind ⟨schedBatch, 0, 0, true⟩ (htwo.trans_ne two_ne_zero)).mpr hfree
  exact htwo ▸ hfound

/-- The first process has the pid of the bootstrap thread. -/
theorem first_pid_taken :
    ((start 1 0).procs.pcb .bootstrap).pid = 1 ∧
      ((⟨schedBatch, 0, 0, true⟩ : SpawnArgs).run (start 1 0).procs).1 = 1 ∧
      ¬ Distinct firstProcess.procs := by
  have hone : Live firstProcess.procs (.slot 1) ∧ (firstProcess.procs.pcb (.slot 1)).pid = 1 := by
    unfold Live
    decide +kernel
  have hboot : Live firstProcess.procs .bootstrap ∧ (firstProcess.procs.pcb .bootstrap).pid = 1 := by
    unfold Live
    decide +kernel
  refine ⟨rfl, by decide +kernel, fun hdistinct => ?_⟩
  exact absurd (hdistinct _ _ hone.1 hboot.1 (hone.2.trans hboot.2.symm)) (by simp)

end Life

end FreeAsd.Sched
