import FreeAsd.Sched.RunQueueRuns

/-!
# Exit status

What `sched_reap` returns for a child. The status gets lost if the child exits before its parent waits
(`exit_before_reap`), is not ready then, or has a pid of `MAX_PROCS` or more, and if another process exits
while the parent waits. Otherwise it arrives (`exit_status`).
-/

namespace FreeAsd.Sched

open Function Relation List

variable {s s' : Procs} {p cur waiter : PcbId} {pid : ℕ} {code : ℤ} {call : ReapCall}

/-! ## The search for a slot -/

/-- A slot that `sched_spawn` passes by. -/
def Busy (s : Procs) (pid : ℕ) : Prop := (s.pcb (slotOf pid)).state ≠ .dead ∧ (s.pcb (slotOf pid)).pid ≠ 0

/-- The slot of a pid is given by its remainder. -/
theorem slotOf_congr {pid pid' : ℕ} (h : pid % maxProcs = pid' % maxProcs) : slotOf pid = slotOf pid' := by
  have hfin : Fin.ofNat maxProcs pid = Fin.ofNat maxProcs pid' := Fin.ext h
  rw [slotOf, slotOf, hfin]

/-- Pids wrap at 32 bits, and keep their slot. -/
theorem slotOf_mod (pid : ℕ) : slotOf (pid % 2^32) = slotOf pid :=
  slotOf_congr (Nat.mod_mod_of_dvd pid (by decide))

/-- The search stops at the first free slot. -/
theorem spawnPid_first {fuel n : ℕ} (h : spawnPid s fuel n = some pid) (hn : n < 2^32) :
    ∃ k, pid = (n + k) % 2^32 ∧ ¬ Busy s pid ∧ ∀ j < k, Busy s (n + j) := by
  induction fuel generalizing n with
  | zero => exact nomatch h
  | succ fuel ih =>
    unfold spawnPid at h
    dsimp only at h
    split_ifs at h with hbusy hround
    · obtain ⟨k, hk, hfree, hbefore⟩ := ih h (Nat.mod_lt _ (by decide))
      refine ⟨k + 1, ?_, hfree, fun j hj => ?_⟩
      · rw [hk, Nat.mod_add_mod]
        congr 1
        omega
      · cases j with
        | zero => exact hbusy
        | succ j =>
          have hj' := hbefore j (by omega)
          unfold Busy at hj' ⊢
          rwa [← slotOf_mod, Nat.mod_add_mod, slotOf_mod, Nat.add_assoc, Nat.add_comm 1 j] at hj'
    · cases h
      exact ⟨0, (Nat.mod_eq_of_lt hn).symm, hbusy, fun j hj => absurd hj (Nat.not_lt_zero j)⟩

/-- If a slot from the first pid on is free, then the search does not go beyond it. -/
theorem spawnPid_le {fuel n i : ℕ} (h : spawnPid s fuel n = some pid) (hi : n ≤ i) (hlt : i < 2^32)
    (hfree : ¬ Busy s i) : pid ≤ i := by
  obtain ⟨k, rfl, -, hbefore⟩ := spawnPid_first h (by omega)
  have hk : n + k ≤ i := by
    by_contra hk
    have hbusy := hbefore (i - n) (by omega)
    rw [Nat.add_sub_cancel' hi] at hbusy
    exact hfree hbusy
  exact Nat.le_trans (Nat.mod_le _ _) hk

/-! ## The calls -/

theorem bind_eq_ok {α β : Type} {x : Except Fault α} {f : α → Except Fault β} {b : β}
    (h : x >>= f = .ok b) : ∃ a, x = .ok a ∧ f a = .ok b := by
  cases x with
  | error e => exact nomatch h
  | ok a => exact ⟨a, rfl, h⟩

/-- A process that `sched_find` returns is in a slot. -/
theorem schedFind_slot (h : schedFind s pid = some p) :
    p = slotOf pid ∧ pid ≠ 0 ∧ (s.pcb p).pid = pid ∧ (s.pcb p).state ≠ .dead := by
  unfold schedFind at h
  dsimp only at h
  split_ifs at h with hrange hfound
  cases h
  exact ⟨rfl, fun e => hrange (.inl e), hfound.1, hfound.2⟩

/-- The take-off step changes nothing but the run queues. -/
theorem reapTakeoff_ok (h : reapTakeoff s p = .ok s') :
    ∃ links runq, s' = { s with links := links, runq := runq } := by
  obtain ⟨s₁, hlock, h⟩ := bind_eq_ok h
  obtain ⟨s₂, htake, h⟩ := bind_eq_ok h
  have h₁ : ∃ runq, s₁ = { s with runq := runq } := by
    unfold Procs.lock at hlock
    split_ifs at hlock
    exact ⟨_, (Except.ok.inj hlock).symm⟩
  have h₂ : ∃ links runq, s₂ = { s₁ with links := links, runq := runq } := by
    unfold schedTakeoffRunqLocked at htake
    dsimp only at htake
    split_ifs at htake
    · cases htake
      exact ⟨_, _, rfl⟩
    · cases htake
      exact ⟨_, _, rfl⟩
    · obtain ⟨s₃, hremove, h₃⟩ := bind_eq_ok htake
      unfold Procs.remove at hremove
      cases ht : rbRemoveNode Procs.nodeFuel (s₁.tree 0 (queueOf (s₁.pcb p).sched_class)) p with
      | none =>
        rw [ht] at hremove
        exact nomatch hremove
      | some t =>
        rw [ht] at hremove
        cases hremove
        cases h₃
        exact ⟨_, _, rfl⟩
    · cases htake
      exact ⟨_, _, rfl⟩
  obtain ⟨runq₁, rfl⟩ := h₁
  obtain ⟨links₂, runq₂, rfl⟩ := h₂
  exact ⟨links₂, _, (Except.ok.inj h).symm⟩

/-- The call of `sched_reap` for a process. -/
def reapCall (s : Procs) (p waiter : PcbId) : ReapCall :=
  ⟨p, waiter, (s.pcb p).sched_class, (s.pcb p).priority⟩

/-- What `sched_exit` does to the processes. -/
theorem die_eq (s : Procs) (cur : PcbId) (code : ℤ) : ∃ pcb,
    die s cur code = { s with pcb := pcb, g_proc_count := (s.g_proc_count + 2^32 - 1) % 2^32 } ∧
    (∀ v, (pcb v).pid = (s.pcb v).pid ∧ (v ≠ cur → (pcb v).state = (s.pcb v).state)) ∧
    (pcb cur).state = .dead ∧ (pcb cur).exit_code = code := by
  -- The notice to the parent changes no more than the signals of one process.
  have hnotify : ∃ pcb, notifyParent s cur = { s with pcb := pcb } ∧
      ∀ v, (pcb v).pid = (s.pcb v).pid ∧ (pcb v).state = (s.pcb v).state := by
    unfold notifyParent
    split_ifs
    · cases schedFind s (s.pcb cur).ppid with
      | none => exact ⟨s.pcb, rfl, fun _ => ⟨rfl, rfl⟩⟩
      | some parent =>
        refine ⟨_, rfl, fun v => ?_⟩
        by_cases e : v = parent
        · subst e
          simp
        · rw [update_of_ne e]
          exact ⟨rfl, rfl⟩
    · exact ⟨s.pcb, rfl, fun _ => ⟨rfl, rfl⟩⟩
  obtain ⟨pcb, hnotify, hpcb⟩ := hnotify
  refine ⟨update pcb cur { pcb cur with exit_code := code, state := .dead }, ?_, fun v => ?_, ?_, ?_⟩
  · unfold die
    rw [hnotify]
    rfl
  · by_cases e : v = cur
    · subst e
      simp [hpcb v]
    · rw [update_of_ne e]
      exact ⟨(hpcb v).1, fun _ => (hpcb v).2⟩
  · simp
  · simp

/-- `sched_exit` goes back to the call that waits. -/
theorem schedExit_resume (hcur : s.g_current = some cur) (hactive : s.g_reap_jmp_active = true)
    (hwaiter : s.g_reap_waiter = some waiter) (hjmp : s.g_reap_jmp = some call) :
    schedExit s code = .ok (exitResume (die s cur code) waiter, .reap call) := by
  obtain ⟨pcb, hdie, -⟩ := die_eq s cur code
  unfold schedExit
  rw [hcur]
  dsimp only
  rw [hdie]
  rw [hactive, hwaiter, hjmp]

/-- The call returns the code if it waits for the process that exits. -/
theorem reapFinish_code (hne : waiter ≠ cur) (hcall : call.pcb = cur) :
    (reapFinish (exitResume (die s cur code) waiter) call).2 = code := by
  obtain ⟨pcb, hdie, -, hdead, hcode⟩ := die_eq s cur code
  have hpcb : (exitResume (die s cur code) waiter).pcb cur = pcb cur := by
    rw [hdie]
    exact update_of_ne hne.symm _ _
  rw [reapFinish_eq]
  rw [hcall, hpcb, if_pos hdead, hcode]

/-! ## Runs -/

/-- The processes, the children that were spawned and not reaped yet, each with its parent, and the wait
that is open. -/
structure Family where
  procs : Procs
  children : List (PcbId × ℕ)
  waiting : Option (PcbId × ℕ)

namespace Family

/-- `sched_spawn` by the current process. -/
def spawn (r : Family) (sched_class : ℕ) (priority : ℤ) (cpu_affinity : ℕ) (kstack : Bool) : Family :=
  let (pid, s) := schedSpawn r.procs sched_class priority cpu_affinity kstack
  match r.procs.g_current with
  | some parent => { r with procs := s, children := if pid = 0 then r.children else (parent, pid) :: r.children }
  | none => { r with procs := s }

/-- A call of `sched_reap` returns. -/
def finish (r : Family) (s : Procs) (call : ReapCall) : Family where
  procs := (reapFinish s call).1
  children := r.children.filter fun child => slotOf child.2 ≠ call.pcb
  waiting := none

/-- `sched_reap` by the current process. -/
def reap (r : Family) (pid : ℕ) : Except Fault Family := do
  match ← schedReap r.procs pid with
  | .notFound => return r
  | .running s => return { r with procs := s, waiting := r.procs.g_current.map fun parent => (parent, pid) }
  | .immediate s call => return r.finish s call

/-- `sched_exit` by the current process. -/
def exit (r : Family) (code : ℤ) : Except Fault Family := do
  match ← schedExit r.procs code with
  | (s, .reap call) => return r.finish s call
  | (s, .process _) => return { r with procs := s }

/-- The rest of the kernel does not touch the children's pids, lets none of them die, and leaves the
globals of `sched_reap` alone. -/
structure Undisturbed (r : Family) (s : Procs) : Prop where
  child : ∀ child ∈ r.children, (s.pcb (slotOf child.2)).pid = (r.procs.pcb (slotOf child.2)).pid ∧
    ((s.pcb (slotOf child.2)).state = .dead ↔ (r.procs.pcb (slotOf child.2)).state = .dead)
  waiter : s.g_reap_waiter = r.procs.g_reap_waiter
  jmp : s.g_reap_jmp = r.procs.g_reap_jmp
  active : s.g_reap_jmp_active = r.procs.g_reap_jmp_active

/-- A step of a family, with nothing assumed. -/
inductive Step : Family → Family → Prop
  | spawn (r : Family) (sched_class : ℕ) (priority : ℤ) (cpu_affinity : ℕ) (kstack : Bool) :
      Step r (r.spawn sched_class priority cpu_affinity kstack)
  | reap {r r' : Family} (pid : ℕ) (h : r.reap pid = .ok r') : Step r r'
  | exit {r r' : Family} (code : ℤ) (h : r.exit code = .ok r') : Step r r'
  | other (r : Family) (s : Procs) (h : r.Undisturbed s) : Step r { r with procs := s }

/-- The current process may call `sched_spawn`: it is alive, and if there is a slot for the child, then there
is one from `g_next_pid` on, so that the pid can be found. -/
structure MaySpawn (r : Family) (sched_class : ℕ) (priority : ℤ) (cpu_affinity : ℕ) (kstack : Bool) : Prop where
  alive : ∀ p, r.procs.g_current = some p → (r.procs.pcb p).state ≠ .dead ∧
    ((r.procs.pcb p).pid = 0 → ∀ pid, p ≠ slotOf pid)
  pid : kstack = true → r.procs.g_proc_count < maxProcs → (∃ i, ¬ Busy r.procs i) →
    ∃ i, r.procs.g_next_pid ≤ i ∧ i < maxProcs ∧ ¬ Busy r.procs i

/-- The current process may call `sched_reap`: the child is its own and can run, nobody else waits, and
the run queues are in order. -/
structure MayReap (r : Family) (pid : ℕ) : Prop where
  child : ∃ parent, r.procs.g_current = some parent ∧ (parent, pid) ∈ r.children
  ready : (r.procs.pcb (slotOf pid)).state = .ready
  rip : (r.procs.pcb (slotOf pid)).rip ≠ 0
  alone : r.waiting = none
  inv : r.procs.Inv
  cpu : r.procs.Queued (slotOf pid) → (r.procs.pcb (slotOf pid)).cpu = 0

/-- The current process may call `sched_exit`: its parent waits for it. -/
def MayExit (r : Family) : Prop :=
  ∃ parent pid, r.waiting = some (parent, pid) ∧ r.procs.g_current = some (slotOf pid)

/-- A step of a family whose calls meet these conditions. -/
inductive OrderlyStep : Family → Family → Prop
  | spawn {r : Family} {sched_class : ℕ} {priority : ℤ} {cpu_affinity : ℕ} {kstack : Bool}
      (hmay : r.MaySpawn sched_class priority cpu_affinity kstack) :
      OrderlyStep r (r.spawn sched_class priority cpu_affinity kstack)
  | reap {r r' : Family} {pid : ℕ} (hmay : r.MayReap pid) (h : r.reap pid = .ok r') : OrderlyStep r r'
  | exit {r r' : Family} {code : ℤ} (hmay : r.MayExit) (h : r.exit code = .ok r') : OrderlyStep r r'
  | other (r : Family) (s : Procs) (h : r.Undisturbed s) : OrderlyStep r { r with procs := s }

/-- A child in the table. -/
structure Child (s : Procs) (parent : PcbId) (pid : ℕ) : Prop where
  pos : 0 < pid
  lt : pid < maxProcs
  pid_eq : (s.pcb (slotOf pid)).pid = pid
  alive : (s.pcb (slotOf pid)).state ≠ .dead
  ne : parent ≠ slotOf pid

/-- The children are in the table, and an open wait is the one that `sched_exit` goes back to. -/
structure Inv (r : Family) : Prop where
  child : ∀ parent pid, (parent, pid) ∈ r.children → Child r.procs parent pid
  waiting : ∀ parent pid, r.waiting = some (parent, pid) → (parent, pid) ∈ r.children ∧
    r.procs.g_reap_jmp_active = true ∧ r.procs.g_reap_waiter = some parent ∧
    ∃ call, r.procs.g_reap_jmp = some call ∧ call.pcb = slotOf pid ∧ call.waiter = parent

variable {r r' : Family} {parent : PcbId}

theorem Child.find (h : Child s parent pid) : schedFind s pid = some (slotOf pid) := by
  have hrange : ¬(pid = 0 ∨ pid ≥ maxProcs) := by
    have hpos := h.pos
    have hlt := h.lt
    omega
  unfold schedFind
  rw [if_neg hrange]
  exact if_pos ⟨h.pid_eq, h.alive⟩

/-- The loop of `sched_spawn` stops at a slot that is free. -/
theorem spawnPid_spec (s : Procs) (fuel pid pid' : ℕ) (h : spawnPid s fuel pid = some pid') :
    ¬ Busy s pid' := by
  induction fuel generalizing pid with
  | zero => exact nomatch h
  | succ fuel ih =>
    unfold spawnPid at h
    dsimp only at h
    split_ifs at h with htaken hround
    · exact ih _ h
    · cases h
      exact htaken

section

variable (h : Child s parent pid)

include h

/-- It is not the slot of a child. -/
theorem Child.slot_ne {fuel first pid' : ℕ} (hspawn : spawnPid s fuel first = some pid') :
    slotOf pid' ≠ slotOf pid := by
  intro e
  refine spawnPid_spec s fuel first pid' hspawn ?_
  rw [Busy, e, h.pid_eq]
  exact ⟨h.alive, Nat.ne_of_gt h.pos⟩

theorem Child.congr (hpid : (s'.pcb (slotOf pid)).pid = (s.pcb (slotOf pid)).pid)
    (hstate : (s'.pcb (slotOf pid)).state ≠ .dead) : Child s' parent pid :=
  ⟨h.pos, h.lt, hpid.trans h.pid_eq, hstate, h.ne⟩

/-- Another process is written. -/
theorem Child.setPcb_of_ne (hne : slotOf pid ≠ p) (pcb : Pcb) : Child (s.setPcb p pcb) parent pid := by
  refine h.congr ?_ ?_ <;> rw [s.pcb_setPcb_of_ne hne]
  exact h.alive

/-- Any process is written, and it keeps its pid and is alive. -/
theorem Child.setPcb {pcb : Pcb} (hpid : pcb.pid = (s.pcb p).pid) (hstate : pcb.state ≠ .dead) :
    Child (s.setPcb p pcb) parent pid := by
  by_cases e : slotOf pid = p
  · subst e
    refine h.congr ?_ ?_ <;> rw [s.pcb_setPcb_self]
    · exact hpid
    · exact hstate
  · exact h.setPcb_of_ne e pcb

end

section

variable (h : r.Inv)

include h

theorem Inv.spawn {sched_class cpu_affinity : ℕ} {priority : ℤ} {kstack : Bool}
    (hmay : r.MaySpawn sched_class priority cpu_affinity kstack) :
    (r.spawn sched_class priority cpu_affinity kstack).Inv := by
  obtain ⟨halive, hroom⟩ := hmay
  unfold Family.spawn
  obtain ⟨-, hs⟩ | ⟨pid, pcb, links, hcount, hpid, ⟨hself, hstate⟩, -, -, hs⟩ :=
    schedSpawn_cases r.procs sched_class priority cpu_affinity kstack
  · rw [hs]
    cases r.procs.g_current with
    | none => exact h
    | some parent => exact h
  · generalize schedSpawn r.procs sched_class priority cpu_affinity kstack = res at *
    obtain ⟨ret, s⟩ := res
    obtain ⟨hret, hs⟩ := Prod.mk.inj hs
    have hpcb : s.pcb = update r.procs.pcb (slotOf pid) pcb := by rw [hs]
    have hold : ∀ parent' pid', (parent', pid') ∈ r.children → Child s parent' pid' := by
      intro parent' pid' hchild
      have hc := h.child parent' pid' hchild
      have hne : slotOf pid' ≠ slotOf pid := (hc.slot_ne hpid).symm
      refine hc.congr ?_ ?_ <;> rw [hpcb, update_of_ne hne]
      exact hc.alive
    have hwait : ∀ children : List (PcbId × ℕ), (∀ child ∈ r.children, child ∈ children) →
        ∀ parent' pid', r.waiting = some (parent', pid') → (parent', pid') ∈ children ∧
          s.g_reap_jmp_active = true ∧ s.g_reap_waiter = some parent' ∧
          ∃ call, s.g_reap_jmp = some call ∧ call.pcb = slotOf pid' ∧ call.waiter = parent' := by
      intro children hsub parent' pid' hw
      obtain ⟨hmem, hglobals⟩ := h.waiting parent' pid' hw
      rw [hs]
      exact ⟨hsub _ hmem, hglobals⟩
    cases hcur : r.procs.g_current with
    | none => exact ⟨hold, hwait _ fun _ hc => hc⟩
    | some parent =>
      dsimp only
      split_ifs with hzero
      · exact ⟨hold, hwait _ fun _ hc => hc⟩
      refine ⟨fun parent' pid' hchild => ?_, hwait _ fun _ hc => mem_cons_of_mem _ hc⟩
      rcases mem_cons.mp hchild with e | hchild
      · -- The new child: the slot was free, and the parent is alive.
        obtain ⟨rfl, rfl⟩ := Prod.mk.inj e
        obtain ⟨hk, rfl⟩ : kstack = true ∧ pid' = pid := by
          split_ifs at hret with hk
          · exact ⟨hk, hret⟩
          · exact absurd hret hzero
        have hfree := spawnPid_spec _ _ _ _ hpid
        obtain ⟨i, hi, hlt, hfree'⟩ := hroom hk hcount ⟨pid', hfree⟩
        have hlt' : pid' < maxProcs :=
          Nat.lt_of_le_of_lt (spawnPid_le hpid hi (Nat.lt_trans hlt (by decide)) hfree') hlt
        have hslot : s.pcb (slotOf pid') = pcb := by rw [hpcb, update_self]
        refine ⟨Nat.pos_of_ne_zero hzero, hlt', hslot ▸ hself, by rw [hslot, hstate]; nofun, fun e => ?_⟩
        obtain ⟨hdead, hpid0⟩ := halive _ hcur
        rw [e] at hdead hpid0
        exact hfree ⟨hdead, fun hzero => hpid0 hzero pid' rfl⟩
      · exact hold parent' pid' hchild

/-- `sched_reap` goes over to a child that can run. -/
theorem reap_eq (hmay : r.MayReap pid) : ∃ parent links runq,
    r.procs.g_current = some parent ∧ (parent, pid) ∈ r.children ∧
    schedReap r.procs pid = .ok (.running (reapEnter { reapWait r.procs (reapCall r.procs (slotOf pid) parent) with
      links := links, runq := runq } (slotOf pid))) := by
  obtain ⟨parent, hcur, hchild⟩ := hmay.child
  have hwait : (reapWait r.procs (reapCall r.procs (slotOf pid) parent)).Inv := hmay.inv.congr rfl rfl rfl rfl
  obtain ⟨s', htake, -⟩ := reapTakeoff_spec hwait hmay.cpu
  obtain ⟨links, runq, rfl⟩ := reapTakeoff_ok htake
  refine ⟨parent, links, runq, hcur, hchild, ?_⟩
  unfold schedReap
  rw [(h.child parent pid hchild).find, hcur]
  dsimp only
  rw [if_pos ⟨hmay.ready, hmay.rip⟩]
  exact bind_of_ok htake _

theorem Inv.reap (hmay : r.MayReap pid) (hr : r.reap pid = .ok r') : r'.Inv := by
  obtain ⟨parent, links, runq, hcur, hchild, hreap⟩ := reap_eq h hmay
  have hr' := (bind_of_ok hreap _).symm.trans hr
  cases hr'
  refine ⟨fun parent' pid' hchild' => ?_, fun parent' pid' hwaiting => ?_⟩
  · have hc := h.child parent' pid' hchild'
    have hc' : Child (r.procs.setPcb (slotOf pid) { r.procs.pcb (slotOf pid) with
        sched_class := 0, priority := 0, state := .run }) parent' pid' := hc.setPcb rfl nofun
    exact hc'.congr rfl hc'.alive
  · rw [hcur] at hwaiting
    cases hwaiting
    exact ⟨hchild, rfl, rfl, _, rfl, rfl, rfl⟩

/-- The call of `sched_exit` returns to the call of `sched_reap`. -/
theorem exit_eq (hwaiting : r.waiting = some (parent, pid))
    (hcur : r.procs.g_current = some (slotOf pid)) (code : ℤ) : ∃ call,
    schedExit r.procs code = .ok (exitResume (die r.procs (slotOf pid) code) parent, .reap call) ∧
    call.pcb = slotOf pid ∧ call.waiter = parent := by
  obtain ⟨-, hactive, hwaiter, call, hjmp, hpcb, hcall⟩ := h.waiting parent pid hwaiting
  exact ⟨call, schedExit_resume hcur hactive hwaiter hjmp, hpcb, hcall⟩

theorem Inv.exit (hmay : r.MayExit) (hr : r.exit code = .ok r') : r'.Inv := by
  obtain ⟨parent, pid, hwaiting, hcur⟩ := hmay
  obtain ⟨call, hexit, hpcb, -⟩ := exit_eq h hwaiting hcur code
  have hr' := (bind_of_ok hexit _).symm.trans hr
  cases hr'
  refine ⟨fun parent' pid' hchild => ?_, nofun⟩
  obtain ⟨hmem, hslot⟩ := mem_filter.mp hchild
  have hne : slotOf pid' ≠ slotOf pid := hpcb ▸ of_decide_eq_true hslot
  have hc := h.child parent' pid' hmem
  obtain ⟨pcb, hdie, hkeep, -⟩ := die_eq r.procs (slotOf pid) code
  -- The other children survive the exit, the return to the parent and the end of `sched_reap`.
  have hc₁ : Child (die r.procs (slotOf pid) code) parent' pid' := by
    rw [hdie]
    exact hc.congr (hkeep _).1 (by rw [(hkeep _).2 hne]; exact hc.alive)
  have hc₂ : Child ((die r.procs (slotOf pid) code).setPcb parent
      { (die r.procs (slotOf pid) code).pcb parent with state := .run }) parent' pid' := hc₁.setPcb rfl nofun
  have hc₃ : Child (exitResume (die r.procs (slotOf pid) code) parent) parent' pid' := hc₂.congr rfl hc₂.alive
  unfold finish
  rw [reapFinish_eq]
  have hc₄ := hc₃.setPcb_of_ne (hpcb ▸ hne)
  exact (hc₄ _).congr rfl (hc₄ _).alive

theorem Inv.other (hs : r.Undisturbed s) : Inv { r with procs := s } := by
  constructor
  · intro parent pid hchild
    have hc := h.child parent pid hchild
    obtain ⟨hpid, hdead⟩ := hs.child (parent, pid) hchild
    exact hc.congr hpid fun e => hc.alive (hdead.mp e)
  · intro parent pid hwaiting
    obtain ⟨hchild, hactive, hwaiter, hjmp⟩ := h.waiting parent pid hwaiting
    rw [hs.active, hs.waiter, hs.jmp]
    exact ⟨hchild, hactive, hwaiter, hjmp⟩

theorem Inv.step (hs : OrderlyStep r r') : r'.Inv := by
  cases hs with
  | spawn hmay => exact h.spawn hmay
  | reap hmay hr => exact h.reap hmay hr
  | exit hmay hr => exact h.exit hmay hr
  | other s hs => exact h.other hs

end

/-- The processes after the start of the scheduler. -/
def start (cpu_count idle_fn : ℕ) : Family := ⟨schedInit cpu_count idle_fn, [], none⟩

/-- In every state of a run of orderly steps: `sched_reap` by the parent of a child not reaped yet finds
the child and goes over to it; when the child exits, `sched_exit` returns to the parent's call, which
returns the code; and the slot of the child is not free for `sched_spawn`. -/
theorem exit_status {cpu_count idle_fn : ℕ} (hrun : ReflTransGen OrderlyStep (start cpu_count idle_fn) r) :
    (∀ pid, r.MayReap pid → ∃ s parent, schedReap r.procs pid = .ok (.running s) ∧
      r.reap pid = .ok ⟨s, r.children, some (parent, pid)⟩ ∧ r.procs.g_current = some parent ∧
      s.g_current = some (slotOf pid)) ∧
    (∀ parent pid, r.waiting = some (parent, pid) → r.procs.g_current = some (slotOf pid) → ∀ code,
      ∃ s call, schedExit r.procs code = .ok (s, .reap call) ∧ s.g_current = some parent ∧
        call.waiter = parent ∧ call.pcb = slotOf pid ∧ (reapFinish s call).2 = code) ∧
    ∀ parent pid, (parent, pid) ∈ r.children → schedFind r.procs pid = some (slotOf pid) ∧
      ∀ pid', spawnPid r.procs (2^32) r.procs.g_next_pid = some pid' → slotOf pid' ≠ slotOf pid := by
  have hinv : r.Inv := Runs.invariant (P := Inv) hrun ⟨nofun, nofun⟩ fun _ _ => Inv.step
  refine ⟨fun pid hmay => ?_, fun parent pid hwaiting hcur code => ?_, fun parent pid hchild => ?_⟩
  · obtain ⟨parent, links, runq, hcur, -, hreap⟩ := reap_eq hinv hmay
    refine ⟨_, parent, hreap, ?_, hcur, rfl⟩
    unfold Family.reap
    rw [bind_of_ok hreap, hcur]
    rfl
  · obtain ⟨call, hexit, hpcb, hwaiter⟩ := exit_eq hinv hwaiting hcur code
    have hne := (hinv.child parent pid (hinv.waiting parent pid hwaiting).1).ne
    exact ⟨_, call, hexit, rfl, hwaiter, hpcb, reapFinish_code hne hpcb⟩
  · have hc := hinv.child parent pid hchild
    exact ⟨hc.find, fun pid' hspawn => hc.slot_ne hspawn⟩

/-- The init process has spawned one child, on one CPU. -/
def oneChild : Family :=
  Family.spawn ⟨schedBootstrapInitThread (schedInit 1 0), [], none⟩ schedBatch 10 0 true

theorem oneChild_run : ReflTransGen OrderlyStep (start 1 0) oneChild := by
  have hboot : (start 1 0).Undisturbed (schedBootstrapInitThread (schedInit 1 0)) := ⟨nofun, rfl, rfl, rfl⟩
  refine (ReflTransGen.single (.other _ _ hboot)).tail (.spawn ⟨fun p hp => ?_, fun _ _ _ => ?_⟩)
  · cases hp
    exact ⟨nofun, nofun⟩
  · exact ⟨1, Nat.le_refl 1, by decide, fun hbusy => hbusy.2 rfl⟩

theorem oneChild_inv : oneChild.procs.Inv := by
  have hboot : (schedBootstrapInitThread (schedInit 1 0)).Inv :=
    ((schedInit_inv 1 0).setPcb (not_queued_of_schedInit 1 0 rfl) _).congr rfl rfl rfl rfl
  have hnone : ∀ p, ¬(schedBootstrapInitThread (schedInit 1 0)).Queued p :=
    fun _ => not_queued_of_schedInit 1 0 rfl
  have hspawn : (schedBootstrapInitThread (schedInit 1 0)).Apart oneChild.procs :=
    @schedSpawn_apart _ schedBatch 0 10 true fun _ _ => hnone _
  exact hboot.apart hspawn

/-- The child gets its entry point and is put into its queue. -/
theorem oneChild_start : ∃ s, schedEnqueue (oneChild.procs.setPcb (slotOf 1)
      { oneChild.procs.pcb (slotOf 1) with rip := 4096 }) (slotOf 1) = .ok s ∧
    oneChild.Undisturbed s ∧ Family.MayReap { oneChild with procs := s } 1 := by
  have hnot : ¬oneChild.procs.Queued (slotOf 1) := not_queued_of_schedInit 1 0 rfl
  obtain ⟨s, hs, hinv, -⟩ := schedEnqueue_spec (oneChild_inv.setPcb hnot
    { oneChild.procs.pcb (slotOf 1) with rip := 4096 }) hnot
  refine ⟨s, hs, ?_⟩
  cases hs
  refine ⟨⟨fun child hchild => ?_, rfl, rfl, rfl⟩, ⟨.bootstrap, rfl, mem_singleton_self _⟩, rfl, nofun,
    rfl, hinv, fun _ => rfl⟩
  obtain rfl := mem_singleton.mp hchild
  exact ⟨rfl, nofun, nofun⟩

/-- A parent that waits for its child gets the code. -/
theorem exit_status_oneChild : ∃ r, ReflTransGen OrderlyStep (start 1 0) r ∧
    r.waiting = some (.bootstrap, 1) ∧ ∃ s call, schedExit r.procs 7 = .ok (s, .reap call) ∧
      s.g_current = some .bootstrap ∧ (reapFinish s call).2 = 7 := by
  obtain ⟨s, -, hother, hmay⟩ := oneChild_start
  have hrun := oneChild_run.tail (.other _ s hother)
  obtain ⟨s', parent, -, hreap, hcur, hcur'⟩ := (exit_status hrun).1 1 hmay
  obtain ⟨_, hcur₂, hchild⟩ := hmay.child
  obtain rfl := Option.some.inj (hcur.symm.trans hcur₂)
  obtain ⟨rfl, -⟩ := Prod.mk.inj (mem_singleton.mp hchild)
  have hrun' := hrun.tail (.reap hmay hreap)
  obtain ⟨s'', call, hexit, hback, -, -, hcode⟩ := (exit_status hrun').2.1 .bootstrap 1 rfl hcur' 7
  exact ⟨_, hrun', rfl, s'', call, hexit, hback, hcode⟩

/-- The scheduler takes the first process of the queue of CPU 0 and switches to it. -/
def dispatch (s : Procs) (now : ℕ) : Except Fault Procs := do
  let (s, next) ← dequeueLocked s
  schedSwitchTo s next now

/-- The child is put into its queue, runs, and exits. Then the init process runs again. -/
theorem oneChild_exits : ∃ s₁, schedEnqueue (oneChild.procs.setPcb (slotOf 1)
      { oneChild.procs.pcb (slotOf 1) with rip := 4096 }) (slotOf 1) = .ok s₁ ∧ oneChild.Undisturbed s₁ ∧
    ∃ s₂, dispatch s₁ 0 = .ok s₂ ∧ Family.Undisturbed { oneChild with procs := s₁ } s₂ ∧
    ∃ r, Family.exit { oneChild with procs := s₂ } 7 = .ok r ∧ r.children = [(.bootstrap, 1)] ∧
      r.Undisturbed { r.procs with g_current := some .bootstrap } ∧
      schedReap { r.procs with g_current := some .bootstrap } 1 = .ok .notFound :=
  ⟨_, rfl, ⟨forall_mem_singleton.mpr ⟨rfl, nofun, nofun⟩, rfl, rfl, rfl⟩,
    _, rfl, ⟨forall_mem_singleton.mpr ⟨rfl, nofun, nofun⟩, rfl, rfl, rfl⟩,
    _, rfl, rfl, ⟨fun _ _ => ⟨rfl, Iff.rfl⟩, rfl, rfl, rfl⟩, rfl⟩

/-- A parent that waits for a child which has exited before does not. -/
theorem exit_before_reap : ∃ r, ReflTransGen Step (start 1 0) r ∧ (.bootstrap, 1) ∈ r.children ∧
    r.procs.g_current = some .bootstrap ∧ schedReap r.procs 1 = .ok .notFound := by
  have hboot : (start 1 0).Undisturbed (schedBootstrapInitThread (schedInit 1 0)) := ⟨nofun, rfl, rfl, rfl⟩
  have hrun : ReflTransGen Step (start 1 0) oneChild :=
    (ReflTransGen.single (.other _ _ hboot)).tail (.spawn _ schedBatch 10 0 true)
  obtain ⟨s₁, -, h₁, s₂, -, h₂, r, hexit, hchildren, h₃, hreap⟩ := oneChild_exits
  have hrun₁ := ((hrun.tail (.other _ s₁ h₁)).tail (.other _ s₂ h₂)).tail (.exit 7 hexit)
  refine ⟨_, hrun₁.tail (.other _ _ h₃), ?_, rfl, hreap⟩
  rw [hchildren]
  exact mem_singleton_self _

end Family

end FreeAsd.Sched
