import FreeAsd.Sched.RunQueue

/-!
# The locks of the run queues

`Clean x st L` says that a computation takes no lock that it already holds, and leaves the locks `L` taken. All
entry points are clean but `sched_yield` and `sched_tick`, which deadlock exactly when the process is put on
CPU 0 (`deadlock_iff`).
-/

namespace FreeAsd.Sched

open Function Procs

/-- Which locks are taken. -/
def Procs.locks (s : Procs) : ℕ → Bool := fun cpu => (s.runq cpu).lock

/-- A computation does not take a lock twice, and leaves the locks `L` taken. -/
def Clean {α : Type} (x : Except Fault α) (st : α → Procs) (L : ℕ → Bool) : Prop :=
  match x with
  | .error e => e = .null
  | .ok a => (st a).locks = L

variable {s s' : Procs} {cpu now : ℕ} {q : Queue} {p cur : PcbId} {requeue : Bool} {L L' : ℕ → Bool}

/-- A clean computation does not deadlock. -/
theorem Clean.ne_deadlock {α : Type} {x : Except Fault α} {st : α → Procs} (h : Clean x st L) :
    x ≠ .error .deadlock := by
  rintro rfl
  exact nomatch (h : Fault.deadlock = .null)

/-- One clean computation after another. -/
theorem Clean.bind {α β : Type} {x : Except Fault α} {st : α → Procs} {f : α → Except Fault β}
    {st' : β → Procs} (hx : Clean x st L) (hf : ∀ a, (st a).locks = L → Clean (f a) st' L') :
    Clean (x >>= f) st' L' := by
  cases x with
  | error e => exact hx
  | ok a => exact hf a hx

/-! ## Locks and trees -/

/-- A free lock is taken. -/
theorem Procs.lock_of_free (h : s.locks cpu = false) :
    s.lock cpu = .ok (s.setRunq cpu { s.runq cpu with lock := true }) := by
  unfold lock
  rw [show (s.runq cpu).lock = false from h]
  rfl

/-- A lock that is taken is waited for. -/
theorem Procs.lock_of_taken (h : s.locks cpu = true) : s.lock cpu = .error .deadlock := by
  unfold lock
  rw [show (s.runq cpu).lock = true from h]
  rfl

/-- A queue is written, and its lock with it. -/
theorem Procs.locks_setRunq (s : Procs) (cpu : ℕ) (rq : Runq) :
    (s.setRunq cpu rq).locks = update s.locks cpu rq.lock := by
  funext cpu'
  unfold locks setRunq
  by_cases e : cpu' = cpu
  · subst e
    simp
  · simp [update_of_ne e]

/-- Writing a tree leaves the locks alone. -/
theorem Procs.locks_setTree (s : Procs) (cpu : ℕ) (q : Queue) (t : LinkedTree PcbId) (n : ℕ) :
    (s.setTree cpu q t n).locks = s.locks := by
  refine (s.locks_setRunq cpu _).trans ?_
  exact update_eq_self cpu s.locks

/-- A lock that is taken and released again was free before. -/
theorem Procs.locks_unlock_of_lock (h : s.locks = update L cpu true) (hcpu : L cpu = false) :
    (s.unlock cpu).locks = L := by
  refine (s.locks_setRunq cpu _).trans ?_
  rw [h, update_idem, ← hcpu, update_eq_self]

/-- Taking a free lock. -/
theorem clean_lock (h : s.locks = L) (hcpu : L cpu = false) : Clean (s.lock cpu) id (update L cpu true) := by
  subst h
  rw [lock_of_free hcpu]
  exact s.locks_setRunq cpu _

section

variable (s cpu q p)

/-- A process is put into a tree. -/
theorem clean_insert : Clean (s.insert cpu q p) id s.locks := by
  unfold Procs.insert
  cases rbInsert nodeFuel s.priority (s.tree cpu q) p (s.pcb p).priority with
  | none => exact rfl
  | some t => exact s.locks_setTree cpu q t _

/-- A process is taken out of a tree. -/
theorem clean_remove : Clean (s.remove cpu q p) id s.locks := by
  unfold remove
  cases rbRemoveNode nodeFuel (s.tree cpu q) p with
  | none => exact rfl
  | some t => exact s.locks_setTree cpu q t _

/-- The first process of a tree is looked up. -/
theorem clean_leftmost : Clean (s.leftmost cpu q) (fun _ => s) s.locks := by
  unfold leftmost
  cases rbLeftmost nodeFuel (s.tree cpu q) with
  | none => exact rfl
  | some n => exact rfl

end

/-! ## The functions that the entry points share -/

/-- `sched_enqueue` is clean if the lock that it takes is free. -/
theorem clean_schedEnqueue (h : s.locks = L) (hcpu : L (enqueueCpu s p) = false) :
    Clean (schedEnqueue s p) id L := by
  have hready : (s.setPcb p { s.pcb p with cpu := enqueueCpu s p % 256, state := .ready }).locks = L := h
  refine (clean_lock hready hcpu).bind fun s₁ h₁ => ?_
  refine (clean_insert s₁ _ _ p).bind fun s₂ h₂ => ?_
  exact locks_unlock_of_lock (h₂.trans h₁) hcpu

/-- Otherwise it waits for ever. -/
theorem schedEnqueue_deadlock (h : s.locks (enqueueCpu s p) = true) : schedEnqueue s p = .error .deadlock := by
  have hready : (s.setPcb p { s.pcb p with cpu := enqueueCpu s p % 256, state := .ready }).locks
      (enqueueCpu s p) = true := h
  exact bind_of_error (lock_of_taken hready) _

section

variable (s cpu p)

/-- `sched_dequeue` takes no lock itself. -/
theorem clean_schedDequeue : Clean (schedDequeue s cpu) Prod.fst s.locks := by
  unfold schedDequeue
  cases dequeueTree (s.runq cpu) with
  | none => exact rfl
  | some q =>
    refine (clean_leftmost s cpu q).bind fun n _ => ?_
    cases n with
    | none => exact rfl
    | some n => exact (clean_remove s cpu q n).bind fun s' h => h

/-- Nor does `sched_takeoff_runq_locked`. -/
theorem clean_schedTakeoffRunqLocked : Clean (schedTakeoffRunqLocked s cpu p) id s.locks := by
  unfold schedTakeoffRunqLocked
  dsimp only
  split_ifs
  · exact rfl
  · exact rfl
  · exact (clean_remove s cpu _ p).bind fun s' h => h
  · exact rfl

/-- The deadline of the next process is set. -/
theorem locks_setDeadline (next : PcbId) (now : ℕ) : (setDeadline s next now).locks = s.locks := by
  unfold setDeadline
  dsimp only
  split_ifs <;> rfl

/-- The next process becomes the current one. -/
theorem locks_makeCurrent (cur next : PcbId) : (makeCurrent s cur next).locks = s.locks := by
  unfold makeCurrent
  split_ifs <;> rfl

/-- `sched_switch_to` leaves the locks alone. -/
theorem clean_schedSwitchTo (next : Option PcbId) (now : ℕ) : Clean (schedSwitchTo s next now) id s.locks := by
  unfold schedSwitchTo
  cases next with
  | none => exact rfl
  | some next =>
    dsimp only
    split_ifs
    · exact rfl
    · exact rfl
    · cases s.g_current with
      | none => exact rfl
      | some cur => exact (locks_makeCurrent _ cur next).trans (locks_setDeadline s next now)

end

/-- The CPU for a process does not depend on the locks and the priorities. -/
theorem enqueueCpu_congr (hcpu : (s'.pcb p).cpu = (s.pcb p).cpu) (hcpus : s'.g_cpu_count = s.g_cpu_count)
    (hcount : ∀ cpu q, (s'.runq cpu).count q = (s.runq cpu).count q) : enqueueCpu s' p = enqueueCpu s p := by
  have hloop : ∀ n i min_load cpu, leastLoaded s' n i min_load cpu = leastLoaded s n i min_load cpu := by
    intro n
    induction n with
    | zero => exact fun _ _ _ => rfl
    | succ n ih =>
      intro i min_load cpu
      simp only [leastLoaded, hcount, ih]
  unfold enqueueCpu
  rw [hcpu, hcpus, hloop]

/-- In particular it is the same when a lock is taken. -/
theorem enqueueCpu_lock (s : Procs) (cpu : ℕ) (b : Bool) (p : PcbId) :
    enqueueCpu (s.setRunq cpu { s.runq cpu with lock := b }) p = enqueueCpu s p := by
  refine enqueueCpu_congr rfl rfl fun cpu' q => ?_
  unfold setRunq
  by_cases e : cpu' = cpu
  · subst e
    simp
  · simp [update_of_ne e]

/-- The current process is put back if the lock of its CPU is free. -/
theorem clean_putBack (h : s.locks = L) (hcpu : requeue = true → L (enqueueCpu s cur) = false) :
    Clean (putBack s cur requeue) id L := by
  cases requeue with
  | false => exact h
  | true => exact clean_schedEnqueue h (hcpu rfl)

/-- A process ends without a lock. -/
theorem locks_die (s : Procs) (cur : PcbId) (code : ℤ) : (die s cur code).locks = s.locks := by
  have hnotify : (notifyParent s cur).locks = s.locks := by
    unfold notifyParent
    split_ifs
    · cases schedFind s (s.pcb cur).ppid with
      | none => rfl
      | some parent => rfl
    · rfl
  exact hnotify

/-- The end of `sched_reap` takes no lock. -/
theorem locks_reapFinish (s : Procs) (call : ReapCall) : (reapFinish s call).1.locks = s.locks := by
  unfold reapFinish
  dsimp only
  split_ifs <;> rfl

/-- The first process of a victim is looked up. -/
theorem clean_stealFirst (s : Procs) (victim : ℕ) : Clean (stealFirst s victim) (fun _ => s) s.locks := by
  unfold stealFirst
  split_ifs
  · exact clean_leftmost s victim .batch
  · exact clean_leftmost s victim .intr
  · exact rfl

/-- Processes are moved from one tree to another under the two locks. -/
theorem clean_stealLoop (this_cpu victim n : ℕ) (h : s.locks = L) :
    Clean (stealLoop this_cpu victim n s) id L := by
  induction n generalizing s with
  | zero => exact h
  | succ n ih =>
    refine (clean_stealFirst s victim).bind fun first _ => ?_
    cases first with
    | none => exact h
    | some p =>
      refine (clean_remove s victim _ p).bind fun s₁ h₁ => ?_
      refine (clean_insert _ this_cpu _ p).bind fun s₂ h₂ => ?_
      have h₃ : s₂.locks = s₁.locks := h₂
      exact ih (h₃.trans (h₁.trans h))

/-- A change of the priority does not change what a tick does. -/
theorem decay_eq (s : Procs) (cur : PcbId) : (decay s cur).locks = s.locks ∧
    enqueueCpu (decay s cur) cur = enqueueCpu s cur ∧
    ((decay s cur).pcb cur).deadline_ns = (s.pcb cur).deadline_ns ∧
    ((decay s cur).pcb cur).state = (s.pcb cur).state := by
  unfold decay
  split_ifs
  · have hself : ∀ pcb, (s.setPcb cur pcb).pcb cur = pcb := fun _ => update_self ..
    refine ⟨rfl, enqueueCpu_congr ?_ rfl fun _ _ => rfl, ?_, ?_⟩ <;> rw [hself]
  · exact ⟨rfl, rfl, rfl, rfl⟩

/-! ## The entry points, with all locks free -/

section

variable (h : s.locks = fun _ => false)

include h

/-- `sched_tick` and `sched_yield` are clean if they do not put a process back on CPU 0. -/
theorem clean_reschedule (hcpu : requeue = true → enqueueCpu s cur ≠ 0) :
    Clean (reschedule s cur requeue now) id fun _ => false := by
  unfold reschedule
  rw [bind_of_ok (lock_of_free (congrFun h 0))]
  obtain ⟨s₁, hs₁⟩ : ∃ s₁, s₁ = s.setRunq 0 { s.runq 0 with lock := true } := ⟨_, rfl⟩
  have h₁ : s₁.locks = update (fun _ => false) 0 true := by
    rw [hs₁, s.locks_setRunq, h]
  have hcpu₁ : requeue = true → update (fun _ => false) 0 true (enqueueCpu s₁ cur) = false := by
    intro hr
    rw [hs₁, enqueueCpu_lock]
    exact update_of_ne (hcpu hr) _ _
  rw [← hs₁]
  refine (clean_putBack h₁ hcpu₁).bind fun s₂ h₂ => ?_
  refine (clean_schedDequeue s₂ 0).bind fun ⟨s₃, next⟩ h₃ => ?_
  have h₄ : (s₃.unlock 0).locks = fun _ => false := locks_unlock_of_lock (h₃.trans h₂) rfl
  exact h₄ ▸ clean_schedSwitchTo (s₃.unlock 0) next now

/-- If they do, they wait for the lock that they hold. -/
theorem reschedule_deadlock (hcpu : enqueueCpu s cur = 0) : reschedule s cur true now = .error .deadlock := by
  unfold reschedule
  rw [bind_of_ok (lock_of_free (congrFun h 0))]
  refine bind_of_error (schedEnqueue_deadlock ?_) _
  rw [enqueueCpu_lock, hcpu, s.locks_setRunq]
  exact update_self ..

/-- `sched_wake` holds no lock when it enqueues. -/
theorem clean_schedWake (p : PcbId) : Clean (schedWake s p) id fun _ => false := by
  unfold schedWake
  split_ifs
  · exact h
  · exact clean_schedEnqueue h rfl
  · exact clean_schedEnqueue h rfl

/-- The next process is taken under the lock of CPU 0. -/
theorem clean_dequeueLocked : Clean (dequeueLocked s) Prod.fst fun _ => false := by
  refine (@clean_lock s 0 _ h rfl).bind fun s₁ h₁ => ?_
  refine (clean_schedDequeue s₁ 0).bind fun ⟨s₂, next⟩ h₂ => ?_
  exact locks_unlock_of_lock (h₂.trans h₁) rfl

/-- The process after one that ends. -/
theorem clean_exitNext : Clean (exitNext s) Prod.fst fun _ => false := by
  unfold exitNext
  cases s.g_reap_waiter with
  | none => exact clean_dequeueLocked h
  | some waiter =>
    dsimp only
    split_ifs
    · exact h
    · exact clean_dequeueLocked h

/-- The switch at the end of `sched_exit`. -/
theorem clean_exitSwitch : Clean (exitSwitch s) Prod.fst fun _ => false := by
  refine (clean_exitNext h).bind fun ⟨s₁, next⟩ h₁ => ?_
  dsimp only
  cases exitTarget s₁ next with
  | none => exact rfl
  | some next => exact h₁

/-- `sched_exit` is clean. -/
theorem clean_schedExit (code : ℤ) : Clean (schedExit s code) Prod.fst fun _ => false := by
  unfold schedExit
  cases s.g_current with
  | none => exact rfl
  | some cur =>
    dsimp only
    have hdie := (locks_die s cur code).trans h
    split
    · split
      · exact rfl
      · exact hdie
    · exact clean_exitSwitch hdie

/-- `sched_reap` takes the child off its queue under the lock of CPU 0. -/
theorem clean_reapTakeoff (p : PcbId) : Clean (reapTakeoff s p) id fun _ => false := by
  refine (@clean_lock s 0 _ h rfl).bind fun s₁ h₁ => ?_
  refine (clean_schedTakeoffRunqLocked s₁ 0 p).bind fun s₂ h₂ => ?_
  exact locks_unlock_of_lock (h₂.trans h₁) rfl

/-- `sched_reap` is clean up to its switch. -/
theorem clean_reapStart (pid : ℕ) : Clean (reapStart s pid) id fun _ => false := by
  unfold reapStart schedReap
  cases schedFind s pid with
  | none => exact h
  | some p =>
    cases s.g_current with
    | none => exact rfl
    | some waiter =>
      dsimp only
      obtain ⟨call, hcall⟩ : ∃ call : ReapCall,
        call = ⟨p, waiter, (s.pcb p).sched_class, (s.pcb p).priority⟩ := ⟨_, rfl⟩
      rw [← hcall]
      have hwait : (reapWait s call).locks = fun _ => false := h
      split_ifs with hrun
      · rw [bind_assoc]
        exact (clean_reapTakeoff hwait p).bind fun s₁ h₁ => h₁
      · exact (locks_reapFinish _ call).trans hwait

/-- `sched_steal` takes two different locks. -/
theorem clean_schedSteal (this_cpu : ℕ) : Clean (schedSteal s this_cpu) id fun _ => false := by
  obtain hs | ⟨victim, first, second, hfs, hs⟩ := schedSteal_cases s this_cpu
  · rw [hs]
    exact h
  rw [hs]
  have hfree : update (fun _ => false) first true second = false := update_of_ne hfs _ _
  refine (@clean_lock s first _ h rfl).bind fun s₁ h₁ => ?_
  refine (clean_lock h₁ hfree).bind fun s₂ h₂ => ?_
  refine (clean_stealLoop this_cpu victim _ h₂).bind fun s₃ h₃ => ?_
  exact locks_unlock_of_lock (locks_unlock_of_lock h₃ hfree) rfl

end

/-- The entry points of the scheduler. -/
inductive SchedCall
  | yield (now : ℕ)
  | tick (now_ns : ℕ)
  | wake (p : PcbId)
  | exit (code : ℤ)
  | reap (pid : ℕ)
  | steal (this_cpu : ℕ)

def SchedCall.exec (s : Procs) : SchedCall → Except Fault Procs
  | yield now => schedYield s now
  | tick now_ns => schedTick s now_ns
  | wake p => schedWake s p
  | exit code => do
    let (s, _) ← schedExit s code
    return s
  | reap pid => reapStart s pid
  | steal this_cpu => schedSteal s this_cpu

/-- The current process is to be put back into a queue of CPU 0, whose lock is held. -/
def SchedCall.PutsBack (s : Procs) : SchedCall → Prop
  | yield _ => ∃ cur, s.g_current = some cur ∧ some cur ≠ (s.runq 0).idle_pcb ∧
      some cur ≠ s.g_reap_waiter ∧ enqueueCpu s cur = 0
  | tick now_ns => 0 < s.g_cpu_count ∧ ∃ cur idle, s.g_current = some cur ∧
      (s.runq 0).idle_pcb = some idle ∧ s.g_reap_waiter = none ∧ cur ≠ .bootstrap ∧ cur ≠ idle ∧
      (s.pcb cur).deadline_ns ≤ now_ns ∧ (s.pcb cur).state = .run ∧ enqueueCpu s cur = 0
  | _ => False

section

variable (h : s.locks = fun _ => false)

include h

/-- `sched_yield` with a process to put back on CPU 0. -/
theorem schedYield_deadlock (hput : (SchedCall.yield now).PutsBack s) :
    schedYield s now = .error .deadlock := by
  obtain ⟨cur, hcur, hidle, hwaiter, hcpu⟩ := hput
  unfold schedYield
  rw [hcur]
  dsimp only
  rw [decide_eq_true ⟨hidle, hwaiter⟩]
  exact reschedule_deadlock h hcpu

/-- `sched_yield` without. -/
theorem clean_schedYield (hput : ¬(SchedCall.yield now).PutsBack s) :
    Clean (schedYield s now) id fun _ => false := by
  unfold schedYield
  cases hcur : s.g_current with
  | none =>
    refine (@clean_lock s 0 _ h rfl).bind fun s₁ h₁ => ?_
    split_ifs
    · exact rfl
    · refine (clean_schedDequeue s₁ 0).bind fun ⟨s₂, next⟩ h₂ => ?_
      have h₃ : (s₂.unlock 0).locks = fun _ => false := locks_unlock_of_lock (h₂.trans h₁) rfl
      exact h₃ ▸ clean_schedSwitchTo (s₂.unlock 0) next now
  | some cur =>
    refine clean_reschedule h fun hr hcpu => hput ?_
    obtain ⟨hidle, hwaiter⟩ := of_decide_eq_true hr
    exact ⟨cur, hcur, hidle, hwaiter, hcpu⟩

/-- `sched_tick` with a process to put back on CPU 0. -/
theorem schedTick_deadlock {now_ns : ℕ} (hput : (SchedCall.tick now_ns).PutsBack s) :
    schedTick s now_ns = .error .deadlock := by
  obtain ⟨hcpus, cur, idle, hcur, hidle, hwaiter, hboot, hne, hdeadline, hstate, hcpu⟩ := hput
  obtain ⟨hlocks, hcpu', hdeadline', hstate'⟩ := decay_eq s cur
  unfold schedTick
  rw [if_neg (Nat.not_le.mpr hcpus), hcur, hidle]
  dsimp only
  rw [if_neg (not_not.mpr hwaiter), if_neg hboot, if_pos ⟨hne, hdeadline' ▸ hdeadline, hstate'.trans hstate⟩]
  exact reschedule_deadlock (hlocks.trans h) (hcpu'.trans hcpu)

/-- `sched_tick` without. -/
theorem clean_schedTick {now_ns : ℕ} (hput : ¬(SchedCall.tick now_ns).PutsBack s) :
    Clean (schedTick s now_ns) id fun _ => false := by
  unfold schedTick
  by_cases hcpus : 0 ≥ s.g_cpu_count
  · rw [if_pos hcpus]
    exact h
  rw [if_neg hcpus]
  cases hcur : s.g_current with
  | none => exact h
  | some cur =>
    cases hidle : (s.runq 0).idle_pcb with
    | none => exact h
    | some idle =>
      obtain ⟨hlocks, hcpu, hdeadline, hstate⟩ := decay_eq s cur
      dsimp only
      split_ifs with hwaiter hboot hrun
      · exact h
      · exact h
      · refine clean_reschedule (hlocks.trans h) fun _ hcpu' => hput ?_
        obtain ⟨hne, hdeadline', hstate'⟩ := hrun
        exact ⟨Nat.not_le.mp hcpus, cur, idle, hcur, hidle, not_not.mp hwaiter, hboot, hne, hdeadline ▸ hdeadline',
          hstate.symm.trans hstate', hcpu.symm.trans hcpu'⟩
      · exact hlocks.trans h

/-- An entry point that puts a process back on CPU 0 deadlocks. -/
theorem SchedCall.deadlock {call : SchedCall} (hput : call.PutsBack s) : call.exec s = .error .deadlock := by
  cases call with
  | yield now => exact schedYield_deadlock h hput
  | tick now_ns => exact schedTick_deadlock h hput
  | wake p | exit code | reap pid | steal this_cpu => exact hput.elim

/-- Every other call is clean. -/
theorem SchedCall.clean {call : SchedCall} (hput : ¬call.PutsBack s) :
    Clean (call.exec s) id fun _ => false := by
  cases call with
  | yield now => exact clean_schedYield h hput
  | tick now_ns => exact clean_schedTick h hput
  | wake p => exact clean_schedWake h p
  | exit code => exact (clean_schedExit h code).bind fun ⟨s', _⟩ h' => h'
  | reap pid => exact clean_reapStart h pid
  | steal this_cpu => exact clean_schedSteal h this_cpu

end

/-- A call that returns, or a step of the rest of the kernel, which leaves the locks alone. -/
inductive CallStep : Procs → Procs → Prop
  | call {s s' : Procs} (call : SchedCall) (h : call.exec s = .ok s') : CallStep s s'
  | other {s s' : Procs} (h : s'.locks = s.locks) : CallStep s s'

/-- Between two calls all locks are free. -/
theorem locks_free_step (h : s.locks = fun _ => false) (hs : CallStep s s') : s'.locks = fun _ => false := by
  cases hs with
  | call call hs =>
    by_cases hput : call.PutsBack s
    · rw [SchedCall.deadlock h hput] at hs
      exact nomatch hs
    · have hclean := SchedCall.clean h hput
      rw [hs] at hclean
      exact hclean
  | other hs => exact hs.trans h

/-- In every state that the scheduler reaches, a call takes a lock that it holds if and only if it is
`sched_yield` or `sched_tick` and puts the current process back on CPU 0. -/
theorem deadlock_iff {cpu_count idle_fn : ℕ}
    (hrun : Relation.ReflTransGen CallStep (schedInit cpu_count idle_fn) s) (call : SchedCall) :
    call.exec s = .error .deadlock ↔ call.PutsBack s := by
  have hinit : (schedInit cpu_count idle_fn).locks = fun _ => false :=
    funext fun cpu => (schedInit_runq cpu_count idle_fn cpu).1
  have hfree : s.locks = fun _ => false :=
    Runs.invariant (P := fun s => s.locks = fun _ => false) hrun hinit fun _ _ => locks_free_step
  constructor
  · intro hdead
    by_contra hput
    exact (SchedCall.clean hfree hput).ne_deadlock hdead
  · exact SchedCall.deadlock hfree

/-- The boot has made its own thread the current one, and a tick does not put that back. -/
theorem deadlock_iff_bootstrap :
    Relation.ReflTransGen CallStep (schedInit 1 0) (schedBootstrapInitThread (schedInit 1 0)) ∧
      SchedCall.exec (schedBootstrapInitThread (schedInit 1 0)) (.tick 0) ≠ .error .deadlock := by
  have hrun : Relation.ReflTransGen CallStep (schedInit 1 0) (schedBootstrapInitThread (schedInit 1 0)) :=
    .single (.other rfl)
  refine ⟨hrun, fun hdead => ?_⟩
  obtain ⟨-, cur, -, hcur, -, -, hboot, -⟩ := (deadlock_iff hrun (.tick 0)).mp hdead
  exact hboot (Option.some.inj hcur).symm

/-- But when it yields, it is put back. -/
theorem yield_bootstrap :
    Relation.ReflTransGen CallStep (schedInit 1 0) (schedBootstrapInitThread (schedInit 1 0)) ∧
      SchedCall.exec (schedBootstrapInitThread (schedInit 1 0)) (.yield 0) = .error .deadlock := by
  refine ⟨.single (.other rfl), SchedCall.deadlock ?_ ⟨.bootstrap, rfl, nofun, nofun, rfl⟩⟩
  exact funext fun cpu => (schedInit_runq 1 0 cpu).1

end FreeAsd.Sched
