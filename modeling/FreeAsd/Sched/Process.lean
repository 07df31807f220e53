import FreeAsd.Sched.RbTree

/-!
# Processes and run queues

The scheduler of `kernel/sched/sched.c`. A spin lock is a flag; an execution on one CPU that takes a lock which
is set has set it itself (`Fault.deadlock`). `this_cpu_id` is 0, as in the source. Address spaces, kernel
stacks, open files, times and the state page are left out, and so is the lock of the process table, which is
released before any other is taken.
-/

namespace FreeAsd.Sched

open Function

/-- `MAX_PROCS`. -/
abbrev maxProcs : ℕ := 4096

instance : NeZero maxProcs := ⟨by decide⟩

/-- `MAX_CPUS`. -/
abbrev maxCpus : ℕ := 64

/-- The process control blocks: those of the table, one idle process for each CPU, and the init process
that the boot code runs as. -/
inductive PcbId
  | slot (i : Fin maxProcs)
  | idle (cpu : Fin maxCpus)
  | bootstrap
  deriving DecidableEq

/-- `PROC_NEW` to `PROC_DEAD`. -/
inductive ProcState
  | new
  | ready
  | run
  | wait
  | dead
  deriving DecidableEq

/-- The three trees of a run queue. -/
inductive Queue
  | rt
  | intr
  | batch
  deriving DecidableEq

/-- The cases of `switch (pcb->sched_class)`. -/
def queueOf (sched_class : ℕ) : Queue :=
  if sched_class = 0 then .rt else if sched_class = 1 then .intr else .batch

/-- `SCHED_BATCH`. -/
def schedBatch : ℕ := 2

/-- `pcb_t`, with `rip` for `regs.rip`. The node of the run queue is in `Procs.links`. -/
structure Pcb where
  pid : ℕ
  ppid : ℕ
  state : ProcState
  sched_class : ℕ
  cpu : ℕ
  priority : ℤ
  base_pri : ℤ
  deadline_ns : ℕ
  exit_code : ℤ
  sig_pending : ℕ
  rip : ℕ

/-- `runq_t`. -/
structure Runq where
  lock : Bool
  tree : Queue → Option PcbId
  count : Queue → ℕ
  idle_pcb : Option PcbId

/-- What `sched_jmp_save` saves: a call of `sched_reap`, with its local variables. -/
structure ReapCall where
  pcb : PcbId
  waiter : PcbId
  saved_class : ℕ
  saved_pri : ℤ

/-- The state of the scheduler. -/
structure Procs where
  pcb : PcbId → Pcb
  links : Links PcbId
  runq : ℕ → Runq
  g_cpu_count : ℕ
  g_current : Option PcbId
  g_proc_count : ℕ
  g_next_pid : ℕ
  g_reap_waiter : Option PcbId
  g_reap_jmp : Option ReapCall
  g_reap_jmp_active : Bool

/-- A node with null pointers. -/
def clearNode (links : Links PcbId) (p : PcbId) : Links PcbId :=
  { links with
    parent := update links.parent p none
    child := fun d => update (links.child d) p none }

/-- How an execution can fail to return. -/
inductive Fault
  | null
  | deadlock
  deriving DecidableEq

theorem bind_of_ok {α β : Type} {x : Except Fault α} {a : α} (h : x = .ok a) (f : α → Except Fault β) :
    x >>= f = f a := by
  rw [h]
  rfl

theorem bind_of_error {α β : Type} {x : Except Fault α} {e : Fault} (h : x = .error e)
    (f : α → Except Fault β) : x >>= f = .error e := by
  rw [h]
  rfl

/-- A conversion to `int16_t`. -/
def toInt16 (x : ℤ) : ℤ := (x + 2^15) % 2^16 - 2^15

namespace Procs

def setPcb (s : Procs) (p : PcbId) (pcb : Pcb) : Procs := { s with pcb := update s.pcb p pcb }

@[simp]
theorem pcb_setPcb_self (s : Procs) (p : PcbId) (pcb : Pcb) : (s.setPcb p pcb).pcb p = pcb := update_self ..

theorem pcb_setPcb_of_ne (s : Procs) {p v : PcbId} (h : v ≠ p) (pcb : Pcb) : (s.setPcb p pcb).pcb v = s.pcb v :=
  update_of_ne h _ _

def setRunq (s : Procs) (cpu : ℕ) (rq : Runq) : Procs := { s with runq := update s.runq cpu rq }

/-- `spin_lock(&g_runq[cpu].lock)`. -/
def lock (s : Procs) (cpu : ℕ) : Except Fault Procs :=
  if (s.runq cpu).lock then .error .deadlock
  else .ok (s.setRunq cpu { s.runq cpu with lock := true })

/-- `spin_unlock(&g_runq[cpu].lock)`. -/
def unlock (s : Procs) (cpu : ℕ) : Procs := s.setRunq cpu { s.runq cpu with lock := false }

/-- A tree of a run queue. -/
def tree (s : Procs) (cpu : ℕ) (q : Queue) : LinkedTree PcbId := ⟨s.links, (s.runq cpu).tree q⟩

/-- Write back a tree and its count. -/
def setTree (s : Procs) (cpu : ℕ) (q : Queue) (t : LinkedTree PcbId) (count : ℕ) : Procs :=
  { s.setRunq cpu { s.runq cpu with
      tree := update (s.runq cpu).tree q t.root
      count := update (s.runq cpu).count q count } with
    links := t.toLinks }

/-- More rounds than any loop over the nodes of a tree takes. -/
def nodeFuel : ℕ := maxProcs + maxCpus + 2

def priority (s : Procs) (p : PcbId) : ℤ := (s.pcb p).priority

/-- `rb_insert(&rq->..._tree, &pcb->rq_node, pcb->priority); rq->..._count++;`. -/
def insert (s : Procs) (cpu : ℕ) (q : Queue) (p : PcbId) : Except Fault Procs :=
  match rbInsert nodeFuel s.priority (s.tree cpu q) p (s.pcb p).priority with
  | none => .error .null
  | some t => .ok (s.setTree cpu q t (((s.runq cpu).count q + 1) % 2^32))

/-- `rb_remove_node(&rq->..._tree, n); rq->..._count--;`. -/
def remove (s : Procs) (cpu : ℕ) (q : Queue) (n : PcbId) : Except Fault Procs :=
  match rbRemoveNode nodeFuel (s.tree cpu q) n with
  | none => .error .null
  | some t => .ok (s.setTree cpu q t (((s.runq cpu).count q + 2^32 - 1) % 2^32))

/-- `rb_leftmost(&rq->..._tree)`. -/
def leftmost (s : Procs) (cpu : ℕ) (q : Queue) : Except Fault (Option PcbId) :=
  match rbLeftmost nodeFuel (s.tree cpu q) with
  | none => .error .null
  | some n => .ok n

end Procs

/-- The state before `sched_init`: all variables are zero. -/
def bss : Procs where
  pcb _ := ⟨0, 0, .new, 0, 0, 0, 0, 0, 0, 0, 0⟩
  links := ⟨fun _ => none, fun _ _ => none, fun _ => .black⟩
  runq _ := ⟨false, fun _ => none, fun _ => 0, none⟩
  g_cpu_count := 0
  g_current := none
  g_proc_count := 0
  g_next_pid := 0
  g_reap_waiter := none
  g_reap_jmp := none
  g_reap_jmp_active := false

/-- `sched_init`. `idle_fn` is the address of the idle loop. -/
def schedInit (cpu_count idle_fn : ℕ) : Procs :=
  let n := if cpu_count > maxCpus then maxCpus else cpu_count
  { bss with
    g_cpu_count := n
    g_next_pid := 1
    runq := fun cpu =>
      if h : cpu < maxCpus then
        if cpu < n then ⟨false, fun _ => none, fun _ => 0, some (.idle ⟨cpu, h⟩)⟩ else bss.runq cpu
      else bss.runq cpu
    pcb := fun
      | .idle cpu =>
        if cpu < n then ⟨0, 0, .run, schedBatch, cpu, 127, 127, 2^64 - 1, 0, 0, idle_fn⟩
        else bss.pcb (.idle cpu)
      | p => bss.pcb p
    g_current := if 0 < n then some (.idle 0) else none }

/-- `sched_bootstrap_init_thread`. -/
def schedBootstrapInitThread (s : Procs) : Procs :=
  { s.setPcb .bootstrap ⟨1, 0, .run, schedBatch, 0, 0, 0, 2^64 - 1, 0, 0, 0⟩ with
    g_current := some .bootstrap }

/-! ## Run queues -/

/-- The loop of `sched_enqueue` over the CPUs, from CPU `i` on. -/
def leastLoaded (s : Procs) : ℕ → ℕ → ℕ → ℕ → ℕ
  | 0, _, _, cpu => cpu
  | n + 1, i, min_load, cpu =>
    let load := ((s.runq i).count .rt + (s.runq i).count .intr + (s.runq i).count .batch) % 2^32
    if load < min_load then leastLoaded s n (i + 1) load i else leastLoaded s n (i + 1) min_load cpu

/-- The CPU on which `sched_enqueue` puts a process. -/
def enqueueCpu (s : Procs) (p : PcbId) : ℕ :=
  if (s.pcb p).cpu ≥ s.g_cpu_count then leastLoaded s s.g_cpu_count 0 0xFFFFFFFF 0 else (s.pcb p).cpu

/-- `sched_enqueue`. -/
def schedEnqueue (s : Procs) (p : PcbId) : Except Fault Procs := do
  let cpu := enqueueCpu s p
  let s := s.setPcb p { s.pcb p with cpu := cpu % 256, state := .ready }
  let s ← s.lock cpu
  let s ← s.insert cpu (queueOf (s.pcb p).sched_class) p
  return s.unlock cpu

/-- `sched_takeoff_runq_locked`. -/
def schedTakeoffRunqLocked (s : Procs) (cpu : ℕ) (p : PcbId) : Except Fault Procs :=
  let q := queueOf (s.pcb p).sched_class
  if (s.pcb p).state ≠ .ready then .ok s
  else if (s.runq cpu).count q = 0 ∨ (s.runq cpu).tree q = none then .ok s
  else if s.links.parent p ≠ none ∨ (s.runq cpu).tree q = some p then do
    let s ← s.remove cpu q p
    return { s with links := clearNode s.links p }
  else .ok s

/-- The tree from which `sched_dequeue` takes a process. -/
def dequeueTree (rq : Runq) : Option Queue :=
  if rq.count .rt > 0 then some .rt
  else if rq.count .intr > 0 then some .intr
  else if rq.count .batch > 0 then some .batch
  else none

/-- `sched_dequeue`. -/
def schedDequeue (s : Procs) (cpu : ℕ) : Except Fault (Procs × Option PcbId) :=
  match dequeueTree (s.runq cpu) with
  | none => .ok (s, (s.runq cpu).idle_pcb)
  | some q => do
    match ← s.leftmost cpu q with
    | none => return (s, (s.runq cpu).idle_pcb)
    | some n =>
      let s ← s.remove cpu q n
      return (s, some n)

/-- The loop of `sched_steal` that looks for a victim, from CPU `i` on. Returns the victim and its
load. -/
def stealVictim (s : Procs) (this_cpu : ℕ) : ℕ → ℕ → ℕ → ℕ → ℕ × ℕ
  | 0, _, victim, max_load => (victim, max_load)
  | n + 1, i, victim, max_load =>
    let load := ((s.runq i).count .intr + (s.runq i).count .batch) % 2^32
    if i ≠ this_cpu ∧ load > max_load then stealVictim s this_cpu n (i + 1) i load
    else stealVictim s this_cpu n (i + 1) victim max_load

/-- The process that `sched_steal` moves next. -/
def stealFirst (s : Procs) (victim : ℕ) : Except Fault (Option PcbId) :=
  if (s.runq victim).count .batch > 0 then s.leftmost victim .batch
  else if (s.runq victim).count .intr > 0 then s.leftmost victim .intr
  else .ok none

/-- The loop of `sched_steal` that moves processes. -/
def stealLoop (this_cpu victim : ℕ) : ℕ → Procs → Except Fault Procs
  | 0, s => .ok s
  | n + 1, s => do
    match ← stealFirst s victim with
    | none => return s
    | some p =>
      let q := if (s.pcb p).sched_class = schedBatch then Queue.batch else Queue.intr
      let s ← s.remove victim q p
      let s := s.setPcb p { s.pcb p with cpu := this_cpu % 256 }
      let s ← s.insert this_cpu q p
      stealLoop this_cpu victim n s

/-- `SCHED_STEAL_THRESHOLD`. -/
def schedStealThreshold : ℕ := 2

/-- `sched_steal` locks two queues and moves half of the victim's processes. -/
def stealBetween (s : Procs) (this_cpu victim first second : ℕ) : Except Fault Procs := do
  let s ← s.lock first
  let s ← s.lock second
  let to_move := ((s.runq victim).count .intr + (s.runq victim).count .batch) % 2^32 / 2
  let s ← stealLoop this_cpu victim to_move s
  return (s.unlock second).unlock first

/-- `sched_steal`. -/
def schedSteal (s : Procs) (this_cpu : ℕ) : Except Fault Procs :=
  let (victim, max_load) := stealVictim s this_cpu s.g_cpu_count 0 0 0
  let my_load := ((s.runq this_cpu).count .intr + (s.runq this_cpu).count .batch) % 2^32
  if max_load ≤ (my_load + schedStealThreshold) % 2^32 then .ok s
  else stealBetween s this_cpu victim (if this_cpu < victim then this_cpu else victim)
    (if this_cpu < victim then victim else this_cpu)

/-- `SCHED_BOOST`. -/
def schedBoost : ℤ := 20

/-- The priority that `sched_wake` gives to an interactive process. -/
def boosted (base_pri : ℤ) : ℤ :=
  if toInt16 (base_pri - schedBoost) < 0 then 0 else toInt16 (base_pri - schedBoost)

/-- `sched_wake`. -/
def schedWake (s : Procs) (p : PcbId) : Except Fault Procs :=
  if (s.pcb p).state ≠ .wait then .ok s
  else if (s.pcb p).sched_class = 1 then
    schedEnqueue (s.setPcb p { s.pcb p with priority := boosted (s.pcb p).base_pri }) p
  else schedEnqueue s p

/-- `&g_proc_table[pid % MAX_PROCS]`. -/
def slotOf (pid : ℕ) : PcbId := .slot (Fin.ofNat maxProcs pid)

/-- `sched_find`. -/
def schedFind (s : Procs) (pid : ℕ) : Option PcbId :=
  if pid = 0 ∨ pid ≥ maxProcs then none
  else
    let p := slotOf pid
    if (s.pcb p).pid = pid ∧ (s.pcb p).state ≠ .dead then some p else none

/-- `sched_set`. Returns whether the process was found. -/
def schedSet (s : Procs) (pid cls : ℕ) (priority : ℤ) : Bool × Procs :=
  match schedFind s pid with
  | none => (false, s)
  | some p => (true, s.setPcb p { s.pcb p with
      sched_class := cls % 256
      base_pri := toInt16 priority
      priority := toInt16 priority })

/-! ## Switching -/

/-- The time slice of a class: `SCHED_QUANTUM_INTR_NS`, `SCHED_QUANTUM_BATCH_NS`, or none. -/
def quantumNs (sched_class : ℕ) : ℕ :=
  match queueOf sched_class with
  | .rt => 0
  | .intr => 4000000
  | .batch => 50000000

/-- `sched_switch_to` sets the deadline of the next process. -/
def setDeadline (s : Procs) (next : PcbId) (now : ℕ) : Procs :=
  let quantum := quantumNs (s.pcb next).sched_class
  if quantum > 0 then s.setPcb next { s.pcb next with deadline_ns := (now + quantum) % 2^64 } else s

/-- `sched_switch_to` makes the next process the current one. -/
def makeCurrent (s : Procs) (cur next : PcbId) : Procs :=
  let s := if s.g_reap_waiter ≠ some cur ∧ (s.pcb cur).state = .run then
      s.setPcb cur { s.pcb cur with state := .ready }
    else s
  { s.setPcb next { s.pcb next with state := .run } with g_current := some next }

/-- `sched_switch_to`, at time `now`, up to the change of context. -/
def schedSwitchTo (s : Procs) (next : Option PcbId) (now : ℕ) : Except Fault Procs :=
  match next with
  | none => .ok s
  | some next =>
    if (s.pcb next).rip = 0 then .ok s
    else if s.g_current = some next then .ok s
    else
      match s.g_current with
      -- The state of the null pointer would be saved.
      | none => .error .null
      | some cur => .ok (makeCurrent (setDeadline s next now) cur next)

/-- `sched_tick` and `sched_yield` put the current process back into its queue. -/
def putBack (s : Procs) (cur : PcbId) (requeue : Bool) : Except Fault Procs :=
  if requeue then schedEnqueue s cur else .ok s

/-- The lock, the queues and the switch of `sched_tick` and `sched_yield`; `requeue` says whether the
current process is put back. -/
def reschedule (s : Procs) (cur : PcbId) (requeue : Bool) (now : ℕ) : Except Fault Procs := do
  let s ← s.lock 0
  let s ← putBack s cur requeue
  let (s, next) ← schedDequeue s 0
  schedSwitchTo (s.unlock 0) next now

/-- The priority of an interactive process that `sched_tick` interrupts. -/
def decayed (pcb : Pcb) : ℤ :=
  toInt16 (pcb.priority + (toInt16 (pcb.base_pri - pcb.priority)).tdiv 10)

/-- `sched_tick` lets the priority of an interactive process decay. -/
def decay (s : Procs) (cur : PcbId) : Procs :=
  if (s.pcb cur).sched_class = 1 then s.setPcb cur { s.pcb cur with priority := decayed (s.pcb cur) }
  else s

/-- `sched_tick` at time `now_ns`. -/
def schedTick (s : Procs) (now_ns : ℕ) : Except Fault Procs :=
  if 0 ≥ s.g_cpu_count then .ok s
  else
    match s.g_current, (s.runq 0).idle_pcb with
    | some cur, some idle =>
      if s.g_reap_waiter ≠ none then .ok s
      else if cur = .bootstrap then .ok s
      else
        let s := decay s cur
        if cur ≠ idle ∧ now_ns ≥ (s.pcb cur).deadline_ns ∧ (s.pcb cur).state = .run then
          reschedule s cur true now_ns
        else .ok s
    | _, _ => .ok s

/-- `sched_yield` at time `now`. -/
def schedYield (s : Procs) (now : ℕ) : Except Fault Procs :=
  match s.g_current with
  | none => do
    -- The null pointer is compared, and then given to `sched_enqueue`.
    let s ← s.lock 0
    if (s.runq 0).idle_pcb ≠ none ∧ s.g_reap_waiter ≠ none then .error .null
    else
      let (s, next) ← schedDequeue s 0
      schedSwitchTo (s.unlock 0) next now
  | some cur => reschedule s cur (some cur ≠ (s.runq 0).idle_pcb ∧ some cur ≠ s.g_reap_waiter) now

/-! ## Life and death -/

/-- The bit of `SIGCHLD`. -/
def sigchld : ℕ := 1 <<< 17

/-- The notice of `sched_exit` to the parent. -/
def notifyParent (s : Procs) (cur : PcbId) : Procs :=
  if (s.pcb cur).ppid > 0 then
    match schedFind s (s.pcb cur).ppid with
    | none => s
    | some parent =>
      s.setPcb parent { s.pcb parent with sig_pending := (s.pcb parent).sig_pending ||| sigchld }
  else s

/-- Where control goes at the end of `sched_exit`: back to a call of `sched_reap`, or to a process. -/
inductive ExitTo
  | reap (call : ReapCall)
  | process (next : PcbId)

/-- `spin_lock(&rq->lock); next = sched_dequeue(rq); spin_unlock(&rq->lock);`. -/
def dequeueLocked (s : Procs) : Except Fault (Procs × Option PcbId) := do
  let s ← s.lock 0
  let (s, next) ← schedDequeue s 0
  return (s.unlock 0, next)

/-- The process to which `sched_exit` switches. -/
def exitNext (s : Procs) : Except Fault (Procs × Option PcbId) :=
  match s.g_reap_waiter with
  | none => dequeueLocked s
  | some waiter =>
    if (s.pcb waiter).state ≠ .dead then .ok ({ s with g_reap_waiter := none }, some waiter)
    else dequeueLocked s

/-- The idle process takes the place of a process that is dead. -/
def exitTarget (s : Procs) (next : Option PcbId) : Option PcbId :=
  match next with
  | none => (s.runq 0).idle_pcb
  | some n => if (s.pcb n).state = .dead then (s.runq 0).idle_pcb else some n

/-- The end of `sched_exit` without a call of `sched_reap` to go back to. -/
def exitSwitch (s : Procs) : Except Fault (Procs × ExitTo) := do
  let (s, next) ← exitNext s
  match exitTarget s next with
  | none => .error .null
  | some next =>
    let s := { s with g_current := some next }
    return (s.setPcb next { s.pcb next with state := .run }, .process next)

/-- The current process is dead, and its parent has been told. -/
def die (s : Procs) (cur : PcbId) (code : ℤ) : Procs :=
  let s := notifyParent s cur
  let s := s.setPcb cur { s.pcb cur with exit_code := code, state := .dead }
  { s with g_proc_count := (s.g_proc_count + 2^32 - 1) % 2^32 }

/-- `sched_exit` goes back to the process that waits in `sched_reap`. -/
def exitResume (s : Procs) (waiter : PcbId) : Procs :=
  { s.setPcb waiter { s.pcb waiter with state := .run } with
    g_current := some waiter
    g_reap_jmp_active := false }

/-- `sched_exit` by the current process. -/
def schedExit (s : Procs) (code : ℤ) : Except Fault (Procs × ExitTo) :=
  match s.g_current with
  | none => .error .null
  | some cur =>
    let s := die s cur code
    match s.g_reap_jmp_active, s.g_reap_waiter with
    | true, some waiter =>
      match s.g_reap_jmp with
      | none => .error .null
      | some call => .ok (exitResume s waiter, .reap call)
    | _, _ => exitSwitch s

/-- What a call of `sched_reap` does first: it returns -1, or it runs the child, or it goes on at once
because the child cannot run. -/
inductive ReapStart
  | notFound
  | running (s : Procs)
  | immediate (s : Procs) (call : ReapCall)

/-- The globals that `sched_reap` sets for `sched_exit`. -/
def reapWait (s : Procs) (call : ReapCall) : Procs :=
  { s with g_reap_waiter := some call.waiter, g_reap_jmp_active := true, g_reap_jmp := some call }

/-- The take-off step of `sched_reap`. -/
def reapTakeoff (s : Procs) (p : PcbId) : Except Fault Procs := do
  let s ← s.lock 0
  let s ← schedTakeoffRunqLocked s 0 p
  return s.unlock 0

/-- `sched_reap` goes over to the child. -/
def reapEnter (s : Procs) (p : PcbId) : Procs :=
  { s.setPcb p { s.pcb p with sched_class := 0, priority := 0, state := .run } with g_current := some p }

/-- `sched_reap` up to `sched_jmp_restore` or to the change of context. -/
def schedReap (s : Procs) (pid : ℕ) : Except Fault ReapStart :=
  match schedFind s pid with
  | none => .ok .notFound
  | some p =>
    match s.g_current with
    | none => .error .null
    | some waiter =>
      let call : ReapCall := ⟨p, waiter, (s.pcb p).sched_class, (s.pcb p).priority⟩
      if (s.pcb p).state = .ready ∧ (s.pcb p).rip ≠ 0 then do
        let s ← reapTakeoff (reapWait s call) p
        return .running (reapEnter s p)
      else .ok (.immediate (reapWait s call) call)

/-- The rest of `sched_reap`. Returns `info->exit_code`. -/
def reapFinish (s : Procs) (call : ReapCall) : Procs × ℤ :=
  let s := s.setPcb call.pcb { s.pcb call.pcb with
    sched_class := call.saved_class
    priority := call.saved_pri }
  let s := { s with g_reap_jmp_active := false }
  let s := if (s.pcb call.pcb).state ≠ .dead then
      s.setPcb call.pcb { s.pcb call.pcb with state := .dead, exit_code := -1 }
    else s
  let s := { s with g_reap_waiter := none }
  (s.setPcb call.pcb { s.pcb call.pcb with pid := 0, state := .dead }, (s.pcb call.pcb).exit_code)

/-- `sched_reap`, as far as it gets before another process runs. -/
def reapStart (s : Procs) (pid : ℕ) : Except Fault Procs := do
  match ← schedReap s pid with
  | .notFound => return s
  | .running s => return s
  | .immediate s call => return (reapFinish s call).1

/-- The loop of `sched_spawn` that looks for a free slot. -/
def spawnPid (s : Procs) : ℕ → ℕ → Option ℕ
  | 0, _ => none
  | fuel + 1, pid =>
    let pcb := s.pcb (slotOf pid)
    if pcb.state ≠ .dead ∧ pcb.pid ≠ 0 then
      let pid := (pid + 1) % 2^32
      if pid = s.g_next_pid then none else spawnPid s fuel pid
    else some pid

/-- The slot after `sched_spawn` has zeroed it and filled it in. -/
def fillSlot (s : Procs) (pid sched_class : ℕ) (priority : ℤ) (cpu_affinity : ℕ) : Procs :=
  let p := slotOf pid
  let links := clearNode s.links p
  let s := { s with
    g_next_pid := if (pid + 1) % maxProcs = 0 then 1 else (pid + 1) % maxProcs
    links := { links with color := update links.color p .black } }
  let s := s.setPcb p {
    pid, state := .new, sched_class
    ppid := 0
    priority := toInt16 priority
    base_pri := toInt16 priority
    cpu := if cpu_affinity = 0xFF then s.g_cpu_count % 256 else cpu_affinity
    deadline_ns := 0
    exit_code := 0
    sig_pending := 0
    rip := 0 }
  s.setPcb p { s.pcb p with
    ppid := match s.g_current with
      | none => 1
      | some parent => (s.pcb parent).pid }

/-- `sched_spawn` with the class, priority and affinity of `args`; `kstack` says whether there is memory
for a kernel stack. Returns the pid, or 0. -/
def schedSpawn (s : Procs) (sched_class : ℕ) (priority : ℤ) (cpu_affinity : ℕ) (kstack : Bool) :
    ℕ × Procs :=
  if s.g_proc_count ≥ maxProcs then (0, s)
  else
    match spawnPid s (2^32) s.g_next_pid with
    | none => (0, s)
    | some pid =>
      let s := fillSlot s pid sched_class priority cpu_affinity
      if kstack then
        let s := { s with g_proc_count := (s.g_proc_count + 1) % 2^32 }
        (pid, s.setPcb (slotOf pid) { s.pcb (slotOf pid) with deadline_ns := 2^64 - 1 })
      else (0, s)

end FreeAsd.Sched
