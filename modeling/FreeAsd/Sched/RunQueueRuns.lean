import FreeAsd.Sched.RunQueue

/-!
# Runs of the operations on the run queues

The operations in any order, with everything that the rest of the kernel may do in between. In runs of
operations that are `RunqOp.Proper` the bookkeeping is right (`runq_run`); `runq_run_set` is a run in which it
is not.
-/

namespace FreeAsd.Sched

open Function LinkedTree Relation

/-- A process is in a tree of a run queue. -/
def Procs.InTree (s : Procs) (cpu : ℕ) (q : Queue) (p : PcbId) : Prop :=
  ∃ t, Shows (s.tree cpu q) t ∧ p ∈ t.toList

/-- The counts are the numbers of nodes, the trees are ordered by the current priorities, every process
in a tree is ready and belongs there, and none is in two trees. -/
structure Procs.Bookkept (s : Procs) : Prop where
  tree : ∀ cpu q, ∃ t, Shows (s.tree cpu q) t ∧ (s.runq cpu).count q = t.toList.length ∧
    Sorted s.priority t.toList
  member : ∀ cpu q p, s.InTree cpu q p →
    (s.pcb p).state = .ready ∧ (s.pcb p).cpu = cpu ∧ queueOf (s.pcb p).sched_class = q
  once : ∀ p, s.Queued p → ∃! place : ℕ × Queue, s.InTree place.1 place.2 p

/-- The operations on the run queues. -/
inductive RunqOp
  | enqueue (p : PcbId)
  | dequeue (cpu : ℕ)
  | steal (this_cpu : ℕ)
  | wake (p : PcbId)
  | set (pid cls : ℕ) (priority : ℤ)
  | reap (pid : ℕ)

def RunqOp.exec (s : Procs) : RunqOp → Except Fault Procs
  | enqueue p => schedEnqueue s p
  | dequeue cpu => do
    let (s, _) ← schedDequeue s cpu
    return s
  | steal this_cpu => schedSteal s this_cpu
  | wake p => schedWake s p
  | set pid cls priority => .ok (schedSet s pid cls priority).2
  | reap pid => reapStart s pid

/-- The conditions of the operations. -/
def RunqOp.Proper (s : Procs) : RunqOp → Prop
  | enqueue p => ¬s.Queued p
  | dequeue cpu => cpu < maxCpus
  | steal this_cpu => this_cpu < maxCpus ∧ ∀ p, s.Queued p → (s.pcb p).sched_class ≤ schedBatch
  | wake _ => True
  | set pid _ _ => ∀ p, schedFind s pid = some p → ¬s.Queued p
  | reap pid => ∀ p, schedFind s pid = some p →
      s.g_current ≠ none ∧ (s.Queued p → (s.pcb p).cpu = 0 ∧ (s.pcb p).rip ≠ 0)

/-- What the rest of the kernel may do. -/
structure Procs.Apart (s s' : Procs) : Prop where
  queued : ∀ p, s.Queued p → SameKeys (s.pcb p) (s'.pcb p) ∧ SameAt s.links s'.links p
  parent : ∀ p, ¬s.Queued p → s.links.parent p = none → s'.links.parent p = none
  runq : s'.runq = s.runq
  cpus : s'.g_cpu_count = s.g_cpu_count

/-- Any operation, or a step of the rest of the kernel. -/
inductive RunqStep : Procs → Procs → Prop
  | op {s s' : Procs} (op : RunqOp) (h : op.exec s = .ok s') : RunqStep s s'
  | other {s s' : Procs} (h : s.Apart s') : RunqStep s s'

/-- An operation under its condition, or a step of the rest of the kernel. -/
inductive ProperStep : Procs → Procs → Prop
  | op {s s' : Procs} (op : RunqOp) (hop : op.Proper s) (h : op.exec s = .ok s') : ProperStep s s'
  | other {s s' : Procs} (h : s.Apart s') : ProperStep s s'

variable {s s' : Procs} {T : ℕ → Queue → Tree PcbId} {p : PcbId} {pid : ℕ}

theorem Procs.Inv.ready (h : s.Inv) (hp : s.Queued p) : (s.pcb p).state = .ready := by
  obtain ⟨T, hT⟩ := h
  obtain ⟨cpu, q, hm⟩ := hT.queues.queued_iff.mp hp
  exact ((hT.queues.tree cpu q).member p hm).1

/-- What `sched_reap` leaves behind. -/
theorem reapFinish_eq (s : Procs) (call : ReapCall) :
    reapFinish s call = ({ s.setPcb call.pcb { s.pcb call.pcb with
        sched_class := call.saved_class
        priority := call.saved_pri
        exit_code := if (s.pcb call.pcb).state = .dead then (s.pcb call.pcb).exit_code else -1
        pid := 0
        state := .dead } with
      g_reap_jmp_active := false
      g_reap_waiter := none }, if (s.pcb call.pcb).state = .dead then (s.pcb call.pcb).exit_code else -1) := by
  unfold reapFinish Procs.setPcb
  by_cases h : (s.pcb call.pcb).state = .dead <;> simp [h, update_self]

theorem Procs.Inv.reapFinish (h : s.Inv) {call : ReapCall} (hp : ¬s.Queued call.pcb) :
    (reapFinish s call).1.Inv := by
  rw [reapFinish_eq]
  exact (h.setPcb hp _).congr rfl rfl rfl rfl

/-- The child is taken out of its queue, or it is in none. -/
theorem reapStart_spec (h : s.Inv) (hpid : (RunqOp.reap pid).Proper s) :
    ∃ s', reapStart s pid = .ok s' ∧ s'.Inv := by
  unfold reapStart schedReap
  cases hfind : schedFind s pid with
  | none => exact ⟨s, rfl, h⟩
  | some p =>
    obtain ⟨hcur, hqueued⟩ := hpid p hfind
    obtain ⟨waiter, hwaiter⟩ := Option.ne_none_iff_exists'.mp hcur
    rw [hwaiter]
    dsimp only
    obtain ⟨call, hcall⟩ : ∃ call : ReapCall,
      call = ⟨p, waiter, (s.pcb p).sched_class, (s.pcb p).priority⟩ := ⟨_, rfl⟩
    rw [← hcall]
    have hwait : (reapWait s call).Inv := h.congr rfl rfl rfl rfl
    split_ifs with hrun
    · obtain ⟨s', htake, h', hnone⟩ := reapTakeoff_spec hwait fun hq => (hqueued hq).1
      refine ⟨reapEnter s' p, ?_, (h'.setPcb hnone _).congr rfl rfl rfl rfl⟩
      rw [bind_of_ok htake]
      rfl
    · -- A child in a queue can run.
      have hnone : ¬s.Queued p := fun hq => hrun ⟨h.ready hq, (hqueued hq).2⟩
      refine ⟨_, rfl, hwait.reapFinish ?_⟩
      rw [hcall]
      exact hnone

theorem RunqOp.spec (h : s.Inv) (op : RunqOp) (hop : op.Proper s) : ∃ s', op.exec s = .ok s' ∧ s'.Inv := by
  cases op with
  | enqueue p =>
    obtain ⟨s', hs', h', -⟩ := schedEnqueue_spec h hop
    exact ⟨s', hs', h'⟩
  | dequeue cpu =>
    obtain ⟨T, hT⟩ := h
    obtain ⟨s', n, T', hs', h'⟩ := schedDequeue_spec hT cpu
    refine ⟨s', ?_, T', h'⟩
    exact bind_of_ok hs' _
  | steal this_cpu => exact schedSteal_spec hop.1 h hop.2
  | wake p => exact schedWake_spec h p
  | set pid cls priority =>
    refine ⟨_, rfl, ?_⟩
    unfold schedSet
    cases hfind : schedFind s pid with
    | none => exact h
    | some p => exact h.setPcb (hop p hfind) _
  | reap pid => exact reapStart_spec h hop

theorem Procs.Inv.apart (h : s.Inv) (hs : s.Apart s') : s'.Inv := by
  obtain ⟨T, hT⟩ := h
  refine ⟨T, hT.queues.frame (fun cpu q p hp => ?_) (fun cpu q => ?_) (fun p hp => ?_), fun cpu => ?_, ?_⟩
  · exact hs.queued p (hT.queues.queued_iff.mpr ⟨cpu, q, hp⟩)
  · rw [hs.runq]
    exact ⟨rfl, rfl⟩
  · refine hs.parent p (fun hq => ?_) (hT.queues.parent p hp)
    obtain ⟨cpu, q, hm⟩ := hT.queues.queued_iff.mp hq
    exact hp cpu q hm
  · rw [hs.runq]
    exact hT.locks cpu
  · rw [hs.cpus]
    exact hT.cpus

theorem Procs.Inv.step (h : s.Inv) (hs : ProperStep s s') : s'.Inv := by
  cases hs with
  | op op hop hs =>
    obtain ⟨s'', hs'', h'⟩ := op.spec h hop
    rwa [Except.ok.inj (hs.symm.trans hs'')]
  | other hs => exact h.apart hs

theorem schedInit_inv (cpu_count idle_fn : ℕ) : (schedInit cpu_count idle_fn).Inv := by
  refine ⟨fun _ _ => .leaf, ⟨fun cpu q => ?_, fun _ _ => rfl⟩,
    fun cpu => (schedInit_runq cpu_count idle_fn cpu).1, ?_⟩
  · obtain ⟨htree, hcount⟩ := (schedInit_runq cpu_count idle_fn cpu).2 q
    exact ⟨⟨htree, trivial, List.nodup_nil⟩, ⟨rfl, trivial, 0, rfl⟩, List.Pairwise.nil, hcount, nofun⟩
  · unfold schedInit
    dsimp only
    split_ifs <;> omega

theorem Procs.Queues.inTree_iff (h : s.Queues T) {cpu : ℕ} {q : Queue} :
    s.InTree cpu q p ↔ p ∈ (T cpu q).toList := by
  constructor
  · rintro ⟨t, ht, hp⟩
    rwa [ht.unique (h.tree cpu q).shows] at hp
  · exact fun hp => ⟨_, (h.tree cpu q).shows, hp⟩

theorem Procs.Inv.bookkept (h : s.Inv) : s.Bookkept := by
  obtain ⟨T, hT, -⟩ := h
  constructor
  · intro cpu q
    obtain ⟨hshows, -, hsorted, hcount, -⟩ := hT.tree cpu q
    exact ⟨T cpu q, hshows, hcount, hsorted⟩
  · intro cpu q p hp
    exact (hT.tree cpu q).member p (hT.inTree_iff.mp hp)
  · intro p hp
    obtain ⟨cpu, q, hm⟩ := hT.queued_iff.mp hp
    refine ⟨(cpu, q), hT.inTree_iff.mpr hm, fun place hplace => ?_⟩
    obtain ⟨hcpu, hq⟩ := hT.unique hm (hT.inTree_iff.mp hplace)
    exact Prod.ext hcpu hq

theorem Procs.Apart.refl (s : Procs) : s.Apart s :=
  ⟨fun _ _ => ⟨⟨rfl, rfl, rfl, rfl⟩, rfl, fun _ => rfl, rfl⟩, fun _ _ h => h, rfl, rfl⟩

/-- `sched_spawn` does nothing, or it fills the slot of the pid that it has found. -/
theorem schedSpawn_cases (s : Procs) (sched_class : ℕ) (priority : ℤ) (cpu_affinity : ℕ) (kstack : Bool) :
    ((s.g_proc_count ≥ maxProcs ∨ spawnPid s (2^32) s.g_next_pid = none) ∧
      schedSpawn s sched_class priority cpu_affinity kstack = (0, s)) ∨
    ∃ pid pcb links, s.g_proc_count < maxProcs ∧ spawnPid s (2^32) s.g_next_pid = some pid ∧
      (pcb.pid = pid ∧ pcb.state = .new) ∧ links.parent (slotOf pid) = none ∧
      (∀ v, v ≠ slotOf pid → SameAt s.links links v) ∧
      schedSpawn s sched_class priority cpu_affinity kstack = (if kstack then pid else 0, { s with
        pcb := update s.pcb (slotOf pid) pcb
        links := links
        g_next_pid := if (pid + 1) % maxProcs = 0 then 1 else (pid + 1) % maxProcs
        g_proc_count := if kstack then (s.g_proc_count + 1) % 2^32 else s.g_proc_count }) := by
  unfold schedSpawn
  by_cases hcount : s.g_proc_count ≥ maxProcs
  · exact .inl ⟨.inl hcount, if_pos hcount⟩
  rw [if_neg hcount]
  cases hpid : spawnPid s (2^32) s.g_next_pid with
  | none => exact .inl ⟨.inr rfl, rfl⟩
  | some pid =>
    refine .inr ⟨pid, ?_⟩
    simp only [fillSlot, Procs.setPcb, update_idem, update_self]
    -- The fields that are filled in later are those of the same slot.
    cases kstack
    all_goals
      refine ⟨_, _, Nat.lt_of_not_ge hcount, trivial, ?_, ?_, fun v hv => ?_, rfl⟩
      · exact ⟨rfl, rfl⟩
      · exact update_self ..
      · exact ⟨update_of_ne hv _ _, fun _ => update_of_ne hv _ _, update_of_ne hv _ _⟩

/-- `sched_spawn` is a step of the rest of the kernel if the slot that it takes is in no queue. -/
theorem schedSpawn_apart {sched_class cpu_affinity : ℕ} {priority : ℤ} {kstack : Bool}
    (h : ∀ pid, spawnPid s (2^32) s.g_next_pid = some pid → ¬s.Queued (slotOf pid)) :
    s.Apart (schedSpawn s sched_class priority cpu_affinity kstack).2 := by
  obtain ⟨-, hs⟩ | ⟨pid, pcb, links, -, hpid, -, hparent, hlinks, hs⟩ :=
    schedSpawn_cases s sched_class priority cpu_affinity kstack
  · rw [hs]
    exact .refl s
  rw [hs]
  refine ⟨fun v hv => ?_, fun v _ hv => ?_, rfl, rfl⟩
  · have hne : v ≠ slotOf pid := fun e => h pid hpid (e ▸ hv)
    dsimp only
    rw [update_of_ne hne]
    exact ⟨⟨rfl, rfl, rfl, rfl⟩, hlinks v hne⟩
  · by_cases e : v = slotOf pid
    · rw [e]
      exact hparent
    · exact (hlinks v e).1.trans hv

/-- In every state of a run of proper operations the bookkeeping is right, and every proper operation
comes to an end. -/
theorem runq_run {cpu_count idle_fn : ℕ} (hrun : ReflTransGen ProperStep (schedInit cpu_count idle_fn) s) :
    s.Bookkept ∧ ∀ op : RunqOp, op.Proper s → ∃ s', op.exec s = .ok s' := by
  have hinv : s.Inv := Runs.invariant (P := Procs.Inv) hrun (schedInit_inv cpu_count idle_fn)
    fun _ _ => Procs.Inv.step
  refine ⟨hinv.bookkept, fun op hop => ?_⟩
  obtain ⟨s', hs', -⟩ := op.spec hinv hop
  exact ⟨s', hs'⟩

/-- A process that is put into another class while it is in a queue is then in the wrong tree. -/
theorem schedSet_not_bookkept (h : s.Inv) (hfind : schedFind s pid = some p) (hp : s.Queued p) {cls : ℕ}
    (hcls : queueOf (cls % 256) ≠ queueOf (s.pcb p).sched_class) (priority : ℤ) :
    ¬(schedSet s pid cls priority).2.Bookkept := by
  intro hkept
  unfold schedSet at hkept
  rw [hfind] at hkept
  obtain ⟨T, hT, -⟩ := h
  obtain ⟨cpu, q, hm⟩ := hT.queued_iff.mp hp
  have hq := ((hT.tree cpu q).member p hm).2.2
  have hq' := (hkept.member cpu q p ⟨T cpu q, (hT.tree cpu q).shows, hm⟩).2.2
  rw [show ∀ pcb, (s.setPcb p pcb).pcb p = pcb from fun _ => update_self ..] at hq'
  exact hcls (hq'.trans hq.symm)

/-- Nothing is queued as long as the run queues are those that `sched_init` made. -/
theorem not_queued_of_schedInit (cpu_count idle_fn : ℕ) (h : s.runq = (schedInit cpu_count idle_fn).runq) :
    ¬s.Queued p := by
  rintro ⟨cpu, q, t, ht, hp⟩
  have hroot : (s.runq cpu).tree q = none := by
    rw [h]
    exact ((schedInit_runq cpu_count idle_fn cpu).2 q).1
  rw [Tree.eq_leaf_of_root (ht.root.symm.trans hroot)] at hp
  exact List.not_mem_nil hp

theorem spawnPid_free {fuel : ℕ} (h : (s.pcb (slotOf pid)).pid = 0) : spawnPid s (fuel + 1) pid = some pid := by
  unfold spawnPid
  rw [if_neg fun hp => hp.2 h]

/-- A batch process, made after the start of one CPU. -/
def oneProcess : Procs := (schedSpawn (schedInit 1 0) schedBatch 10 0 true).2

theorem oneProcess_eq : spawnPid (schedInit 1 0) (2^32) 1 = some 1 := spawnPid_free rfl

theorem oneProcess_apart : (schedInit 1 0).Apart oneProcess :=
  schedSpawn_apart fun _ _ => not_queued_of_schedInit 1 0 rfl

theorem oneProcess_pcb : (oneProcess.pcb (slotOf 1)).pid = 1 ∧
    (oneProcess.pcb (slotOf 1)).sched_class = schedBatch := by
  unfold oneProcess schedSpawn
  rw [show (schedInit 1 0).g_next_pid = 1 from rfl, oneProcess_eq]
  exact ⟨rfl, rfl⟩

/-- The process is put into its queue. -/
theorem oneProcess_enqueue : ∃ s, RunqOp.exec oneProcess (.enqueue (slotOf 1)) = .ok s ∧
    RunqOp.Proper oneProcess (.enqueue (slotOf 1)) ∧ s.Inv ∧ s.Queued (slotOf 1) ∧
      schedFind s 1 = some (slotOf 1) ∧ (s.pcb (slotOf 1)).sched_class = schedBatch := by
  have hinv := (schedInit_inv 1 0).apart oneProcess_apart
  have hnot : ¬oneProcess.Queued (slotOf 1) := not_queued_of_schedInit 1 0 oneProcess_apart.runq
  obtain ⟨hpid, hclass⟩ := oneProcess_pcb
  obtain ⟨s, hs, h, hqueued, hpcb⟩ := schedEnqueue_spec hinv hnot
  refine ⟨s, hs, hnot, h, hqueued, ?_, ?_⟩
  · unfold schedFind
    dsimp only
    rw [if_neg (by decide), hpcb, if_pos ⟨hpid, nofun⟩]
  · rw [hpcb]
    exact hclass

/-- A run in which the bookkeeping is right, with a process in a queue. -/
theorem runq_run_enqueue : ∃ s, ReflTransGen ProperStep (schedInit 1 0) s ∧
    s.Queued (slotOf 1) ∧ s.Bookkept := by
  obtain ⟨s, hs, hop, -, hqueued, -⟩ := oneProcess_enqueue
  have hrun : ReflTransGen ProperStep (schedInit 1 0) s :=
    (ReflTransGen.single (.other oneProcess_apart)).tail (.op _ hop hs)
  exact ⟨s, hrun, hqueued, (runq_run hrun).1⟩

/-- A run in which it is not: a batch process is enqueued and then put into the real-time class. -/
theorem runq_run_set : ∃ s, ReflTransGen RunqStep (schedInit 1 0) s ∧ ¬s.Bookkept := by
  obtain ⟨s, hs, -, h, hqueued, hfind, hclass⟩ := oneProcess_enqueue
  have hrun : ReflTransGen RunqStep (schedInit 1 0) s :=
    (ReflTransGen.single (.other oneProcess_apart)).tail (.op _ hs)
  refine ⟨_, hrun.tail (.op (.set 1 0 0) rfl), schedSet_not_bookkept h hfind hqueued ?_ 0⟩
  rw [hclass]
  decide

end FreeAsd.Sched
