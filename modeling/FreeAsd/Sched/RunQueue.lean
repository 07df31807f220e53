import Mathlib.Data.List.Perm.Subperm
import FreeAsd.Lib.Runs
import FreeAsd.Sched.Process
import FreeAsd.Sched.RbRemove

/-!
# The bookkeeping of the run queues

`Procs.Queues s T` says that the trees of `s` are `T`, with the right counts and processes; `Procs.Ordered`
adds which locks are taken, and `Procs.Inv` is the case of none. That a change in one tree leaves the others as
they are is proved once (`Queues.setTree`, `Queues.frame`).
-/

namespace FreeAsd.Sched

open Function LinkedTree List Procs

/-- A tree of a run queue is as it should be: its count is right, it is ordered by the priorities, and
each process in it is ready and belongs there by its class and its CPU. -/
structure Procs.TreeOk (s : Procs) (cpu : ℕ) (q : Queue) (t : Tree PcbId) : Prop where
  shows : Shows (s.tree cpu q) t
  redBlack : t.RedBlack
  sorted : Sorted s.priority t.toList
  count : (s.runq cpu).count q = t.toList.length
  member : ∀ p ∈ t.toList, (s.pcb p).state = .ready ∧ (s.pcb p).cpu = cpu ∧
    queueOf (s.pcb p).sched_class = q

/-- All trees are as they should be, and the nodes of the other processes have no parent. -/
structure Procs.Queues (s : Procs) (T : ℕ → Queue → Tree PcbId) : Prop where
  tree : ∀ cpu q, s.TreeOk cpu q (T cpu q)
  parent : ∀ p, (∀ cpu q, p ∉ (T cpu q).toList) → s.links.parent p = none

/-- The fields that say where a process belongs. -/
structure SameKeys (a b : Pcb) : Prop where
  state : b.state = a.state
  cpu : b.cpu = a.cpu
  sched_class : b.sched_class = a.sched_class
  priority : b.priority = a.priority

/-- Another tree in one place. -/
def replaceTree (T : ℕ → Queue → Tree PcbId) (cpu : ℕ) (q : Queue) (t : Tree PcbId) :
    ℕ → Queue → Tree PcbId :=
  Function.update T cpu (Function.update (T cpu) q t)

variable {s : Procs} {T : ℕ → Queue → Tree PcbId} {cpu : ℕ} {q : Queue} {p : PcbId}

/-- The number of a process control block. -/
def PcbId.index : PcbId → ℕ
  | .slot i => i
  | .idle cpu => maxProcs + cpu
  | .bootstrap => maxProcs + maxCpus

theorem PcbId.index_injective : Function.Injective PcbId.index := by
  intro a b h
  cases a <;> cases b <;> simp only [PcbId.index] at h
  case slot.slot i j => exact congrArg _ (Fin.ext h)
  case idle.idle c c' => exact congrArg _ (Fin.ext (add_left_cancel h))
  case bootstrap.bootstrap => rfl
  all_goals omega

theorem PcbId.index_lt (p : PcbId) : p.index < maxProcs + maxCpus + 1 := by
  cases p <;> simp only [PcbId.index] <;> omega

theorem length_lt_nodeFuel {l : List PcbId} (h : l.Nodup) : l.length < nodeFuel := by
  have hsub : (l.map PcbId.index).Subperm (List.range (maxProcs + maxCpus + 1)) := by
    refine List.Nodup.subperm (h.map PcbId.index_injective) fun i hi => ?_
    obtain ⟨p, -, rfl⟩ := mem_map.mp hi
    exact mem_range.mpr p.index_lt
  have hlen := hsub.length_le
  rw [length_map, length_range] at hlen
  exact Nat.lt_succ_of_le hlen

theorem replaceTree_self (t : Tree PcbId) : replaceTree T cpu q t cpu q = t := by
  simp [replaceTree]

theorem replaceTree_of_ne {cpu' : ℕ} {q' : Queue} (t : Tree PcbId) (h : ¬(cpu' = cpu ∧ q' = q)) :
    replaceTree T cpu q t cpu' q' = T cpu' q' := by
  unfold replaceTree
  by_cases hc : cpu' = cpu
  · subst hc
    rw [update_self, update_of_ne fun e => h ⟨rfl, e⟩]
  · rw [update_of_ne hc]

section setTree

variable {t : LinkedTree PcbId} {n cpu' : ℕ} {q' : Queue}

theorem Procs.tree_setTree_self : (s.setTree cpu q t n).tree cpu q = t := by
  unfold setTree tree setRunq
  simp

theorem Procs.runq_setTree_of_ne (h : ¬(cpu' = cpu ∧ q' = q)) :
    ((s.setTree cpu q t n).runq cpu').tree q' = (s.runq cpu').tree q' ∧
      ((s.setTree cpu q t n).runq cpu').count q' = (s.runq cpu').count q' := by
  unfold setTree setRunq
  by_cases hc : cpu' = cpu
  · subst hc
    simp [update_of_ne fun e => h ⟨rfl, e⟩]
  · simp [update_of_ne hc]

theorem Procs.tree_setTree_of_ne (h : ¬(cpu' = cpu ∧ q' = q)) :
    (s.setTree cpu q t n).tree cpu' q' = ⟨t.toLinks, (s.runq cpu').tree q'⟩ := by
  rw [tree, (runq_setTree_of_ne h).1]
  rfl

theorem Procs.count_setTree_self : ((s.setTree cpu q t n).runq cpu).count q = n := by
  unfold setTree setRunq
  simp

theorem Procs.lock_setTree : ((s.setTree cpu q t n).runq cpu').lock = (s.runq cpu').lock := by
  unfold setTree setRunq
  by_cases hc : cpu' = cpu
  · subst hc
    simp
  · simp [update_of_ne hc]

end setTree

namespace Procs.Queues

variable (h : s.Queues T)

include h

/-- The tree of a queued process is determined by its fields. -/
theorem unique {cpu' : ℕ} {q' : Queue} (hp : p ∈ (T cpu q).toList) (hp' : p ∈ (T cpu' q').toList) :
    cpu' = cpu ∧ q' = q := by
  obtain ⟨-, hc, hq⟩ := (h.tree cpu q).member p hp
  obtain ⟨-, hc', hq'⟩ := (h.tree cpu' q').member p hp'
  exact ⟨hc'.symm.trans hc, hq'.symm.trans hq⟩

/-- A tree is written back, with nodes that belong there. -/
theorem setTree {t : LinkedTree PcbId} {T' : Tree PcbId} (hT : Shows t T') (hrb : T'.RedBlack)
    (hsorted : Sorted s.priority T'.toList)
    (hmem : ∀ v ∈ T'.toList, (s.pcb v).state = .ready ∧ (s.pcb v).cpu = cpu ∧
      queueOf (s.pcb v).sched_class = q)
    (hoff : ∀ v, v ∉ (T cpu q).toList → v ∉ T'.toList → SameAt s.links t.toLinks v)
    (hparent : ∀ v ∈ (T cpu q).toList, v ∉ T'.toList → t.parent v = none) :
    (s.setTree cpu q t T'.toList.length).Queues (replaceTree T cpu q T') := by
  constructor
  · intro cpu' q'
    by_cases e : cpu' = cpu ∧ q' = q
    · obtain ⟨rfl, rfl⟩ := e
      rw [replaceTree_self]
      exact ⟨tree_setTree_self.symm ▸ hT, hrb, hsorted, count_setTree_self, hmem⟩
    rw [replaceTree_of_ne T' e]
    obtain ⟨hshows, hrb', hsorted', hcount, hmem'⟩ := h.tree cpu' q'
    refine ⟨?_, hrb', hsorted', (runq_setTree_of_ne e).2.trans hcount, hmem'⟩
    -- The nodes of the other trees are not touched.
    rw [tree_setTree_of_ne e]
    refine hshows.congr rfl fun v hv => hoff v (fun hm => e (h.unique hm hv)) fun hm => ?_
    obtain ⟨-, hc, hq⟩ := hmem v hm
    obtain ⟨-, hc', hq'⟩ := hmem' v hv
    exact e ⟨hc'.symm.trans hc, hq'.symm.trans hq⟩
  · intro v hv
    have hvT' : v ∉ T'.toList := by
      have := hv cpu q
      rwa [replaceTree_self] at this
    by_cases hvT : v ∈ (T cpu q).toList
    · exact hparent v hvT hvT'
    refine (hoff v hvT hvT').1.trans (h.parent v fun cpu' q' => ?_)
    by_cases e : cpu' = cpu ∧ q' = q
    · rw [e.1, e.2]
      exact hvT
    · have := hv cpu' q'
      rwa [replaceTree_of_ne T' e] at this

/-- A process that is in no tree is put where it belongs. -/
theorem insert (hp : ∀ cpu q, p ∉ (T cpu q).toList) (hstate : (s.pcb p).state = .ready)
    (hcpu : (s.pcb p).cpu = cpu) (hq : queueOf (s.pcb p).sched_class = q) :
    ∃ t T', s.insert cpu q p = .ok (s.setTree cpu q t T'.toList.length) ∧
      (s.setTree cpu q t T'.toList.length).Queues (replaceTree T cpu q T') ∧
      ∀ v, v ∈ T'.toList ↔ v = p ∨ v ∈ (T cpu q).toList := by
  obtain ⟨hshows, hrb, hsorted, hcount, hmem⟩ := h.tree cpu q
  obtain ⟨t, T', A, B, ht, hT', hrb', hAB, hlist, hA, hB, hoff⟩ := rbInsert_spec hshows hrb (hp cpu q)
    hsorted (length_lt_nodeFuel hshows.nodup) (s.pcb p).priority
  have hmem' : ∀ v, v ∈ T'.toList ↔ v = p ∨ v ∈ (T cpu q).toList := by
    intro v
    rw [hlist, hAB]
    simp only [mem_append, mem_cons]
    tauto
  refine ⟨t, T', ?_, h.setTree hT' hrb' ?_ (fun v hv => ?_) (fun v hv hv' => ?_) (fun v hv hv' => ?_), hmem'⟩
  · have hcount' : ((s.runq cpu).count q + 1) % 2^32 = T'.toList.length := by
      have hlen : T'.toList.length < 2^32 := Nat.lt_trans (length_lt_nodeFuel hT'.nodup) (by decide)
      rw [hcount, hAB]
      rw [hlist] at hlen ⊢
      simp only [length_append, length_cons] at hlen ⊢
      omega
    unfold Procs.insert
    rw [ht, ← hcount']
  · rw [hAB] at hsorted
    obtain ⟨hsA, hsB, hsAB⟩ := pairwise_append.mp hsorted
    rw [hlist]
    refine pairwise_append.mpr ⟨hsA, pairwise_cons.mpr ⟨fun v hv => Int.le_of_lt (hB v hv), hsB⟩, ?_⟩
    intro v hv w hw
    rcases mem_cons.mp hw with rfl | hw
    · exact hA v hv
    · exact hsAB v hv w hw
  · rcases (hmem' v).mp hv with rfl | hv
    · exact ⟨hstate, hcpu, hq⟩
    · exact hmem v hv
  · refine hoff v fun hm => ?_
    rcases mem_cons.mp hm with rfl | hm
    · exact hv' ((hmem' v).mpr (.inl rfl))
    · exact hv hm
  · exact absurd ((hmem' v).mpr (.inr hv)) hv'

/-- A process is taken out of its tree. -/
theorem remove (hp : p ∈ (T cpu q).toList) :
    ∃ t T', s.remove cpu q p = .ok (s.setTree cpu q t T'.toList.length) ∧
      (s.setTree cpu q t T'.toList.length).Queues (replaceTree T cpu q T') ∧
      ∀ v, v ∈ T'.toList ↔ v ≠ p ∧ v ∈ (T cpu q).toList := by
  obtain ⟨hshows, hrb, hsorted, hcount, hmem⟩ := h.tree cpu q
  obtain ⟨t, T', A, B, ht, hT', hrb', hAB, hlist, ⟨hparent, -⟩, hoff⟩ := rbRemoveNode_spec hshows hrb hp
    (length_lt_nodeFuel hshows.nodup)
  have hnodup := hshows.nodup
  rw [hAB] at hnodup
  have hpAB : p ∉ A ++ B := (nodup_cons.mp (perm_middle.nodup_iff.mp hnodup)).1
  have hmem' : ∀ v, v ∈ T'.toList ↔ v ≠ p ∧ v ∈ (T cpu q).toList := by
    intro v
    rw [hlist, hAB]
    constructor
    · intro hv
      refine ⟨fun e => hpAB (e ▸ hv), ?_⟩
      simp only [mem_append, mem_cons] at hv ⊢
      tauto
    · rintro ⟨hne, hv⟩
      simp only [mem_append, mem_cons] at hv ⊢
      tauto
  refine ⟨t, T', ?_, h.setTree hT' hrb' ?_ (fun v hv => ?_) (fun v hv _ => ?_) (fun v hv hv' => ?_), hmem'⟩
  · have hcount' : ((s.runq cpu).count q + 2^32 - 1) % 2^32 = T'.toList.length := by
      have hlen : T'.toList.length < 2^32 := Nat.lt_trans (length_lt_nodeFuel hT'.nodup) (by decide)
      rw [hcount, hAB]
      rw [hlist] at hlen ⊢
      simp only [length_append, length_cons] at hlen ⊢
      omega
    unfold Procs.remove
    rw [ht, ← hcount']
  · rw [hAB] at hsorted
    rw [hlist]
    exact hsorted.sublist ((sublist_cons_self p B).append_left A)
  · exact hmem v ((hmem' v).mp hv).2
  · exact hoff v hv
  · obtain rfl : v = p := by
      by_contra hne
      exact hv' ((hmem' v).mpr ⟨hne, hv⟩)
    exact hparent

/-- What is not looked at may change: the other fields of the processes, the locks, and the nodes that
are in no tree. -/
theorem frame {s' : Procs}
    (hpcb : ∀ cpu q, ∀ v ∈ (T cpu q).toList, SameKeys (s.pcb v) (s'.pcb v) ∧ SameAt s.links s'.links v)
    (htree : ∀ cpu q, (s'.runq cpu).tree q = (s.runq cpu).tree q ∧
      (s'.runq cpu).count q = (s.runq cpu).count q)
    (hparent : ∀ p, (∀ cpu q, p ∉ (T cpu q).toList) → s'.links.parent p = none) : s'.Queues T := by
  refine ⟨fun cpu q => ?_, hparent⟩
  obtain ⟨hshows, hrb, hsorted, hcount, hmem⟩ := h.tree cpu q
  have hkeys : ∀ v ∈ (T cpu q).toList, SameKeys (s.pcb v) (s'.pcb v) := fun v hv => (hpcb cpu q v hv).1
  refine ⟨hshows.congr (htree cpu q).1 fun v hv => (hpcb cpu q v hv).2, hrb, ?_,
    (htree cpu q).2.trans hcount, fun v hv => ?_⟩
  · refine hsorted.imp_of_mem fun {v w} hv hw hvw => ?_
    unfold priority at hvw ⊢
    rwa [(hkeys v hv).priority, (hkeys w hw).priority]
  · rw [(hkeys v hv).state, (hkeys v hv).cpu, (hkeys v hv).sched_class]
    exact hmem v hv

theorem leftmost (cpu : ℕ) (q : Queue) : s.leftmost cpu q = .ok (T cpu q).toList.head? := by
  obtain ⟨hshows, -⟩ := h.tree cpu q
  unfold Procs.leftmost
  rw [rbLeftmost_spec (length_lt_nodeFuel hshows.nodup) hshows]

/-- A tree with a positive count has a first process. -/
theorem exists_head (hcount : (s.runq cpu).count q > 0) :
    ∃ p ∈ (T cpu q).toList, (T cpu q).toList.head? = some p := by
  rw [(h.tree cpu q).count] at hcount
  cases hlist : (T cpu q).toList with
  | nil => exact absurd hcount (by simp [hlist])
  | cons p l => exact ⟨p, mem_cons_self, rfl⟩

end Procs.Queues

/-! ## The operations -/

/-- A process is in some tree. -/
def Procs.Queued (s : Procs) (p : PcbId) : Prop :=
  ∃ cpu q t, Shows (s.tree cpu q) t ∧ p ∈ t.toList

theorem Procs.Queues.queued_iff (h : s.Queues T) : s.Queued p ↔ ∃ cpu q, p ∈ (T cpu q).toList := by
  constructor
  · rintro ⟨cpu, q, t, ht, hp⟩
    rw [ht.unique (h.tree cpu q).shows] at hp
    exact ⟨cpu, q, hp⟩
  · rintro ⟨cpu, q, hp⟩
    exact ⟨cpu, q, _, (h.tree cpu q).shows, hp⟩

theorem Procs.Queues.notMem (h : s.Queues T) (hp : ¬s.Queued p) (cpu : ℕ) (q : Queue) : p ∉ (T cpu q).toList :=
  fun hm => hp (h.queued_iff.mpr ⟨cpu, q, hm⟩)

/-- The queues are as they should be, and `L` says which locks are taken. -/
structure Procs.Ordered (s : Procs) (T : ℕ → Queue → Tree PcbId) (L : ℕ → Bool) : Prop where
  queues : s.Queues T
  locks : ∀ cpu, (s.runq cpu).lock = L cpu
  cpus : s.g_cpu_count ≤ maxCpus

namespace Procs.Ordered

variable {L : ℕ → Bool} (h : s.Ordered T L)

include h

/-- The fields of a process that is in no tree may be changed. -/
theorem setPcb (hp : ∀ cpu q, p ∉ (T cpu q).toList) (pcb : Pcb) : (s.setPcb p pcb).Ordered T L := by
  refine ⟨h.queues.frame (fun cpu q v hv => ⟨?_, rfl, fun _ => rfl, rfl⟩) (fun _ _ => ⟨rfl, rfl⟩)
    h.queues.parent, h.locks, h.cpus⟩
  have hne : v ≠ p := fun e => hp cpu q (e ▸ hv)
  have hsame : (s.setPcb p pcb).pcb v = s.pcb v := update_of_ne hne _ _
  rw [hsame]
  exact ⟨rfl, rfl, rfl, rfl⟩

theorem setLock (cpu : ℕ) (b : Bool) :
    (s.setRunq cpu { s.runq cpu with lock := b }).Ordered T (update L cpu b) := by
  refine ⟨h.queues.frame (fun _ _ _ _ => ⟨⟨rfl, rfl, rfl, rfl⟩, rfl, fun _ => rfl, rfl⟩) (fun cpu' q' => ?_)
    h.queues.parent, fun cpu' => ?_, h.cpus⟩
  all_goals
    unfold setRunq
    by_cases e : cpu' = cpu
  · subst e
    simp
  · simp [update_of_ne e]
  · subst e
    simp
  · simp [update_of_ne e, h.locks cpu']

theorem lock (cpu : ℕ) (hcpu : L cpu = false) :
    ∃ s', s.lock cpu = .ok s' ∧ s'.Ordered T (update L cpu true) ∧ s'.pcb = s.pcb := by
  refine ⟨_, ?_, h.setLock cpu true, rfl⟩
  unfold Procs.lock
  rw [h.locks cpu, hcpu]
  rfl

omit h in
/-- The lock that an operation has taken is free again. -/
theorem unlock (h : s.Ordered T (update L cpu true)) (hcpu : L cpu = false) : (s.unlock cpu).Ordered T L := by
  have hupdate : update (update L cpu true) cpu false = L := by
    rw [update_idem, ← hcpu, update_eq_self]
  exact hupdate ▸ h.setLock cpu false

/-- A node that is in no tree may be cleared. -/
theorem clearNode (hp : ∀ cpu q, p ∉ (T cpu q).toList) :
    { s with links := clearNode s.links p }.Ordered T L := by
  refine ⟨h.queues.frame (fun cpu q v hv => ⟨⟨rfl, rfl, rfl, rfl⟩, ?_⟩) (fun _ _ => ⟨rfl, rfl⟩)
    fun v hv => ?_, h.locks, h.cpus⟩
  · have hne : v ≠ p := fun e => hp cpu q (e ▸ hv)
    exact ⟨update_of_ne hne _ _, fun _ => update_of_ne hne _ _, rfl⟩
  · by_cases e : v = p
    · subst e
      exact update_self ..
    · exact (update_of_ne e _ _).trans (h.queues.parent v hv)

theorem insert (hp : ∀ cpu q, p ∉ (T cpu q).toList) (hstate : (s.pcb p).state = .ready)
    (hcpu : (s.pcb p).cpu = cpu) (hq : queueOf (s.pcb p).sched_class = q) :
    ∃ s' T', s.insert cpu q p = .ok s' ∧ s'.Ordered T' L ∧ s'.pcb = s.pcb ∧ p ∈ (T' cpu q).toList ∧
      ∀ cpu' q', ∀ v ∈ (T' cpu' q').toList, v = p ∨ v ∈ (T cpu' q').toList := by
  obtain ⟨t, T', ht, h', hmem⟩ := h.queues.insert hp hstate hcpu hq
  refine ⟨_, _, ht, ⟨h', fun cpu' => lock_setTree.trans (h.locks cpu'), h.cpus⟩, rfl, ?_,
    fun cpu' q' v hv => ?_⟩
  · rw [replaceTree_self]
    exact (hmem p).mpr (.inl rfl)
  by_cases e : cpu' = cpu ∧ q' = q
  · obtain ⟨rfl, rfl⟩ := e
    rw [replaceTree_self] at hv
    exact (hmem v).mp hv
  · rw [replaceTree_of_ne T' e] at hv
    exact .inr hv

theorem remove (hp : p ∈ (T cpu q).toList) :
    ∃ s' T', s.remove cpu q p = .ok s' ∧ s'.Ordered T' L ∧ s'.pcb = s.pcb ∧
      ∀ cpu' q', ∀ v ∈ (T' cpu' q').toList, v ≠ p ∧ v ∈ (T cpu' q').toList := by
  obtain ⟨t, T', ht, h', hmem⟩ := h.queues.remove hp
  refine ⟨_, _, ht, ⟨h', fun cpu' => lock_setTree.trans (h.locks cpu'), h.cpus⟩, rfl, fun cpu' q' v hv => ?_⟩
  by_cases e : cpu' = cpu ∧ q' = q
  · obtain ⟨rfl, rfl⟩ := e
    rw [replaceTree_self] at hv
    exact (hmem v).mp hv
  · rw [replaceTree_of_ne T' e] at hv
    refine ⟨fun hv' => e ?_, hv⟩
    subst hv'
    exact h.queues.unique hp hv

end Procs.Ordered

/-- What holds between two calls of the scheduler. -/
def Procs.Inv (s : Procs) : Prop := ∃ T, s.Ordered T fun _ => false

theorem Procs.Inv.setPcb (h : s.Inv) (hp : ¬s.Queued p) (pcb : Pcb) : (s.setPcb p pcb).Inv := by
  obtain ⟨T, hT⟩ := h
  exact ⟨T, hT.setPcb (hT.queues.notMem hp) pcb⟩

/-- The other variables of the scheduler do not matter. -/
theorem Procs.Inv.congr (h : s.Inv) {s' : Procs} (hpcb : s'.pcb = s.pcb) (hlinks : s'.links = s.links)
    (hrunq : s'.runq = s.runq) (hcpus : s'.g_cpu_count = s.g_cpu_count) : s'.Inv := by
  obtain ⟨T, hT⟩ := h
  refine ⟨T, hT.queues.frame (fun cpu q v _ => ?_) (fun cpu q => ?_) fun p hp => ?_, fun cpu => ?_, ?_⟩
  · rw [hpcb, hlinks]
    exact ⟨⟨rfl, rfl, rfl, rfl⟩, rfl, fun _ => rfl, rfl⟩
  · rw [hrunq]
    exact ⟨rfl, rfl⟩
  · rw [hlinks]
    exact hT.queues.parent p hp
  · rw [hrunq]
    exact hT.locks cpu
  · rw [hcpus]
    exact hT.cpus

theorem schedInit_runq (cpu_count idle_fn cpu : ℕ) :
    ((schedInit cpu_count idle_fn).runq cpu).lock = false ∧ ∀ q,
      ((schedInit cpu_count idle_fn).runq cpu).tree q = none ∧
        ((schedInit cpu_count idle_fn).runq cpu).count q = 0 := by
  unfold schedInit
  dsimp only
  split_ifs <;> exact ⟨rfl, fun _ => ⟨rfl, rfl⟩⟩

/-- The CPU chosen by the loop is one of those it looks at, or the one it starts with. -/
theorem leastLoaded_lt (s : Procs) {bound : ℕ} (n i min_load cpu : ℕ) (hi : i + n ≤ bound)
    (hcpu : cpu < bound) : leastLoaded s n i min_load cpu < bound := by
  induction n generalizing i min_load cpu with
  | zero => exact hcpu
  | succ n ih =>
    unfold leastLoaded
    dsimp only
    split_ifs
    · exact ih _ _ _ (by omega) (by omega)
    · exact ih _ _ _ (by omega) hcpu

theorem enqueueCpu_lt (hcpus : s.g_cpu_count ≤ maxCpus) : enqueueCpu s p < maxCpus := by
  unfold enqueueCpu
  split_ifs with h
  · exact leastLoaded_lt s _ _ _ _ (by omega) (by decide)
  · omega

theorem schedEnqueue_spec (h : s.Inv) (hp : ¬s.Queued p) :
    ∃ s', schedEnqueue s p = .ok s' ∧ s'.Inv ∧ s'.Queued p ∧
      s'.pcb p = { s.pcb p with cpu := enqueueCpu s p % 256, state := .ready } := by
  obtain ⟨T, hT⟩ := h
  have hp := hT.queues.notMem hp
  obtain ⟨cpu, hcpu⟩ : ∃ cpu, cpu = enqueueCpu s p := ⟨_, rfl⟩
  have hlt : cpu < maxCpus := hcpu ▸ enqueueCpu_lt hT.cpus
  have hmod : cpu % 256 = cpu := Nat.mod_eq_of_lt (Nat.lt_of_lt_of_le hlt (by decide))
  -- The process becomes ready, the lock is taken, and the node is inserted.
  generalize hpcb : { s.pcb p with cpu := cpu % 256, state := .ready } = pcb
  obtain ⟨s₁, hlock, h₁, hpcb₁⟩ := (hT.setPcb hp pcb).lock cpu rfl
  replace hpcb₁ : s₁.pcb p = pcb := hpcb₁ ▸ update_self ..
  have hstate : (s₁.pcb p).state = .ready := by rw [hpcb₁, ← hpcb]
  have hpcpu : (s₁.pcb p).cpu = cpu := by rw [hpcb₁, ← hpcb]; exact hmod
  obtain ⟨s₂, T', hinsert, h₂, hpcb₂, hmem, -⟩ := h₁.insert hp hstate hpcpu rfl
  have h₃ : (s₂.unlock cpu).Ordered T' fun _ => false := h₂.unlock rfl
  refine ⟨s₂.unlock cpu, ?_, ⟨T', h₃⟩, h₃.queues.queued_iff.mpr ⟨cpu, _, hmem⟩, ?_⟩
  swap
  · rw [← hcpu, hpcb, ← hpcb₁, ← hpcb₂]
    rfl
  unfold schedEnqueue
  dsimp only
  rw [← hcpu, hpcb, bind_of_ok hlock, bind_of_ok hinsert]
  rfl

theorem schedWake_spec (h : s.Inv) (p : PcbId) : ∃ s', schedWake s p = .ok s' ∧ s'.Inv := by
  unfold schedWake
  split_ifs with hwait hintr
  · exact ⟨s, rfl, h⟩
  all_goals
    -- A process that waits is in no queue.
    have hp : ¬s.Queued p := by
      obtain ⟨T, hT⟩ := h
      intro hq
      obtain ⟨cpu, q, hm⟩ := hT.queues.queued_iff.mp hq
      obtain ⟨hready, -⟩ := (hT.queues.tree cpu q).member p hm
      rw [hready] at hwait
      exact hwait nofun
  · obtain ⟨T, hT⟩ := h
    obtain ⟨s', hs', h', -⟩ := schedEnqueue_spec ⟨T, hT.setPcb (hT.queues.notMem hp) _⟩ hp
    exact ⟨s', hs', h'⟩
  · obtain ⟨s', hs', h', -⟩ := schedEnqueue_spec h hp
    exact ⟨s', hs', h'⟩

theorem dequeueTree_count {rq : Runq} (h : dequeueTree rq = some q) : rq.count q > 0 := by
  unfold dequeueTree at h
  split_ifs at h with h1 h2 h3
  · exact Option.some.inj h ▸ h1
  · exact Option.some.inj h ▸ h2
  · exact Option.some.inj h ▸ h3

theorem schedDequeue_spec {L : ℕ → Bool} (h : s.Ordered T L) (cpu : ℕ) :
    ∃ s' n T', schedDequeue s cpu = .ok (s', n) ∧ s'.Ordered T' L := by
  unfold schedDequeue
  cases hq : dequeueTree (s.runq cpu) with
  | none => exact ⟨s, _, T, rfl, h⟩
  | some q =>
    obtain ⟨p, hp, hhead⟩ := h.queues.exists_head (dequeueTree_count hq)
    obtain ⟨s', T', hremove, h', -⟩ := h.remove hp
    refine ⟨s', some p, T', ?_, h'⟩
    dsimp only
    rw [h.queues.leftmost cpu q, hhead]
    exact bind_of_ok hremove _

/-- The take-off leaves the process in no tree, if it was in none of another CPU. -/
theorem schedTakeoffRunqLocked_spec {L : ℕ → Bool} (h : s.Ordered T L)
    (hp : ∀ cpu' q, p ∈ (T cpu' q).toList → cpu' = cpu) :
    ∃ s' T', schedTakeoffRunqLocked s cpu p = .ok s' ∧ s'.Ordered T' L ∧
      ∀ cpu q, p ∉ (T' cpu q).toList := by
  generalize hq : queueOf (s.pcb p).sched_class = q
  have hshows := (h.queues.tree cpu q).shows
  unfold schedTakeoffRunqLocked
  dsimp only
  rw [hq]
  by_cases hm : p ∈ (T cpu q).toList
  · have hready := ((h.queues.tree cpu q).member p hm).1
    have hcount : (s.runq cpu).count q ≠ 0 := by
      rw [(h.queues.tree cpu q).count]
      exact Nat.ne_of_gt (length_pos_of_mem hm)
    have hroot : (s.runq cpu).tree q ≠ none := by
      intro hnone
      rw [Tree.eq_leaf_of_root (hshows.root.symm.trans hnone)] at hm
      exact not_mem_nil hm
    obtain ⟨s', T', hremove, h', -, hmem⟩ := h.remove hm
    have hp' : ∀ cpu q, p ∉ (T' cpu q).toList := fun cpu' q' hm' => (hmem cpu' q' p hm').1 rfl
    have hlinked : s.links.parent p ≠ none ∨ (s.runq cpu).tree q = some p := hshows.parent_or_root hm
    refine ⟨_, T', ?_, h'.clearNode hp', hp'⟩
    rw [if_neg (not_not.mpr hready), if_neg (not_or.mpr ⟨hcount, hroot⟩), if_pos hlinked, bind_of_ok hremove]
    rfl
  · -- A process that is in no tree has no parent and is not the root.
    have hnone : ∀ cpu' q', p ∉ (T cpu' q').toList := by
      intro cpu' q' hm'
      obtain ⟨-, -, hq'⟩ := (h.queues.tree cpu' q').member p hm'
      rw [hq] at hq'
      obtain rfl := hp cpu' q' hm'
      exact hm (hq' ▸ hm')
    have hroot : (s.runq cpu).tree q ≠ some p := fun e => hm (Tree.root_mem (hshows.root.symm.trans e))
    refine ⟨s, T, ?_, h, hnone⟩
    split_ifs with h1 h2 h3
    · rfl
    · rfl
    · exact absurd h3 (not_or.mpr ⟨not_not.mpr (h.queues.parent p hnone), hroot⟩)
    · rfl

/-- The take-off step of `sched_reap`, for a process that is in no queue of another CPU. -/
theorem reapTakeoff_spec (h : s.Inv) (hp : s.Queued p → (s.pcb p).cpu = 0) :
    ∃ s', reapTakeoff s p = .ok s' ∧ s'.Inv ∧ ¬s'.Queued p := by
  obtain ⟨T, hT⟩ := h
  obtain ⟨s₁, hlock, h₁, -⟩ := hT.lock 0 rfl
  have hcpu : ∀ cpu q, p ∈ (T cpu q).toList → cpu = 0 := by
    intro cpu q hm
    rw [← ((hT.queues.tree cpu q).member p hm).2.1]
    exact hp (hT.queues.queued_iff.mpr ⟨cpu, q, hm⟩)
  obtain ⟨s₂, T₂, htake, h₂, hnone⟩ := schedTakeoffRunqLocked_spec h₁ hcpu
  have h₃ : (s₂.unlock 0).Ordered T₂ fun _ => false := h₂.unlock rfl
  refine ⟨s₂.unlock 0, ?_, ⟨T₂, h₃⟩, fun hq => ?_⟩
  · unfold reapTakeoff
    rw [bind_of_ok hlock, bind_of_ok htake]
    rfl
  · obtain ⟨cpu, q, hm⟩ := h₃.queues.queued_iff.mp hq
    exact hnone cpu q hm

/-- The processes that `sched_steal` may meet have one of the three classes. -/
def Procs.Classes (s : Procs) (T : ℕ → Queue → Tree PcbId) : Prop :=
  ∀ cpu q, ∀ p ∈ (T cpu q).toList, (s.pcb p).sched_class ≤ schedBatch

/-- With one of the three classes, a process is removed from the tree that it was found in. -/
theorem steal_queue {sched_class : ℕ} (hq : queueOf sched_class = q) (hclass : sched_class ≤ schedBatch)
    (hrt : q ≠ .rt) : (if sched_class = schedBatch then Queue.batch else Queue.intr) = q := by
  unfold queueOf at hq
  unfold schedBatch at hclass ⊢
  split_ifs at hq ⊢ with h0 h1 h2 h2
  · exact absurd hq.symm hrt
  · omega
  · exact hq
  · exact absurd hq.symm hrt
  · exact hq
  · omega

/-- The tree in which a round of `sched_steal` finds a process. -/
theorem stealFirst_spec (h : s.Queues T) (victim : ℕ) :
    ∃ first, stealFirst s victim = .ok first ∧
      ∀ p, first = some p → ∃ q, q ≠ .rt ∧ p ∈ (T victim q).toList := by
  unfold stealFirst
  split_ifs with hbatch hintr
  · exact ⟨_, h.leftmost victim .batch, fun p hp => ⟨.batch, nofun, mem_of_mem_head? hp⟩⟩
  · exact ⟨_, h.leftmost victim .intr, fun p hp => ⟨.intr, nofun, mem_of_mem_head? hp⟩⟩
  · exact ⟨none, rfl, nofun⟩

theorem stealLoop_spec {L : ℕ → Bool} {this_cpu : ℕ} (hthis : this_cpu < maxCpus) (victim n : ℕ)
    (h : s.Ordered T L) (hclass : s.Classes T) :
    ∃ s' T', stealLoop this_cpu victim n s = .ok s' ∧ s'.Ordered T' L := by
  induction n generalizing s T with
  | zero => exact ⟨s, T, rfl, h⟩
  | succ n ih =>
    obtain ⟨first, hfirst, hmem⟩ := stealFirst_spec h.queues victim
    unfold stealLoop
    rw [bind_of_ok hfirst]
    cases first with
    | none => exact ⟨s, T, rfl, h⟩
    | some p =>
      obtain ⟨q, hrt, hp⟩ := hmem p rfl
      obtain ⟨hready, -, hq⟩ := (h.queues.tree victim q).member p hp
      obtain ⟨s₁, T₁, hremove, h₁, hpcb₁, hmem₁⟩ := h.remove hp
      have hp₁ : ∀ cpu q, p ∉ (T₁ cpu q).toList := fun cpu q hm => (hmem₁ cpu q p hm).1 rfl
      -- The process now belongs to this CPU.
      have hmod : this_cpu % 256 = this_cpu := Nat.mod_eq_of_lt (Nat.lt_of_lt_of_le hthis (by decide))
      generalize hpcb : { s₁.pcb p with cpu := this_cpu % 256 } = pcb
      have hself : (s₁.setPcb p pcb).pcb p = pcb := update_self ..
      have hready₁ : ((s₁.setPcb p pcb).pcb p).state = .ready := by
        rw [hself, ← hpcb, hpcb₁]
        exact hready
      have hcpu₁ : ((s₁.setPcb p pcb).pcb p).cpu = this_cpu := by
        rw [hself, ← hpcb]
        exact hmod
      have hq₁ : queueOf ((s₁.setPcb p pcb).pcb p).sched_class = q := by
        rw [hself, ← hpcb, hpcb₁]
        exact hq
      obtain ⟨s₂, T₂, hinsert, h₂, hpcb₂, -, hmem₂⟩ := (h₁.setPcb hp₁ pcb).insert hp₁ hready₁ hcpu₁ hq₁
      dsimp only
      rw [steal_queue hq (hclass victim q p hp) hrt, bind_of_ok hremove, hpcb, bind_of_ok hinsert]
      refine ih h₂ fun cpu' q' v hv => ?_
      rw [hpcb₂]
      by_cases e : v = p
      · subst e
        rw [hself, ← hpcb, hpcb₁]
        exact hclass victim q v hp
      · have hsame : (s₁.setPcb p pcb).pcb v = s.pcb v := by
          rw [← hpcb₁]
          exact update_of_ne e _ _
        rw [hsame]
        have hv₁ := (hmem₂ cpu' q' v hv).resolve_left e
        exact hclass cpu' q' v (hmem₁ cpu' q' v hv₁).2

/-- The victim is another CPU, if there is one with any load. -/
theorem stealVictim_ne {this_cpu : ℕ} (n i victim max_load : ℕ) (h : max_load > 0 → victim ≠ this_cpu) :
    (stealVictim s this_cpu n i victim max_load).2 > 0 →
      (stealVictim s this_cpu n i victim max_load).1 ≠ this_cpu := by
  induction n generalizing i victim max_load with
  | zero => exact h
  | succ n ih =>
    unfold stealVictim
    dsimp only
    split_ifs with hi
    · exact ih _ _ _ fun _ => hi.1
    · exact ih _ _ _ h

/-- `sched_steal` does nothing, or it locks two different queues. -/
theorem schedSteal_cases (s : Procs) (this_cpu : ℕ) : schedSteal s this_cpu = .ok s ∨
    ∃ victim first second, second ≠ first ∧
      schedSteal s this_cpu = stealBetween s this_cpu victim first second := by
  obtain ⟨victim, max_load, hvictim⟩ : ∃ victim max_load,
    stealVictim s this_cpu s.g_cpu_count 0 0 0 = (victim, max_load) := ⟨_, _, rfl⟩
  have hne : max_load > 0 → victim ≠ this_cpu := by
    have hne := @stealVictim_ne s this_cpu s.g_cpu_count 0 0 0 nofun
    rwa [hvictim] at hne
  unfold schedSteal
  rw [hvictim]
  by_cases hload : max_load ≤ (((s.runq this_cpu).count .intr + (s.runq this_cpu).count .batch) % 2^32 +
      schedStealThreshold) % 2^32
  · exact .inl (if_pos hload)
  -- The load of the victim is not zero, so it is another CPU.
  have hvt : victim ≠ this_cpu := hne (Nat.pos_of_ne_zero fun e => hload (e ▸ Nat.zero_le _))
  refine .inr ⟨victim, _, _, ?_, if_neg hload⟩
  split_ifs
  · exact hvt
  · exact hvt.symm

theorem schedSteal_spec {this_cpu : ℕ} (hthis : this_cpu < maxCpus) (h : s.Inv)
    (hclass : ∀ p, s.Queued p → (s.pcb p).sched_class ≤ schedBatch) :
    ∃ s', schedSteal s this_cpu = .ok s' ∧ s'.Inv := by
  obtain hs | ⟨victim, first, second, hfs, hs⟩ := schedSteal_cases s this_cpu
  · exact ⟨s, hs, h⟩
  obtain ⟨T, hT⟩ := h
  obtain ⟨s₁, hlock₁, h₁, hpcb₁⟩ := hT.lock first rfl
  have hfree : update (fun _ => false) first true second = false := update_of_ne hfs _ _
  obtain ⟨s₂, hlock₂, h₂, hpcb₂⟩ := h₁.lock second hfree
  have hclass₂ : s₂.Classes T := by
    intro cpu q p hp
    rw [hpcb₂, hpcb₁]
    exact hclass p (hT.queues.queued_iff.mpr ⟨cpu, q, hp⟩)
  obtain ⟨s₃, T₃, hloop, h₃⟩ := stealLoop_spec hthis victim
    (((s₂.runq victim).count .intr + (s₂.runq victim).count .batch) % 2^32 / 2) h₂ hclass₂
  refine ⟨(s₃.unlock second).unlock first, ?_, T₃, (h₃.unlock hfree).unlock rfl⟩
  rw [hs]
  unfold stealBetween
  rw [bind_of_ok hlock₁, bind_of_ok hlock₂, bind_of_ok hloop]
  rfl

end FreeAsd.Sched
