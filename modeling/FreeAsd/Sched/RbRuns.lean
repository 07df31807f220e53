import FreeAsd.Lib.Runs
import FreeAsd.Lib.StableSort
import FreeAsd.Sched.RbRemove

/-!
# Runs of insertions and removals

The rest of the kernel writes the nodes that are not in the tree. The tree is then the stable sort by priority
of the nodes in the order of their insertion (`QueueInv`), and `rb_leftmost` finds the one that has waited
longest among those with the smallest priority (`queue_run`).
-/

namespace FreeAsd.Sched

open LinkedTree List

variable {ι : Type*} [DecidableEq ι]

/-- A tree, with the priorities of all processes. -/
structure QueueRun (ι : Type*) where
  tree : LinkedTree ι
  priority : ι → ℤ
  queue : List ι

/-- An insertion, a removal, or a change of nodes that are not in the tree. -/
inductive QueueStep : QueueRun ι → QueueRun ι → Prop
  | insert (r : QueueRun ι) {z : ι} {fuel : ℕ} {s : LinkedTree ι} (hz : z ∉ r.queue)
      (hfuel : r.queue.length < fuel)
      (h : rbInsert fuel r.priority r.tree z (r.priority z) = some s) :
      QueueStep r ⟨s, r.priority, r.queue ++ [z]⟩
  | remove (r : QueueRun ι) {z : ι} {fuel : ℕ} {s : LinkedTree ι} (hz : z ∈ r.queue)
      (hfuel : r.queue.length < fuel) (h : rbRemoveNode fuel r.tree z = some s) :
      QueueStep r ⟨s, r.priority, r.queue.erase z⟩
  | other (r : QueueRun ι) (links : Links ι) (priority : ι → ℤ)
      (hlinks : ∀ v ∈ r.queue, SameAt r.tree.toLinks links v)
      (hpriority : ∀ v ∈ r.queue, priority v = r.priority v) :
      QueueStep r ⟨⟨links, r.tree.root⟩, priority, r.queue⟩

/-- The links are those of a red-black tree that has the queue in the order of the priorities. -/
def QueueInv (r : QueueRun ι) : Prop :=
  r.queue.Nodup ∧ ∃ T, Shows r.tree T ∧ T.RedBlack ∧ T.toList = stableSort r.priority r.queue

variable {r r' : QueueRun ι} {T : Tree ι} {z : ι} {fuel : ℕ}

omit [DecidableEq ι] in
theorem length_of_stableSort {priority : ι → ℤ} {queue : List ι}
    (h : T.toList = stableSort priority queue) : T.toList.length = queue.length := by
  rw [h]
  exact (stableSort_perm priority queue).length_eq

omit [DecidableEq ι] in
theorem mem_of_stableSort {priority : ι → ℤ} {queue : List ι} (h : T.toList = stableSort priority queue)
    (v : ι) : v ∈ T.toList ↔ v ∈ queue := by
  rw [h]
  exact (stableSort_perm priority queue).mem_iff

theorem QueueInv.insert (h : QueueInv r) (hz : z ∉ r.queue) (hfuel : r.queue.length < fuel) :
    ∃ s, rbInsert fuel r.priority r.tree z (r.priority z) = some s ∧
      QueueInv ⟨s, r.priority, r.queue ++ [z]⟩ := by
  obtain ⟨hnodup, T, hT, hrb, hlist⟩ := h
  have hsorted : Sorted r.priority T.toList := hlist ▸ pairwise_stableSort r.priority r.queue
  obtain ⟨s, T', A, B, hs, hT', hrb', hAB, hlist', hA, hB, -⟩ := rbInsert_spec hT hrb
    (fun hm => hz ((mem_of_stableSort hlist z).mp hm)) hsorted
    ((length_of_stableSort hlist).trans_lt hfuel) (r.priority z)
  refine ⟨s, hs, nodup_append.mpr ⟨hnodup, nodup_singleton z, ?_⟩, T', hT', hrb', ?_⟩
  · intro a ha b hb e
    rw [mem_singleton.mp hb] at e
    exact hz (e ▸ ha)
  · rw [hlist']
    exact stableSort_concat (hlist.symm.trans hAB) hA hB

theorem QueueInv.remove (h : QueueInv r) (hz : z ∈ r.queue) (hfuel : r.queue.length < fuel) :
    ∃ s, rbRemoveNode fuel r.tree z = some s ∧ QueueInv ⟨s, r.priority, r.queue.erase z⟩ := by
  obtain ⟨hnodup, T, hT, hrb, hlist⟩ := h
  obtain ⟨s, T', A, B, hs, hT', hrb', hAB, hlist', -⟩ := rbRemoveNode_spec hT hrb
    ((mem_of_stableSort hlist z).mpr hz) ((length_of_stableSort hlist).trans_lt hfuel)
  refine ⟨s, hs, hnodup.erase z, T', hT', hrb', ?_⟩
  rw [hlist']
  exact stableSort_erase (hlist.symm.trans hAB) hnodup

theorem QueueInv.step (h : QueueInv r) (hs : QueueStep r r') : QueueInv r' := by
  cases hs with
  | insert hz hfuel hs =>
    obtain ⟨s', hs', h'⟩ := h.insert hz hfuel
    rwa [Option.some.inj (hs.symm.trans hs')]
  | remove hz hfuel hs =>
    obtain ⟨s', hs', h'⟩ := h.remove hz hfuel
    rwa [Option.some.inj (hs.symm.trans hs')]
  | other links priority hlinks hpriority =>
    obtain ⟨hnodup, T, hT, hrb, hlist⟩ := h
    refine ⟨hnodup, T, hT.congr rfl fun v hv => hlinks v ((mem_of_stableSort hlist v).mp hv), hrb, ?_⟩
    exact hlist.trans (stableSort_congr hpriority)

/-- In every state of a run: the links form a red-black tree, sorted by priority and, among equal
priorities, by the time of insertion; insertions of other nodes and removals of its nodes end without
dereferencing a null pointer; and `rb_leftmost` returns the node inserted first among those with the
smallest priority. -/
theorem queue_run {links : Links ι} {priority : ι → ℤ}
    (hrun : Relation.ReflTransGen QueueStep ⟨⟨links, none⟩, priority, []⟩ r) :
    (∃ T, Shows r.tree T ∧ T.RedBlack ∧ Sorted r.priority T.toList ∧
      T.toList = stableSort r.priority r.queue) ∧
    ∀ fuel, r.queue.length < fuel →
      (∀ z, z ∉ r.queue → ∃ s, rbInsert fuel r.priority r.tree z (r.priority z) = some s) ∧
      (∀ z ∈ r.queue, ∃ s, rbRemoveNode fuel r.tree z = some s) ∧
      ∃ first, rbLeftmost fuel r.tree = some first ∧ (first = none → r.queue = []) ∧
        ∀ z, first = some z → ∃ A B, r.queue = A ++ z :: B ∧
          (∀ a ∈ A, r.priority z < r.priority a) ∧ ∀ b ∈ B, r.priority z ≤ r.priority b := by
  have hinv : QueueInv r := Runs.invariant (P := QueueInv) hrun
    ⟨nodup_nil, .leaf, ⟨rfl, holds_leaf, nodup_nil⟩, ⟨rfl, trivial, 0, rfl⟩, rfl⟩
    fun _ _ => QueueInv.step
  obtain ⟨-, T, hT, hrb, hlist⟩ := id hinv
  refine ⟨⟨T, hT, hrb, hlist ▸ pairwise_stableSort _ _, hlist⟩, fun fuel hfuel => ⟨fun z hz => ?_,
    fun z hz => ?_, T.toList.head?, ?_, fun h => ?_, fun z hz => ?_⟩⟩
  · obtain ⟨s, hs, -⟩ := hinv.insert hz hfuel
    exact ⟨s, hs⟩
  · obtain ⟨s, hs, -⟩ := hinv.remove hz hfuel
    exact ⟨s, hs⟩
  · exact rbLeftmost_spec ((length_of_stableSort hlist).trans_lt hfuel) hT
  · rw [head?_eq_none_iff, hlist] at h
    exact (h ▸ stableSort_perm r.priority r.queue).nil_eq.symm
  · exact head_stableSort (hlist ▸ hz)

/-- Two nodes with the same priority: the first one inserted is the leftmost. -/
theorem queue_run_two : ∃ s s' : LinkedTree ℕ,
    rbInsert 3 (fun _ => 5) ⟨⟨fun _ => none, fun _ _ => none, fun _ => .black⟩, none⟩ 7 5 = some s ∧
    rbInsert 3 (fun _ => 5) s 4 5 = some s' ∧ rbLeftmost 3 s' = some (some 7) := by
  have hstart := @Relation.ReflTransGen.refl _ QueueStep (⟨⟨⟨fun _ => none, fun _ _ => none,
    fun _ => .black⟩, none⟩, fun _ => 5, []⟩ : QueueRun ℕ)
  obtain ⟨s, hs⟩ := ((queue_run hstart).2 3 (by decide)).1 7 (by decide)
  have hone := hstart.tail (.insert _ (z := 7) (by decide) (by decide) hs)
  obtain ⟨s', hs'⟩ := ((queue_run hone).2 3 (by simp)).1 4 (by simp)
  have htwo := hone.tail (.insert _ (z := 4) (by simp) (by simp) hs')
  obtain ⟨first, hfirst, hnone, hmin⟩ := ((queue_run htwo).2 3 (by simp)).2.2
  refine ⟨s, s', hs, hs', hfirst.trans ?_⟩
  cases first with
  | none => exact absurd (hnone rfl) (by simp)
  | some z =>
    obtain ⟨A, B, hqueue, hA, -⟩ := hmin z rfl
    -- All priorities are equal, so nothing stands before the first node.
    cases A with
    | nil => rw [(cons.inj hqueue).1]
    | cons a A => exact absurd (hA a mem_cons_self) (lt_irrefl _)

end FreeAsd.Sched
