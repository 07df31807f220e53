import Mathlib.Data.List.Induction
import Mathlib.Data.List.Nodup

/-!
# Doubly linked lists

A list in memory, with pointers to the next and the previous node. `Seg` says that the pointers lead through
given nodes, and `Shows` that the list consists of them. `insertBehind` and `remove` are the writes that
insert and remove a node.
-/

namespace FreeAsd

open List

/-- The pointers of nodes, and the pointer to the first node of one list. -/
structure LinkedList (ι : Type*) where
  next : ι → Option ι
  prev : ι → Option ι
  head : Option ι

namespace LinkedList

variable {ι : Type*}

/-- From the pointer `q`, which stands in the node `p` or at the head of the list, the links lead through
`l` to the pointer `r`. -/
def Seg (s : LinkedList ι) : Option ι → Option ι → List ι → Option ι → Prop
  | _, q, [], r => q = r
  | p, q, x :: l, r => q = some x ∧ s.prev x = p ∧ s.Seg (some x) (s.next x) l r

/-- The nodes of the list. -/
structure Shows (s : LinkedList ι) (l : List ι) : Prop where
  seg : s.Seg none s.head l none
  nodup : l.Nodup

/-- The nodes that a walk along `next` meets in at most `n` steps. -/
def walk (s : LinkedList ι) : ℕ → Option ι → List ι
  | n + 1, some x => x :: s.walk n (s.next x)
  | _, _ => []

variable {s s' : LinkedList ι} {p q r : Option ι} {a b l : List ι} {x : ι}

theorem Seg.walk_eq {n : ℕ} (h : s.Seg p q l none) (hn : l.length ≤ n) : s.walk n q = l := by
  induction l generalizing p q n with
  | nil =>
    obtain rfl : q = none := h
    cases n <;> rfl
  | cons x l ih =>
    obtain ⟨rfl, -, h⟩ := h
    obtain ⟨n, rfl⟩ : ∃ m, n = m + 1 := Nat.exists_eq_succ_of_ne_zero (by rintro rfl; simp at hn)
    rw [walk, ih h (Nat.le_of_succ_le_succ hn)]

theorem Seg.head?_eq (h : s.Seg p q l none) : q = l.head? := by
  cases l with
  | nil => exact h
  | cons x l => exact h.1

theorem Seg.congr (h : s.Seg p q l r) (hs : ∀ x ∈ l, s'.next x = s.next x ∧ s'.prev x = s.prev x) :
    s'.Seg p q l r := by
  induction l generalizing p q with
  | nil => exact h
  | cons x l ih =>
    obtain ⟨hnext, hprev⟩ := hs x mem_cons_self
    refine ⟨h.1, hprev.trans h.2.1, ?_⟩
    rw [hnext]
    exact ih h.2.2 (forall_mem_cons.mp hs).2

theorem seg_append : s.Seg p q (a ++ b) r ↔ ∃ m, s.Seg p q a m ∧ s.Seg (a.getLast?.or p) m b r := by
  induction a generalizing p q with
  | nil => simp [Seg]
  | cons x a ih =>
    have hlast : (x :: a).getLast?.or p = a.getLast?.or (some x) := by
      rw [getLast?_cons]
      cases a.getLast? <;> rfl
    rw [hlast]
    simp only [cons_append, Seg, ih, and_assoc, exists_and_left]

/-- If no node is twice in `a` and `b`, then the first of `b` is not in `a` and the last of `a` not in `b`. -/
theorem ends_of_nodup (h : (a ++ b).Nodup) : (∀ y ∈ a, b.head? ≠ some y) ∧ ∀ y ∈ b, a.getLast? ≠ some y := by
  have hab := (nodup_append.mp h).2.2
  exact ⟨fun y hy e => hab y hy y (mem_of_mem_head? e) rfl, fun y hy e => hab y (mem_of_getLast? e) y hy rfl⟩

/-- The pointer behind the last node of `a` leads to the first node of `b`. -/
theorem Shows.next_eq (h : s.Shows (a ++ b)) : a.getLast?.elim s.head s.next = b.head? := by
  obtain ⟨m, ha, hb⟩ := seg_append.mp h.seg
  rw [← hb.head?_eq]
  induction a using reverseRecOn with
  | nil => exact ha
  | append_singleton a c _ =>
    obtain ⟨-, -, -, -, hc⟩ := seg_append.mp ha
    rw [getLast?_concat]
    exact hc

/-! ## Writes -/

variable [DecidableEq ι]

/-- Set the pointer behind the node `p`, or the head. -/
def setNext (s : LinkedList ι) (p q : Option ι) : LinkedList ι :=
  match p with
  | none => { s with head := q }
  | some p => { s with next := Function.update s.next p q }

/-- Set the pointer back of the node `q`, if there is one. -/
def setPrev (s : LinkedList ι) (q p : Option ι) : LinkedList ι :=
  match q with
  | none => s
  | some q => { s with prev := Function.update s.prev q p }

/-- Insert `x` behind the node `p`, or at the head. -/
def insertBehind (s : LinkedList ι) (p : Option ι) (x : ι) : LinkedList ι :=
  let q := p.elim s.head s.next
  (((s.setNext (some x) q).setPrev (some x) p).setPrev q (some x)).setNext p (some x)

/-- Take `x` out. -/
def remove (s : LinkedList ι) (x : ι) : LinkedList ι :=
  let s := s.setNext (s.prev x) (s.next x)
  s.setPrev (s.next x) (s.prev x)

@[simp]
theorem next_setNext (y : ι) : (s.setNext p q).next y = if p = some y then q else s.next y := by
  cases p with
  | none => rfl
  | some p => simp [setNext, Function.update_apply, eq_comm]

@[simp]
theorem prev_setNext : (s.setNext p q).prev = s.prev := by cases p <;> rfl

@[simp]
theorem head_setNext : (s.setNext p q).head = if p = none then q else s.head := by cases p <;> rfl

@[simp]
theorem prev_setPrev (y : ι) : (s.setPrev q p).prev y = if q = some y then p else s.prev y := by
  cases q with
  | none => rfl
  | some q => simp [setPrev, Function.update_apply, eq_comm]

@[simp]
theorem next_setPrev : (s.setPrev q p).next = s.next := by cases q <;> rfl

@[simp]
theorem head_setPrev : (s.setPrev q p).head = s.head := by cases q <;> rfl

/-- Only the pointer at the end of the nodes `a` is set. -/
theorem Seg.setExit {m : Option ι} (h : s.Seg none s.head a m) (hnodup : a.Nodup)
    (hhead : s'.head = if a = [] then q else s.head) (hprev : ∀ y ∈ a, s'.prev y = s.prev y)
    (hnext : ∀ y ∈ a, s'.next y = if a.getLast? = some y then q else s.next y) :
    s'.Seg none s'.head a q := by
  induction a using reverseRecOn with
  | nil => exact hhead
  | append_singleton a c _ =>
    obtain ⟨m', ha, hm, hc, -⟩ := seg_append.mp h
    rw [hhead, if_neg (by simp)]
    refine seg_append.mpr ⟨m', ha.congr fun y hy => ⟨?_, hprev y (by simp [hy])⟩, hm,
      (hprev c (by simp)).trans hc, (hnext c (by simp)).trans (if_pos getLast?_concat)⟩
    rw [hnext y (by simp [hy]), if_neg]
    rw [getLast?_concat]
    rintro ⟨⟩
    exact (nodup_append.mp hnodup).2.2 c hy c (by simp) rfl

/-- Only the pointer back from the first of the nodes `b` is set. -/
theorem Seg.setEntry {p' : Option ι} (h : s.Seg p q b r) (hnodup : b.Nodup)
    (hnext : ∀ y ∈ b, s'.next y = s.next y)
    (hprev : ∀ y ∈ b, s'.prev y = if b.head? = some y then p' else s.prev y) :
    s'.Seg p' q b r := by
  cases b with
  | nil => exact h
  | cons y b =>
    refine ⟨h.1, (hprev y mem_cons_self).trans (if_pos rfl), ?_⟩
    rw [hnext y mem_cons_self]
    refine h.2.2.congr fun z hz => ⟨hnext z (mem_cons_of_mem _ hz), ?_⟩
    rw [hprev z (mem_cons_of_mem _ hz), if_neg]
    rintro ⟨⟩
    exact (nodup_cons.mp hnodup).1 hz

theorem Shows.insertBehind (h : s.Shows (a ++ b)) (hx : x ∉ a ++ b) :
    (s.insertBehind a.getLast? x).Shows (a ++ x :: b) := by
  have hafter := h.next_eq
  obtain ⟨hxa, hxb⟩ := not_or.mp (mt mem_append.mpr hx)
  obtain ⟨hna, hnb, -⟩ := nodup_append.mp h.nodup
  obtain ⟨hfirst, hlast⟩ := ends_of_nodup h.nodup
  obtain ⟨m, ha, hb⟩ := seg_append.mp h.seg
  generalize ht : s.insertBehind a.getLast? x = t
  have hnext (y : ι) : t.next y =
      if a.getLast? = some y then some x else if x = y then b.head? else s.next y := by
    simp [← ht, LinkedList.insertBehind, hafter]
  have hprev (y : ι) : t.prev y =
      if b.head? = some y then some x else if x = y then a.getLast? else s.prev y := by
    simp [← ht, LinkedList.insertBehind, hafter]
  have hhead : t.head = if a = [] then some x else s.head := by
    simp [← ht, LinkedList.insertBehind]
  refine ⟨seg_append.mpr ⟨some x, ha.setExit hna hhead ?_ ?_, rfl, ?_, ?_⟩,
    nodup_middle.mpr (nodup_cons.mpr ⟨hx, h.nodup⟩)⟩
  · intro y hy
    rw [hprev, if_neg (hfirst y hy), if_neg (ne_of_mem_of_not_mem hy hxa).symm]
  · intro y hy
    rw [hnext, if_neg (ne_of_mem_of_not_mem hy hxa).symm]
  · rw [hprev, if_neg fun e : b.head? = some x => hxb (mem_of_mem_head? e), if_pos rfl, Option.or_none]
  · rw [hnext, if_neg fun e => hxa (mem_of_getLast? e), if_pos rfl, ← hb.head?_eq]
    refine hb.setEntry hnb (fun y hy => ?_) fun y hy => ?_
    · rw [hnext, if_neg (hlast y hy), if_neg (ne_of_mem_of_not_mem hy hxb).symm]
    · rw [hprev, if_neg (ne_of_mem_of_not_mem hy hxb).symm]

theorem Shows.remove (h : s.Shows (a ++ x :: b)) : (s.remove x).Shows (a ++ b) := by
  obtain ⟨hx, hnodup⟩ := nodup_cons.mp (nodup_middle.mp h.nodup)
  obtain ⟨hna, hnb, -⟩ := nodup_append.mp hnodup
  obtain ⟨hfirst, hlast⟩ := ends_of_nodup hnodup
  obtain ⟨m, ha, -, hp, hb⟩ := seg_append.mp h.seg
  have hq := hb.head?_eq
  -- The fields of `x` itself are not written.
  have hself : a.getLast? ≠ some x := (ends_of_nodup h.nodup).2 x mem_cons_self
  generalize ht : s.remove x = t
  have hnext (y : ι) : t.next y = if a.getLast? = some y then b.head? else s.next y := by
    simp [← ht, LinkedList.remove, hp, hq]
  have hprev (y : ι) : t.prev y = if b.head? = some y then a.getLast? else s.prev y := by
    simp [← ht, LinkedList.remove, hp, hq, hself]
  have hhead : t.head = if a = [] then b.head? else s.head := by
    simp [← ht, LinkedList.remove, hp, hq]
  rw [hq] at hb
  refine ⟨seg_append.mpr ⟨b.head?, ha.setExit hna hhead ?_ fun y _ => hnext y, ?_⟩, hnodup⟩
  · intro y hy
    rw [hprev, if_neg (hfirst y hy)]
  · rw [Option.or_none]
    exact hb.setEntry hnb (fun y hy => by rw [hnext, if_neg (hlast y hy)]) fun y _ => hprev y

end LinkedList

end FreeAsd
