import FreeAsd.Lib.Filed
import FreeAsd.Vfs.Descriptors
import Mathlib.Data.Fintype.Prod

/-!
# Reference counts of open files

A node in use has counted the places and descriptors of the kernel that point to it, no table points to a free
node, and each file is in one node or was closed once. Inside a call a reference or an open file may be in
flight; `Inv` counts them too.
-/

namespace FreeAsd.Vfs

open Function Option

variable {σ β : Type}

namespace State

/-- What a place of a table points to, if its process is live. -/
def held (s : State σ β) : Pid × Fd → Option NodeId :=
  fun slot => if slot.1 ∈ s.live then s.fd_table slot.1 slot.2 else none

/-- The references to a node, with the one in flight. -/
def count (s : State σ β) (extra : Option NodeId) (i : NodeId) : ℕ :=
  refs s.held i + (if i ∈ s.pseudo then 1 else 0) + if extra = some i then 1 else 0

/-- A backend has a `close`. -/
def hasClose (s : State σ β) (b : Fin maxBackends) : Prop :=
  (s.op b (·.close)).isSome

/-- Where open files are: in nodes that are in use, and in flight. -/
def fileAt (s : State σ β) (pending : Option (OpenFile β)) : Option NodeId → Option (OpenFile β)
  | none => pending
  | some i => if (s.g_nodes i).node_id = 0 then none else (s.g_nodes i).file

/-- Exactly the nodes with references are in use, each under its own number, and they have counted
their references. -/
structure CountInv (extra : Option NodeId) (s : State σ β) : Prop where
  node_id : ∀ i, (s.g_nodes i).node_id ≠ 0 → (s.g_nodes i).node_id = i.val
  used : ∀ i, (s.g_nodes i).node_id ≠ 0 ↔ 0 < s.count extra i
  refcount : ∀ i, (s.g_nodes i).node_id ≠ 0 → (s.g_nodes i).refcount = s.count extra i

/-- What holds with the reference `extra` and the file `pending` in flight. -/
structure Inv (extra : Option NodeId) (pending : Option (OpenFile β)) (s : State σ β) : Prop where
  counts : CountInv extra s
  files : Filed OpenFile.handle OpenFile.backend s.hasClose (s.fileAt pending) s.opened s.closed

variable {s t : State σ β} {n : Node β} {extra : Option NodeId} {pending : Option (OpenFile β)} {i j : NodeId}
  {p : Pid} {fd : Fd}

/-- Only the counts matter, if the nodes are the same. -/
theorem CountInv.recount {extra' : Option NodeId} (h : CountInv extra s) (hnodes : t.g_nodes = s.g_nodes)
    (hcount : ∀ j, t.count extra' j = s.count extra j) : CountInv extra' t := by
  constructor
  · rw [hnodes]
    exact h.node_id
  · intro j
    rw [hnodes, hcount]
    exact h.used j
  · intro j hj
    rw [hnodes] at hj ⊢
    rw [hcount]
    exact h.refcount j hj

section

variable (h : Inv extra pending s) (hnodes : t.g_nodes = s.g_nodes) (hpseudo : t.pseudo = s.pseudo)
  (hbackends : t.g_backends = s.g_backends) (hopened : t.opened = s.opened) (hclosed : t.closed = s.closed)

include h hnodes hpseudo hbackends hopened hclosed

/-- The invariant does not depend on the other fields, and on tables only through `held`. -/
theorem Inv.congr_held (hheld : t.held = s.held) : Inv extra pending t := by
  have hcount : ∀ j, t.count extra j = s.count extra j := by
    intro j
    rw [count, count, hheld, hpseudo]
  have hfile : t.fileAt pending = s.fileAt pending := by
    funext k
    cases k with
    | none => rfl
    | some i => rw [fileAt, fileAt, hnodes]
  have hclose : t.hasClose = s.hasClose := by
    funext b
    rw [hasClose, hasClose, op, op, hbackends]
  refine ⟨h.counts.recount hnodes hcount, ?_⟩
  rw [hfile, hclose, hopened, hclosed]
  exact h.files

theorem Inv.congr (hlive : t.live = s.live) (htable : t.fd_table = s.fd_table) : Inv extra pending t := by
  apply h.congr_held hnodes hpseudo hbackends hopened hclosed
  unfold held
  rw [hlive, htable]

end

theorem count_some (s : State σ β) (i j : NodeId) :
    s.count (some i) j = s.count none j + if i = j then 1 else 0 := by
  simp only [count, reduceCtorEq, if_false, some.injEq, add_zero]

/-- There are not enough places for a reference count to overflow. -/
theorem count_lt (s : State σ β) (extra : Option NodeId) (i : NodeId) : s.count extra i < 2^32 - 1 := by
  have hle := refs_le s.held i
  have hcard : Fintype.card (Pid × Fd) = 1048576 := by
    rw [Fintype.card_prod, Fintype.card_fin, Fintype.card_fin]
    rfl
  rw [count]
  split_ifs <;> omega

/-- Descriptors of the kernel are not in tables. -/
theorem count_pseudo (s : State σ β) (x : Finset NodeId) (extra : Option NodeId) (j : NodeId) :
    State.count { s with pseudo := x } extra j =
      refs s.held j + (if j ∈ x then 1 else 0) + if extra = some j then 1 else 0 := by
  have hheld : State.held { s with pseudo := x } = s.held := by
    rfl
  rw [count, hheld]

theorem held_of_live (hp : p ∈ s.live) (fd : Fd) : s.held (p, fd) = s.fd_table p fd := if_pos hp

theorem held_setFd (hp : p ∈ s.live) (fd : Fd) (v : Option NodeId) :
    (s.setFd p fd v).held = update s.held (p, fd) v := by
  funext ⟨q, x⟩
  by_cases hslot : (q, x) = (p, fd)
  · obtain ⟨rfl, rfl⟩ := Prod.mk.inj hslot
    rw [update_self, held_of_live (s := s.setFd q x v) hp]
    simp only [setFd, update_self]
  · rw [update_of_ne hslot]
    unfold held
    by_cases hq : q = p
    · have hx : x ≠ fd := fun hx => hslot (by rw [hq, hx])
      simp only [setFd, hq, update_self, update_of_ne hx]
    · simp only [setFd, update_of_ne hq]

theorem count_setFd (hp : p ∈ s.live) (fd : Fd) (v : Option NodeId) (extra : Option NodeId) (j : NodeId) :
    (s.setFd p fd v).count extra j + (if s.fd_table p fd = some j then 1 else 0) =
      s.count extra j + if v = some j then 1 else 0 := by
  have hrefs := refs_update s.held (p, fd) v j
  rw [held_of_live hp] at hrefs
  rw [count, count, held_setFd hp]
  change refs _ j + (if j ∈ s.pseudo then 1 else 0) + _ + _ = _
  omega

theorem fileAt_setNode (s : State σ β) (i : NodeId) (n : Node β) (pending : Option (OpenFile β)) :
    (s.setNode i n).fileAt pending =
      update (s.fileAt pending) (some i) (if n.node_id = 0 then none else n.file) := by
  funext k
  cases k with
  | none => rfl
  | some j =>
    by_cases hj : j = i
    · rw [hj, update_self, fileAt, setNode]
      simp only [update_self]
    · rw [update_of_ne (fun h => hj (some.inj h)), fileAt, fileAt, setNode]
      simp only [update_of_ne hj]

/-! ## Parts of calls -/

/-- The reference of a place is taken up. -/
theorem Inv.take (h : Inv none pending s) (hp : p ∈ s.live) (hfd : s.fd_table p fd = some i) :
    Inv (some i) pending (s.setFd p fd none) := by
  refine ⟨h.counts.recount rfl fun j => ?_, h.files⟩
  have hset := count_setFd hp fd none none j
  rw [hfd] at hset
  simp only [reduceCtorEq, if_false, some.injEq] at hset
  rw [count_some]
  omega

/-- The reference in flight is put into a free place. -/
theorem Inv.give (h : Inv (some i) pending s) (hp : p ∈ s.live) (hfd : s.fd_table p fd = none) :
    Inv none pending (s.setFd p fd (some i)) := by
  refine ⟨h.counts.recount rfl fun j => ?_, h.files⟩
  have hset := count_setFd hp fd (some i) none j
  rw [hfd] at hset
  simp only [reduceCtorEq, if_false, some.injEq] at hset
  rw [count_some]
  omega

/-- The reference in flight becomes a descriptor of the kernel. -/
theorem Inv.give_kernel (h : Inv (some i) pending s) (hi : i ∉ s.pseudo) :
    Inv none pending { s with pseudo := insert i s.pseudo } := by
  refine ⟨h.counts.recount rfl fun j => ?_, h.files⟩
  rw [count_some, count_pseudo, count]
  by_cases hj : i = j
  · subst hj
    rw [if_pos (Finset.mem_insert_self _ _), if_neg hi, if_pos rfl]
    omega
  · simp only [Finset.mem_insert, Ne.symm hj, false_or, if_neg hj, add_zero]

/-- A descriptor of the kernel is taken up. -/
theorem Inv.take_kernel (h : Inv none pending s) (hi : i ∈ s.pseudo) :
    Inv (some i) pending { s with pseudo := s.pseudo.erase i } := by
  refine ⟨h.counts.recount rfl fun j => ?_, h.files⟩
  rw [count_some, count_pseudo, count]
  by_cases hj : i = j
  · subst hj
    rw [if_neg (Finset.notMem_erase _ _), if_pos hi, if_pos rfl]
    omega
  · simp only [Finset.mem_erase, ne_eq, Ne.symm hj, not_false_eq_true, true_and, if_neg hj, add_zero]

/-- A node that is written keeps the invariant if its own part does. -/
theorem CountInv.setNode {extra' : Option NodeId} (h : CountInv extra s)
    (hid : n.node_id ≠ 0 → n.node_id = i.val) (hused : n.node_id ≠ 0 ↔ 0 < s.count extra' i)
    (hrc : n.node_id ≠ 0 → n.refcount = s.count extra' i)
    (hother : ∀ j ≠ i, s.count extra' j = s.count extra j) : CountInv extra' (s.setNode i n) := by
  have hself : (s.setNode i n).g_nodes i = n := update_self ..
  have hne : ∀ j ≠ i, (s.setNode i n).g_nodes j = s.g_nodes j := fun j hj =>
    update_of_ne hj ..
  have hcount : (s.setNode i n).count extra' = s.count extra' := rfl
  constructor
  · intro j hj
    by_cases hji : j = i
    · rw [hji, hself] at hj ⊢
      exact hid hj
    · rw [hne j hji] at hj ⊢
      exact h.node_id j hj
  · intro j
    by_cases hji : j = i
    · rw [hji, hself, hcount]
      exact hused
    · rw [hne j hji, hcount, hother j hji]
      exact h.used j
  · intro j hj
    by_cases hji : j = i
    · rw [hji, hself] at hj ⊢
      exact hrc hj
    · rw [hne j hji] at hj ⊢
      rw [hcount, hother j hji]
      exact h.refcount j hj

theorem count_none_of_ne (s : State σ β) (hj : j ≠ i) : s.count none j = s.count (some i) j := by
  rw [count_some, if_neg (Ne.symm hj), add_zero]

/-- A node in use gets one more reference, which is in flight. -/
theorem Inv.ref (h : Inv none pending s) (hi : (s.g_nodes i).node_id ≠ 0) : Inv (some i) pending (s.ref i) := by
  have hlt := count_lt s none i
  have hrc := h.counts.refcount i hi
  have hsome : s.count (some i) i = s.count none i + 1 := by rw [count_some, if_pos rfl]
  constructor
  · apply h.counts.setNode
    · exact h.counts.node_id i
    · exact iff_of_true hi (by omega)
    · intro _
      dsimp only
      rw [hrc, hsome]
      omega
    · intro j hj
      exact (count_none_of_ne s hj).symm
  · have hfile : (s.ref i).fileAt pending = s.fileAt pending := by
      rw [State.ref, fileAt_setNode]
      exact update_eq_self (some i) (s.fileAt pending)
    rw [hfile]
    exact h.files

/-- A free node is filled and has its first reference, which is in flight. The file in flight is now
in the node. -/
theorem Inv.create (h : Inv none pending s) (hi : (s.g_nodes i).node_id = 0) (hi0 : i ≠ 0)
    (hid : n.node_id = i.val) (hrc : n.refcount = 1) (hfile : n.file = pending) :
    Inv (some i) none (s.setNode i n) := by
  have hcount : s.count none i = 0 := by
    have hused := h.counts.used i
    rw [hi] at hused
    have := mt hused.mpr (fun h => h rfl)
    omega
  have hsome : s.count (some i) i = 1 := by rw [count_some, if_pos rfl, hcount]
  have hne : n.node_id ≠ 0 := by
    rw [hid]
    exact fun h => hi0 (Fin.ext h)
  constructor
  · apply h.counts.setNode (fun _ => hid)
    · exact iff_of_true hne (by omega)
    · intro _
      rw [hrc, hsome]
    · intro j hj
      exact (count_none_of_ne s hj).symm
  · -- The place in flight and the place of the node change roles.
    apply h.files.rename (Equiv.swap none (some i))
    intro k
    rw [fileAt_setNode, if_neg hne, hfile]
    rcases eq_or_ne k none with rfl | hk
    · rw [Equiv.swap_apply_left, update_self]
      rfl
    rcases eq_or_ne k (some i) with rfl | hk'
    · rw [Equiv.swap_apply_right, update_of_ne (some_ne_none i).symm, fileAt, fileAt, if_pos hi]
    · rw [Equiv.swap_apply_of_ne_of_ne hk hk', update_of_ne hk']
      cases k with
      | none => exact absurd rfl hk
      | some j => rfl

/-- What is logged when the file of a node is closed. -/
def Logged (s : State σ β) (file : Option (OpenFile β)) (closed : List ℕ) : Prop :=
  match file with
  | none => closed = s.closed
  | some f => (s.hasClose f.backend → closed = s.closed ++ [f.handle]) ∧
      (¬ s.hasClose f.backend → closed = s.closed)

theorem closeFile_spec (s : State σ β) (f : OpenFile β) :
    ∃ fs closed, s.closeFile f = { s with fs := fs, closed := closed } ∧
      s.Logged (some f) closed := by
  unfold closeFile Logged hasClose
  split
  next close hclose =>
    refine ⟨_, _, rfl, ?_, ?_⟩
    · intro _
      rfl
    · rw [hclose]
      intro hno
      exact absurd rfl hno
  next hnone =>
    refine ⟨s.fs, s.closed, rfl, ?_, ?_⟩
    · rw [hnone]
      intro h
      exact nomatch h
    · intro _
      rfl

/-- The file in flight is closed. -/
theorem Inv.closePending {f : OpenFile β} (h : Inv extra (some f) s) : Inv extra none (s.closeFile f) := by
  obtain ⟨fs, closed, hclose, hlog⟩ := closeFile_spec s f
  rw [hclose]
  refine ⟨⟨h.counts.node_id, h.counts.used, h.counts.refcount⟩, ?_⟩
  have hfiled := h.files.close (k := none) rfl hlog.1 hlog.2
  have hplace : update (s.fileAt (some f)) none none = s.fileAt none := by
    funext k
    cases k with
    | none => exact update_self ..
    | some i => exact update_of_ne (some_ne_none i) ..
  rw [hplace] at hfiled
  exact hfiled

/-- The node of the reference in flight has no other one: its file is closed and it is free. -/
theorem Inv.free (h : Inv (some i) pending s) (hcount : s.count none i = 0) (hn : n.node_id = 0)
    (fs : σ) {closed : List ℕ} (hlog : s.Logged (s.g_nodes i).file closed) :
    Inv none pending { s.setNode i n with fs := fs, closed := closed } := by
  constructor
  · have hcounts : CountInv none (s.setNode i n) := by
      apply h.counts.setNode (fun hne => absurd hn hne)
      · exact iff_of_false (fun hne => hne hn) (by omega)
      · exact fun hne => absurd hn hne
      · intro j hj
        exact count_none_of_ne s hj
    exact { hcounts with }
  · have hlive : (s.g_nodes i).node_id ≠ 0 := by
      rw [h.counts.used i, count_some, if_pos rfl]
      omega
    have hplace : s.fileAt pending (some i) = (s.g_nodes i).file := if_neg hlive
    have hset := fileAt_setNode s i n pending
    rw [if_pos hn] at hset
    change Filed OpenFile.handle OpenFile.backend s.hasClose ((s.setNode i n).fileAt pending) s.opened
      closed
    rw [hset]
    cases hfile : (s.g_nodes i).file with
    | none =>
      rw [hfile] at hlog hplace
      have hclosed : closed = s.closed := hlog
      rw [← hplace, update_eq_self, hclosed]
      exact h.files
    | some f =>
      rw [hfile] at hlog hplace
      exact h.files.close hplace hlog.1 hlog.2

/-- The node with `rc` references left, which is free if there are none. -/
def dropRef (n : Node β) (rc : ℕ) : Node β :=
  { n with refcount := rc, node_id := if rc = 0 then 0 else n.node_id }

/-- The state of the backend and the log when `rc` references to a node are left: its file is closed
with the last one. -/
def lastClose (s : State σ β) (i : NodeId) (rc : ℕ) : σ × List ℕ :=
  if rc = 0 then
    match (s.g_nodes i).file with
    | some f =>
      match s.op f.backend (·.close) with
      | some close => (close f.bctx s.fs, s.closed ++ [f.handle])
      | none => (s.fs, s.closed)
    | none => (s.fs, s.closed)
  else (s.fs, s.closed)

/-- What dropping a reference writes. -/
theorem unref_eq (s : State σ β) (i : NodeId) :
    ∃ rc, rc = ((s.g_nodes i).refcount + 2^32 - 1) % 2^32 ∧
      s.unref i = { s.setNode i (dropRef (s.g_nodes i) rc) with
        fs := (s.lastClose i rc).1, closed := (s.lastClose i rc).2 } := by
  obtain ⟨rc, hrc⟩ : ∃ rc, rc = ((s.g_nodes i).refcount + 2^32 - 1) % 2^32 := ⟨_, rfl⟩
  refine ⟨rc, hrc, ?_⟩
  unfold unref lastClose dropRef
  rw [← hrc]
  by_cases hzero : rc = 0
  · simp only [if_pos hzero]
    -- The node is written twice, and only the second time counts.
    cases (s.g_nodes i).file with
    | none => simp only [setNode, update_self, update_idem]
    | some f =>
      unfold closeFile
      cases hop : s.op f.backend (·.close) with
      | none =>
        have hset : ∀ n, (s.setNode i n).op f.backend (·.close) = none := fun _ => hop
        simp only [hop, hset]
        simp only [setNode, update_self, update_idem]
      | some close =>
        have hset : ∀ n, (s.setNode i n).op f.backend (·.close) = some close := fun _ => hop
        simp only [hop, hset]
        simp only [setNode, update_self, update_idem]
  · simp only [if_neg hzero]
    rfl

theorem logged_lastClose (s : State σ β) (i : NodeId) : s.Logged (s.g_nodes i).file (s.lastClose i 0).2 := by
  unfold lastClose Logged hasClose
  rw [if_pos rfl]
  cases (s.g_nodes i).file with
  | none => rfl
  | some f =>
    dsimp only
    cases s.op f.backend (·.close) with
    | none => exact ⟨fun h => absurd h (by simp), fun _ => rfl⟩
    | some close => exact ⟨fun _ => rfl, fun h => absurd rfl h⟩

/-- The reference in flight is dropped. -/
theorem Inv.unref (h : Inv (some i) pending s) : Inv none pending (s.unref i) := by
  have hlt := count_lt s (some i) i
  have hsome : s.count (some i) i = s.count none i + 1 := by rw [count_some, if_pos rfl]
  have hlive : (s.g_nodes i).node_id ≠ 0 := (h.counts.used i).mpr (by omega)
  obtain ⟨rc, hrc, hunref⟩ := unref_eq s i
  have hcount : rc = s.count none i := by
    rw [hrc, h.counts.refcount i hlive, hsome]
    omega
  rw [hunref]
  by_cases hzero : rc = 0
  · subst hzero
    exact h.free hcount.symm rfl _ (logged_lastClose s i)
  rw [lastClose, if_neg hzero]
  have hid : (dropRef (s.g_nodes i) rc).node_id = (s.g_nodes i).node_id := if_neg hzero
  constructor
  · apply h.counts.setNode
    · rw [hid]
      exact h.counts.node_id i
    · rw [hid]
      exact iff_of_true hlive (by omega)
    · exact fun _ => hcount
    · intro j hj
      exact count_none_of_ne s hj
  · have hplace : (s.setNode i (dropRef (s.g_nodes i) rc)).fileAt pending = s.fileAt pending := by
      rw [fileAt_setNode, hid]
      exact update_eq_self (some i) (s.fileAt pending)
    change Filed _ _ _ ((s.setNode i (dropRef (s.g_nodes i) rc)).fileAt pending) _ _
    rw [hplace]
    exact h.files

/-- A free node may be written, if it stays free. -/
theorem Inv.scratch (h : Inv none pending s) (hi : (s.g_nodes i).node_id = 0) (hn : n.node_id = 0) :
    Inv none pending (s.setNode i n) := by
  have hused := h.counts.used i
  rw [hi] at hused
  constructor
  · apply h.counts.setNode (fun hne => absurd hn hne)
    · rw [hn]
      exact hused
    · exact fun hne => absurd hn hne
    · intro j _
      rfl
  · have hplace : (s.setNode i n).fileAt pending = s.fileAt pending := by
      rw [fileAt_setNode, if_pos hn]
      apply update_eq_self_iff.mpr
      exact (if_pos hi).symm
    rw [hplace]
    exact h.files

end State

end FreeAsd.Vfs
