import FreeAsd.Vfs.FileCalls
import FreeAsd.Vfs.RefCountRuns

/-!
# What a process sees of the VFS

A call on a descriptor in the table touches only nodes that the table points to (`Confined`), and has the same
result in two states that are the same to the process (`View`), up to a relation that its backends respect
(`Isolating`). A file that another opens can go unnoticed (`unnoticed_vfsOpen`).
-/

namespace FreeAsd.Vfs

open Function

variable {σ β : Type}

/-- What backends need to keep apart. States related by `r` are the same to a process that has the files
`K`: operations on these files have the same results in both. -/
structure Isolating (r : σ → σ → Prop) (K : OpenFile β → Prop)
    (portSend : ℕ → List UInt8 → σ → ℤ × σ) (backends : Fin maxBackends → Option (Backend σ β)) :
    Prop where
  equiv : Equivalence r
  read : ∀ f, K f → ∀ op ∈ (backends f.backend).bind (·.ops.read), ∀ n x y, r x y →
    (op f.bctx n x).1 = (op f.bctx n y).1 ∧ r (op f.bctx n x).2 (op f.bctx n y).2
  write : ∀ f, K f → ∀ op ∈ (backends f.backend).bind (·.ops.write), ∀ data x y, r x y →
    (op f.bctx data x).1 = (op f.bctx data y).1 ∧ r (op f.bctx data x).2 (op f.bctx data y).2
  seek : ∀ f, K f → ∀ op ∈ (backends f.backend).bind (·.ops.seek), ∀ off whence x y, r x y →
    (op f.bctx off whence x).1 = (op f.bctx off whence y).1 ∧
      r (op f.bctx off whence x).2 (op f.bctx off whence y).2
  close : ∀ f, K f → ∀ op ∈ (backends f.backend).bind (·.ops.close), ∀ x y, r x y →
    r (op f.bctx x) (op f.bctx y)
  port_send : ∀ id data x y, r x y →
    (portSend id data x).1 = (portSend id data y).1 ∧ r (portSend id data x).2 (portSend id data y).2

/-- `vfs_open` of the path does nothing that the process can tell: neither when the backend opens the file,
nor when the file is closed again for want of a node or a descriptor. -/
def OpensApart (r : σ → σ → Prop) (backends : Fin maxBackends → Option (Backend σ β)) (path : CStr)
    (flags : ℕ) : Prop :=
  ∀ canonical ∈ vfsCanonicalize path vfsPathMax, ∀ i rel_path,
    findBackend (fun i => (backends i).map (·.mount_pt)) canonical = some (i, rel_path) →
    ∀ op ∈ (backends i).bind (·.ops.open), ∀ x,
      r x (op rel_path (State.openFlags flags) x).2 ∧
      ∀ cl ∈ (backends i).bind (·.ops.close), ∀ b, (op rel_path (State.openFlags flags) x).1 = some b →
        r x (cl b (op rel_path (State.openFlags flags) x).2)

namespace State

/-- The table of the process points to the node. -/
def Owned (s : State σ β) (p : Pid) (i : NodeId) : Prop := ∃ fd, s.fd_table p fd = some i

variable {s t u : State σ β} {p : Pid} {i : NodeId}

/-! ## What a call touches -/

/-- Only nodes that the process has, and their rings, are changed from `s` to `t`. -/
structure Confined (p : Pid) (s t : State σ β) : Prop where
  nodes : ∀ i, ¬ s.Owned p i → t.g_nodes i = s.g_nodes i
  ring : ∀ i, (t.g_nodes i).ring = (s.g_nodes i).ring
  rings : ∀ a, (∀ i, s.Owned p i → (s.g_nodes i).ring ≠ some a) → t.rings a = s.rings a
  tables : ∀ q ≠ p, t.fd_table q = s.fd_table q
  owned : ∀ i, t.Owned p i → s.Owned p i

theorem Confined.refl (p : Pid) (s : State σ β) : Confined p s s :=
  ⟨fun _ _ => rfl, fun _ => rfl, fun _ _ => rfl, fun _ _ => rfl, fun _ h => h⟩

theorem Confined.trans (h : Confined p s t) (h' : Confined p t u) : Confined p s u := by
  constructor
  · intro i hi
    rw [h'.nodes i (mt (h.owned i) hi), h.nodes i hi]
  · intro i
    rw [h'.ring, h.ring]
  · intro a ha
    rw [h'.rings a (fun i hi => by rw [h.ring]; exact ha i (h.owned i hi)), h.rings a ha]
  · intro q hq
    rw [h'.tables q hq, h.tables q hq]
  · exact fun i hi => h.owned i (h'.owned i hi)

/-- The backend changes its state. -/
theorem Confined.setFs (p : Pid) (s : State σ β) (fs : σ) : Confined p s { s with fs := fs } :=
  ⟨fun _ _ => rfl, fun _ => rfl, fun _ _ => rfl, fun _ _ => rfl, fun _ h => h⟩

/-- A node of the process is written. -/
theorem Confined.setNode (hi : s.Owned p i) {n : Node β} (hn : n.ring = (s.g_nodes i).ring) :
    Confined p s (s.setNode i n) := by
  refine ⟨?_, ?_, fun _ _ => rfl, fun _ _ => rfl, fun _ h => h⟩
  · intro j hj
    have hji : j ≠ i := by
      rintro rfl
      exact hj hi
    exact update_of_ne hji ..
  · intro j
    by_cases hji : j = i
    · rw [hji, State.setNode]
      dsimp only
      rw [update_self, hn]
    · rw [State.setNode]
      dsimp only
      rw [update_of_ne hji]

/-- The ring of a node of the process is written. -/
theorem Confined.setRing (hi : s.Owned p i) {a : ℕ} (ha : (s.g_nodes i).ring = some a)
    (rb : Ipc.Ringbuf) : Confined p s { s with rings := update s.rings a rb } := by
  refine ⟨fun _ _ => rfl, fun _ => rfl, ?_, fun _ _ => rfl, fun _ h => h⟩
  intro b hb
  apply update_of_ne
  rintro rfl
  exact hb i hi ha

theorem Confined.setOffset (hi : s.Owned p i) (offset : ℕ) : Confined p s (s.setOffset i offset) :=
  Confined.setNode hi rfl

/-- The backend changes its state, and then the offset of a node of the process is set. -/
theorem Confined.setFsOffset (hi : s.Owned p i) (fs : σ) (offset : ℕ) :
    Confined p s (State.setOffset { s with fs := fs } i offset) :=
  (Confined.setFs p s fs).trans (Confined.setOffset (s := { s with fs := fs }) hi offset)

/-- A place of the table is emptied. -/
theorem Confined.setFd (p : Pid) (s : State σ β) (fd : Fd) : Confined p s (s.setFd p fd none) := by
  refine ⟨fun _ _ => rfl, fun _ => rfl, fun _ _ => rfl, ?_, ?_⟩
  · intro q hq
    exact update_of_ne hq ..
  · rintro i ⟨x, hx⟩
    rw [setFd_fd_table] at hx
    split_ifs at hx
    exact ⟨x, hx⟩

variable {fd : ℕ} {portSend : ℕ → List UInt8 → σ → ℤ × σ}

section

variable (hfd : fd < maxFds ∨ maxFds + maxVfsNodes ≤ fd)

include hfd

/-- A descriptor in the table is a node of the process, and one that is too large is none. -/
theorem exists_slot_of_lookup (h : s.lookup (some p) fd = some i) :
    ∃ hlt : fd < maxFds, s.fd_table p ⟨fd, hlt⟩ = some i := by
  rw [lookup] at h
  rcases hfd with hlt | hge
  · rw [dif_pos hlt] at h
    exact ⟨hlt, h⟩
  · rw [dif_neg (by omega), dif_neg (by omega)] at h
    cases h

theorem owned_of_lookup (h : s.lookup (some p) fd = some i) : s.Owned p i :=
  ⟨_, (exists_slot_of_lookup hfd h).2⟩

theorem confined_vfsRead (n : ℕ) : Confined p s (s.vfsRead (some p) fd n).2 := by
  unfold vfsRead
  split_ifs
  · exact .refl p s
  split
  next => exact .refl p s
  next i hi =>
  have howned := owned_of_lookup hfd hi
  split
  next a ha => exact .setRing howned ha _
  next =>
  split
  next => exact .refl p s
  next f hf =>
  split
  next => exact .refl p s
  next read hread =>
    dsimp only
    split_ifs
    · exact .setFsOffset howned _ _
    · exact .setFs p s _

theorem confined_vfsWrite (data : List UInt8) : Confined p s (s.vfsWrite portSend (some p) fd data).2 := by
  unfold vfsWrite
  split_ifs
  · exact .refl p s
  split
  next => exact .refl p s
  next i hi =>
  have howned := owned_of_lookup hfd hi
  split
  next a ha => exact .setRing howned ha _
  next =>
  split_ifs
  · exact .setFs p s _
  split
  next => exact .refl p s
  next f hf =>
  split
  next => exact .refl p s
  next write hwrite =>
    dsimp only
    split_ifs
    · exact .setFsOffset howned _ _
    · exact .setFs p s _

theorem confined_vfsSeek (off whence : ℤ) : Confined p s (s.vfsSeek (some p) fd off whence).2 := by
  unfold vfsSeek
  split_ifs
  · exact .refl p s
  split
  next => exact .refl p s
  next i hi =>
  have howned := owned_of_lookup hfd hi
  split
  next rc fs hseek =>
    split_ifs
    · exact .setFsOffset howned _ _
    · exact .setFs p s _
  next =>
  split
  next => exact .refl p s
  next new_off _ =>
    split_ifs
    · exact .refl p s
    · exact .setOffset howned _

theorem confined_vfsClose : Confined p s (s.vfsClose (some p) fd).2 := by
  unfold vfsClose
  by_cases hstd : fd ≤ 2
  · rw [if_pos hstd]
    exact .refl p s
  rw [if_neg hstd]
  split
  next => exact .refl p s
  next i hi =>
    obtain ⟨hlt, hslot⟩ := exists_slot_of_lookup hfd hi
    dsimp only
    rw [dif_pos hlt]
    obtain ⟨rc, -, hunref⟩ := unref_eq (s.setFd p ⟨fd, hlt⟩ none) i
    rw [hunref]
    -- The node was the process's when the call began.
    have hset := Confined.setNode ⟨_, hslot⟩ (n := dropRef (s.g_nodes i) rc) rfl
    have htable := Confined.setFd p (s.setNode i (dropRef (s.g_nodes i) rc)) ⟨fd, hlt⟩
    obtain ⟨hnodes, hringeq, hrings, htables, howned'⟩ := hset.trans htable
    exact ⟨hnodes, hringeq, hrings, htables, howned'⟩

end

/-! ## What a process sees -/

/-- The nodes of a process are in use, have at least its references counted, and their files are
in `K`. -/
structure Holds (B : Fin maxBackends → Option (Backend σ β)) (K : OpenFile β → Prop) (p : Pid)
    (s : State σ β) : Prop where
  backends : s.g_backends = B
  used : ∀ i, s.Owned p i → (s.g_nodes i).node_id ≠ 0
  refs_le : ∀ i, s.Owned p i → refs (s.fd_table p) i ≤ (s.g_nodes i).refcount
  refcount_lt : ∀ i, s.Owned p i → (s.g_nodes i).refcount < 2^32
  files : ∀ i, s.Owned p i → ∀ f ∈ (s.g_nodes i).file, K f

/-- Two states are the same to a process: its table, its nodes, their rings, and the state behind the
VFS up to `r`. -/
structure View (B : Fin maxBackends → Option (Backend σ β)) (K : OpenFile β → Prop)
    (r : σ → σ → Prop) (p : Pid) (s t : State σ β) : Prop where
  left : Holds B K p s
  right : Holds B K p t
  table : t.fd_table p = s.fd_table p
  nodes : ∀ i, s.Owned p i → t.g_nodes i = s.g_nodes i
  rings : ∀ i, s.Owned p i → ∀ a ∈ (s.g_nodes i).ring, t.rings a = s.rings a
  fs : r s.fs t.fs

variable {B : Fin maxBackends → Option (Backend σ β)} {K : OpenFile β → Prop} {r : σ → σ → Prop}

theorem Owned.of_table (htable : t.fd_table p = s.fd_table p) (hi : t.Owned p i) : s.Owned p i := by
  obtain ⟨fd, hfd⟩ := hi
  exact ⟨fd, by rw [← htable, hfd]⟩

theorem Holds.op_eq {α : Type} (h : Holds B K p s) (i : Fin maxBackends)
    (sel : Ops σ β → Option α) : s.op i sel = (B i).bind fun b => sel b.ops := by
  rw [op, h.backends]

/-- What is to be shown of each node of the process. -/
theorem Holds.of_nodes (hbackends : s.g_backends = B) (h : ∀ i, s.Owned p i → (s.g_nodes i).node_id ≠ 0 ∧
      refs (s.fd_table p) i ≤ (s.g_nodes i).refcount ∧ (s.g_nodes i).refcount < 2^32 ∧
      ∀ f ∈ (s.g_nodes i).file, K f) : Holds B K p s :=
  ⟨hbackends, fun i hi => (h i hi).1, fun i hi => (h i hi).2.1, fun i hi => (h i hi).2.2.1,
    fun i hi => (h i hi).2.2.2⟩

/-- The table and what the process needs of its nodes are the same. -/
theorem Holds.congr (h : Holds B K p s) (hbackends : t.g_backends = s.g_backends)
    (htable : t.fd_table p = s.fd_table p)
    (hnode : ∀ i, s.Owned p i → (t.g_nodes i).node_id = (s.g_nodes i).node_id ∧
      (t.g_nodes i).refcount = (s.g_nodes i).refcount ∧ (t.g_nodes i).file = (s.g_nodes i).file) :
    Holds B K p t := by
  have howned := fun i => Owned.of_table (i := i) htable
  refine .of_nodes (hbackends.trans h.backends) fun i hi => ?_
  obtain ⟨hid, hrc, hfile⟩ := hnode i (howned i hi)
  rw [hid, hrc, hfile, htable]
  exact ⟨h.used i (howned i hi), h.refs_le i (howned i hi), h.refcount_lt i (howned i hi),
    h.files i (howned i hi)⟩

theorem Holds.setOffset (h : Holds B K p s) (i : NodeId) (offset : ℕ) : Holds B K p (s.setOffset i offset) := by
  refine h.congr rfl rfl fun j _ => ?_
  unfold State.setOffset State.setNode
  dsimp only
  by_cases hji : j = i
  · rw [hji, update_self]
    exact ⟨rfl, rfl, rfl⟩
  · rw [update_of_ne hji]
    exact ⟨rfl, rfl, rfl⟩

/-- A process gives up a place of its table, and the reference with it. -/
theorem Holds.close {fd : Fd} (h : Holds B K p s) (hfd : s.fd_table p fd = some i) {rc : ℕ}
    (hrc : rc = ((s.g_nodes i).refcount + 2^32 - 1) % 2^32) (x : σ) (c : List ℕ) :
    Holds B K p { (s.setFd p fd none).setNode i (dropRef (s.g_nodes i) rc) with
      fs := x, closed := c } := by
  generalize hu : { (s.setFd p fd none).setNode i (dropRef (s.g_nodes i) rc) with
    fs := x, closed := c } = u
  have htable : u.fd_table p = update (s.fd_table p) fd none := by
    rw [← hu]
    exact update_self ..
  have hself : u.g_nodes i = dropRef (s.g_nodes i) rc := by
    rw [← hu]
    exact update_self ..
  have hne : ∀ j ≠ i, u.g_nodes j = s.g_nodes j := by
    intro j hj
    rw [← hu]
    exact update_of_ne hj ..
  have howned : ∀ j, u.Owned p j → s.Owned p j := by
    rintro j ⟨y, hy⟩
    rw [htable, update_apply] at hy
    split_ifs at hy
    exact ⟨y, hy⟩
  have hrefs : ∀ j, refs (u.fd_table p) j + (if i = j then 1 else 0) = refs (s.fd_table p) j := by
    intro j
    have hup := refs_update (s.fd_table p) fd none j
    rw [hfd] at hup
    simp only [Option.some.injEq, reduceCtorEq, if_false, add_zero] at hup
    rw [htable]
    exact hup
  have hi : s.Owned p i := ⟨fd, hfd⟩
  -- If the process has the node still, then there was more than one reference.
  have hleft : u.Owned p i → rc = (s.g_nodes i).refcount - 1 ∧ rc ≠ 0 := by
    rintro ⟨y, hy⟩
    have hpos := refs_pos hy
    have hi' := hrefs i
    rw [if_pos rfl] at hi'
    have hle := h.refs_le i hi
    have hlt := h.refcount_lt i hi
    omega
  refine .of_nodes (by rw [← hu]; exact h.backends) fun j hj => ?_
  have hj' := hrefs j
  by_cases hji : j = i
  · subst hji
    rw [if_pos rfl] at hj'
    obtain ⟨hrc', hne0⟩ := hleft hj
    have hle := h.refs_le j hi
    rw [hself, dropRef, if_neg hne0]
    exact ⟨h.used j hi, by dsimp only; omega, by dsimp only; omega, h.files j hi⟩
  · have hle := h.refs_le j (howned j hj)
    rw [hne j hji]
    exact ⟨h.used j (howned j hj), by omega, h.refcount_lt j (howned j hj), h.files j (howned j hj)⟩

/-- A call has the same result in both states, and they remain the same to the process. -/
def Consistent {α : Type} (B : Fin maxBackends → Option (Backend σ β)) (K : OpenFile β → Prop)
    (r : σ → σ → Prop) (p : Pid) (x y : α × State σ β) : Prop :=
  x.1 = y.1 ∧ View B K r p x.2 y.2

/-- `vfs_seek` where the backend cannot seek. -/
def seekPlain (s : State σ β) (i : NodeId) (off whence : ℤ) : ℤ × State σ β :=
  match seekTarget (s.g_nodes i) off whence with
  | .error e => (e.code, s)
  | .ok new_off =>
    if new_off < 0 then (VfsError.einval.code, s) else (new_off, s.setOffset i new_off.toNat)

section

variable (hiso : Isolating r K portSend B) (h : View B K r p s t)
  (hfd : fd < maxFds ∨ maxFds + maxVfsNodes ≤ fd)

include h

theorem View.op_eq {α : Type} (i : Fin maxBackends) (sel : Ops σ β → Option α) : t.op i sel = s.op i sel := by
  rw [h.left.op_eq, h.right.op_eq]

theorem View.setFs {x y : σ} (hxy : r x y) : View B K r p { s with fs := x } { t with fs := y } :=
  { h with left := { h.left with }, right := { h.right with }, fs := hxy }

theorem View.setRing (a : ℕ) (rb : Ipc.Ringbuf) :
    View B K r p { s with rings := update s.rings a rb }
      { t with rings := update t.rings a rb } := by
  refine { h with left := { h.left with }, right := { h.right with }, rings := fun i hi b hb => ?_ }
  by_cases hba : b = a
  · rw [hba]
    dsimp only
    rw [update_self, update_self]
  · dsimp only
    rw [update_of_ne hba, update_of_ne hba]
    exact h.rings i hi b hb

/-- One change to a node of the process in both states, which leaves the ring alone. -/
theorem View.updateNode {j : NodeId} (hi : s.Owned p i) {f : Node β → Node β}
    (hf : ∀ n, (f n).ring = n.ring) (hj : s.Owned p j) :
    update t.g_nodes i (f (t.g_nodes i)) j = update s.g_nodes i (f (s.g_nodes i)) j ∧
      ∀ a ∈ (update s.g_nodes i (f (s.g_nodes i)) j).ring, t.rings a = s.rings a := by
  by_cases hji : j = i
  · rw [hji, update_self, update_self, h.nodes i hi, hf]
    exact ⟨rfl, h.rings i hi⟩
  · rw [update_of_ne hji, update_of_ne hji]
    exact ⟨h.nodes j hj, h.rings j hj⟩

theorem View.setOffset (hi : s.Owned p i) (offset : ℕ) :
    View B K r p (s.setOffset i offset) (t.setOffset i offset) := by
  have hnode := fun j => h.updateNode (j := j) hi (f := fun n => { n with offset := offset }) fun _ => rfl
  exact ⟨h.left.setOffset i offset, h.right.setOffset i offset, h.table, fun j hj => (hnode j hj).1,
    fun j hj => (hnode j hj).2, h.fs⟩

/-- The backend gives the same answer in both states, and for some answers the offset is set. -/
theorem View.answered {α : Type} (hi : s.Owned p i) {a b : α × σ} (hab : a.1 = b.1 ∧ r a.2 b.2)
    (c : α → Prop) [DecidablePred c] (offset : α → ℕ) :
    Consistent B K r p
      (a.1, if c a.1 then State.setOffset { s with fs := a.2 } i (offset a.1) else { s with fs := a.2 })
      (b.1, if c b.1 then State.setOffset { t with fs := b.2 } i (offset b.1) else { t with fs := b.2 }) := by
  obtain ⟨rc, x⟩ := a
  obtain ⟨rc', y⟩ := b
  obtain ⟨rfl, hfs⟩ : rc = rc' ∧ r x y := hab
  refine ⟨rfl, ?_⟩
  dsimp only
  split_ifs
  · exact (h.setFs hfs).setOffset hi _
  · exact h.setFs hfs

theorem View.seekPlain {i : NodeId} (howned : s.Owned p i) (off whence : ℤ) :
    Consistent B K r p (s.seekPlain i off whence) (t.seekPlain i off whence) := by
  unfold State.seekPlain
  rw [h.nodes i howned]
  cases seekTarget (s.g_nodes i) off whence with
  | error e => exact ⟨rfl, h⟩
  | ok new_off =>
    dsimp only
    split_ifs
    · exact ⟨rfl, h⟩
    · exact ⟨rfl, h.setOffset howned _⟩

include hfd in
/-- A descriptor in the table is the same node in both states. -/
theorem View.lookup_eq : t.lookup (some p) fd = s.lookup (some p) fd := by
  rw [lookup, lookup]
  rcases hfd with hlt | hge
  · rw [dif_pos hlt, dif_pos hlt]
    dsimp only
    rw [h.table]
  · rw [dif_neg (by omega), dif_neg (by omega), dif_neg (by omega), dif_neg (by omega)]

include hfd in
/-- The first tests of a call on a descriptor. -/
theorem View.lookup_cases {α : Type} {c : Prop} [Decidable c] {e e' : α} {f g : NodeId → α × State σ β}
    (hbody : ∀ i, s.lookup (some p) fd = some i → s.Owned p i → Consistent B K r p (f i) (g i)) :
    Consistent B K r p
      (if c then (e, s) else match s.lookup (some p) fd with | none => (e', s) | some i => f i)
      (if c then (e, t) else match t.lookup (some p) fd with | none => (e', t) | some i => g i) := by
  rw [h.lookup_eq hfd]
  split_ifs with hc
  · exact ⟨rfl, h⟩
  cases hi : s.lookup (some p) fd with
  | none => exact ⟨rfl, h⟩
  | some i => exact hbody i hi (owned_of_lookup hfd hi)

include hiso

theorem View.symm : View B K r p t s := by
  have howned := fun i => Owned.of_table (i := i) h.table
  refine ⟨h.right, h.left, h.table.symm, ?_, ?_, hiso.equiv.symm h.fs⟩
  · intro i hi
    exact (h.nodes i (howned i hi)).symm
  · intro i hi a ha
    rw [h.nodes i (howned i hi)] at ha
    exact (h.rings i (howned i hi) a ha).symm

/-- A reference to the same node is dropped in both states. -/
theorem View.lastClose (hi : s.Owned p i) (rc : ℕ) : r (s.lastClose i rc).1 (t.lastClose i rc).1 := by
  unfold State.lastClose
  rw [h.nodes i hi]
  split_ifs
  · cases hfile : (s.g_nodes i).file with
    | none => exact h.fs
    | some f =>
      dsimp only
      rw [h.op_eq]
      cases hop : s.op f.backend (·.close) with
      | none => exact h.fs
      | some cl =>
        exact hiso.close f (h.left.files i hi f hfile) cl ((h.left.op_eq ..).symm.trans hop) _ _ h.fs
  · exact h.fs

theorem View.close {fd : Fd} (hfd : s.fd_table p fd = some i) :
    View B K r p ((s.setFd p fd none).unref i) ((t.setFd p fd none).unref i) := by
  have hfd' : t.fd_table p fd = some i := by rw [h.table, hfd]
  have hi : s.Owned p i := ⟨fd, hfd⟩
  have hnode := h.nodes i hi
  obtain ⟨rc, hrc, hs⟩ := unref_eq (s.setFd p fd none) i
  obtain ⟨rc', hrc', ht⟩ := unref_eq (t.setFd p fd none) i
  obtain rfl : rc = rc' := by
    rw [hrc, hrc', show (t.setFd p fd none).g_nodes i = (s.setFd p fd none).g_nodes i from hnode]
  rw [hs, ht]
  have howned : ∀ j, (s.setFd p fd none).Owned p j → s.Owned p j :=
    fun j hj => (Confined.setFd p s fd).owned j hj
  have hupdate := fun j => h.updateNode (j := j) hi (f := fun n => dropRef n rc) fun _ => rfl
  refine ⟨h.left.close hfd hrc _ _, h.right.close hfd' hrc' _ _, ?_, fun j hj => (hupdate j (howned j hj)).1,
    fun j hj => (hupdate j (howned j hj)).2, h.lastClose hiso hi rc⟩
  change update t.fd_table p (update (t.fd_table p) fd none) p =
    update s.fd_table p (update (s.fd_table p) fd none) p
  rw [update_self, update_self, h.table]

include hfd

theorem consistent_vfsRead (n : ℕ) :
    Consistent B K r p (s.vfsRead (some p) fd n) (t.vfsRead (some p) fd n) := by
  refine h.lookup_cases hfd fun i _ howned => ?_
  dsimp only
  rw [h.nodes i howned]
  cases hring : (s.g_nodes i).ring with
  | some a =>
    dsimp only
    rw [h.rings i howned a hring]
    exact ⟨rfl, h.setRing a _⟩
  | none =>
    cases hfile : (s.g_nodes i).file with
    | none => exact ⟨rfl, h⟩
    | some f =>
      dsimp only
      rw [h.op_eq]
      cases hop : s.op f.backend (·.read) with
      | none => exact ⟨rfl, h⟩
      | some read =>
        exact h.answered howned (hiso.read f (h.left.files i howned f hfile) read
          ((h.left.op_eq ..).symm.trans hop) n _ _ h.fs) (·.1 = 0) fun a => (_ + a.2.length) % 2^64

theorem consistent_vfsWrite (data : List UInt8) :
    Consistent B K r p (s.vfsWrite portSend (some p) fd data)
      (t.vfsWrite portSend (some p) fd data) := by
  refine h.lookup_cases hfd fun i _ howned => ?_
  dsimp only
  rw [h.nodes i howned]
  cases hring : (s.g_nodes i).ring with
  | some a =>
    dsimp only
    rw [h.rings i howned a hring]
    exact ⟨rfl, h.setRing a _⟩
  | none =>
    split_ifs with hport
    · obtain ⟨hres, hfs⟩ := hiso.port_send (s.g_nodes i).port_id data _ _ h.fs
      exact ⟨hres, h.setFs hfs⟩
    cases hfile : (s.g_nodes i).file with
    | none => exact ⟨rfl, h⟩
    | some f =>
      dsimp only
      rw [h.op_eq]
      cases hop : s.op f.backend (·.write) with
      | none => exact ⟨rfl, h⟩
      | some write =>
        exact h.answered howned (hiso.write f (h.left.files i howned f hfile) write
          ((h.left.op_eq ..).symm.trans hop) data _ _ h.fs) (· = 0) fun _ => _

theorem consistent_vfsSeek (off whence : ℤ) :
    Consistent B K r p (s.vfsSeek (some p) fd off whence) (t.vfsSeek (some p) fd off whence) := by
  refine h.lookup_cases hfd fun i _ howned => ?_
  have hfiles : (t.g_nodes i).file = (s.g_nodes i).file := by rw [h.nodes i howned]
  rw [hfiles]
  cases hfile : (s.g_nodes i).file with
  | none => exact h.seekPlain howned off whence
  | some f =>
    rw [Option.bind_some, Option.bind_some, h.op_eq]
    cases hop : s.op f.backend (·.seek) with
    | none => exact h.seekPlain howned off whence
    | some seek =>
      exact h.answered howned (hiso.seek f (h.left.files i howned f hfile) seek
        ((h.left.op_eq ..).symm.trans hop) off whence _ _ h.fs) (· ≥ 0) Int.toNat

theorem consistent_vfsClose : Consistent B K r p (s.vfsClose (some p) fd) (t.vfsClose (some p) fd) := by
  refine h.lookup_cases hfd fun i hi _ => ?_
  obtain ⟨hlt, hslot⟩ := exists_slot_of_lookup hfd hi
  rw [dif_pos hlt, dif_pos hlt]
  refine ⟨rfl, ?_⟩
  dsimp only
  exact h.close hiso hslot

end

/-! ## What others do -/

/-- A change that a process does not notice: nodes in use and its table are the same. -/
structure Unnoticed (r : σ → σ → Prop) (p : Pid) (s t : State σ β) : Prop where
  nodes : ∀ i, (s.g_nodes i).node_id ≠ 0 → t.g_nodes i = s.g_nodes i
  table : t.fd_table p = s.fd_table p
  rings : t.rings = s.rings
  backends : t.g_backends = s.g_backends
  fs : r s.fs t.fs

theorem View.unnoticed (hiso : Isolating r K portSend B) (h : View B K r p s t)
    (hu : Unnoticed r p s u) : View B K r p u t := by
  have howned := fun i => Owned.of_table (i := i) hu.table
  have hnode : ∀ i, u.Owned p i → u.g_nodes i = s.g_nodes i := fun i hi =>
    hu.nodes i (h.left.used i (howned i hi))
  have hleft : Holds B K p u := h.left.congr hu.backends hu.table fun i hi => by
    rw [hu.nodes i (h.left.used i hi)]
    exact ⟨rfl, rfl, rfl⟩
  refine ⟨hleft, h.right, ?_, ?_, ?_, ?_⟩
  · rw [h.table, hu.table]
  · intro i hi
    rw [hnode i hi]
    exact h.nodes i (howned i hi)
  · intro i hi a ha
    rw [hnode i hi] at ha
    rw [hu.rings]
    exact h.rings i (howned i hi) a ha
  · exact hiso.equiv.trans (hiso.equiv.symm hu.fs) h.fs

/-- The state behind the VFS after the file that was just opened may have been closed again. -/
theorem closeFile_fs {x : σ} {f : OpenFile β} (hfs : r x s.fs)
    (hclose : ∀ cl ∈ s.op f.backend (·.close), r x (cl f.bctx s.fs)) :
    ∃ fs closed, s.closeFile f = { s with fs := fs, closed := closed } ∧ r x fs := by
  unfold closeFile
  cases hop : s.op f.backend (·.close) with
  | none => exact ⟨s.fs, s.closed, rfl, hfs⟩
  | some cl => exact ⟨_, _, rfl, hclose cl hop⟩

theorem unnoticed_installNode {f : OpenFile β} {rel_path : CStr} {flags : ℕ} {caller : Option Pid}
    {x : σ} (hfree : (s.g_nodes i).node_id = 0) (hcaller : caller ≠ some p) (hfs : r x s.fs)
    (hclose : ∀ cl ∈ s.op f.backend (·.close), r x (cl f.bctx s.fs)) :
    Unnoticed r p { s with fs := x } (s.installNode i f rel_path flags caller).2 := by
  have hnodes : ∀ (n : Node β) j, (s.g_nodes j).node_id ≠ 0 → update s.g_nodes i n j = s.g_nodes j := by
    intro n j hj
    apply update_of_ne
    rintro rfl
    exact hj hfree
  unfold installNode
  dsimp only
  obtain ⟨n, hn⟩ : ∃ n : Node β,
    n = ⟨i.val, 1, flags % 2^32, 0, s.statSize f.backend rel_path, some f, none, 0⟩ := ⟨_, rfl⟩
  rw [← hn]
  cases caller with
  | none => exact ⟨hnodes n, rfl, rfl, rfl, hfs⟩
  | some q =>
    have hqp : p ≠ q := by
      rintro rfl
      exact hcaller rfl
    dsimp only
    split
    next fd fds hfds =>
      refine ⟨hnodes n, ?_, rfl, rfl, hfs⟩
      exact update_of_ne hqp ..
    next =>
      generalize hv : (s.setNode i n).setNode i
        { (s.setNode i n).g_nodes i with node_id := 0 } = v
      have hvfs : v.fs = s.fs := by rw [← hv]; rfl
      have hvop : ∀ {α} (sel : Ops σ β → Option α), v.op f.backend sel = s.op f.backend sel := by
        intro α sel
        rw [← hv]
        rfl
      obtain ⟨fs, closed, hcl, hr⟩ := closeFile_fs (s := v) (f := f) (r := r) (x := x)
        (by rw [hvfs]; exact hfs) (by rw [hvfs, hvop]; exact hclose)
      rw [hcl]
      refine ⟨?_, by rw [← hv]; rfl, by rw [← hv]; rfl, by rw [← hv]; rfl, hr⟩
      intro j hj
      rw [← hv]
      simp only [State.setNode, update_idem]
      exact hnodes _ j hj

/-- The process does not notice a file that somebody else opens apart from its own. -/
theorem unnoticed_vfsOpen (hiso : Isolating r K portSend B) (hB : s.g_backends = B) {path : CStr}
    {flags : ℕ} {caller : Option Pid} (hcaller : caller ≠ some p) (hapart : OpensApart r B path flags) :
    Unnoticed r p s (s.vfsOpen path flags caller).2 := by
  have hrefl : Unnoticed r p s s := ⟨fun _ _ => rfl, rfl, rfl, rfl, hiso.equiv.refl _⟩
  unfold vfsOpen
  split_ifs
  · exact hrefl
  split
  · exact hrefl
  next canonical hcanonical =>
  unfold openAt
  dsimp only
  split
  · exact hrefl
  next b rel_path hfind =>
  unfold openFile
  cases hop : s.op b (·.open) with
  | none => exact hrefl
  | some op =>
    have hop' : (B b).bind (·.ops.open) = some op := by rw [← hB]; exact hop
    obtain ⟨hx, hclose'⟩ := hapart canonical hcanonical b rel_path (hB ▸ hfind) op hop' s.fs
    dsimp only
    rcases hres : op rel_path (openFlags flags) s.fs with ⟨c, x⟩
    rw [hres] at hx hclose'
    cases c with
    | none => exact ⟨fun _ _ => rfl, rfl, rfl, rfl, hx⟩
    | some c =>
      have hclose : ∀ cl ∈ s.op b (·.close), r s.fs (cl c x) := by
        intro cl hcl
        exact hclose' cl (by rw [← hB]; exact hcl) c rfl
      generalize hv : { s with fs := x, opened := s.opened ++ [b] } = v
      have hvop : v.op b (·.close) = s.op b (·.close) := by
        rw [← hv]
        rfl
      have hvfs : v.fs = x := by rw [← hv]
      dsimp only
      rw [hv]
      split
      next w halloc =>
        obtain rfl := allocNodeId_none halloc
        obtain ⟨fs, closed, hcl, hr⟩ := closeFile_fs (s := w) (f := ⟨b, c, s.opened.length⟩) (r := r)
          (x := s.fs) (by rw [hvfs]; exact hx) (by rw [hvop, hvfs]; exact hclose)
        rw [hcl, ← hv]
        exact ⟨fun _ _ => rfl, rfl, rfl, rfl, hr⟩
      next nid w halloc =>
        obtain ⟨hfind, rfl⟩ := allocNodeId_some halloc
        obtain ⟨-, hfree, -⟩ := findFree_some hfind
        have hinstall : Unnoticed r p { v with g_next_node_id := nextNodeId nid, fs := s.fs }
            (State.installNode { v with g_next_node_id := nextNodeId nid } nid
              ⟨b, c, s.opened.length⟩ rel_path (openFlags flags) caller).2 := by
          apply unnoticed_installNode (s := { v with g_next_node_id := nextNodeId nid }) hfree hcaller
          · rw [hvfs]
            exact hx
          · intro cl hcl
            rw [hvfs]
            exact hclose cl (hvop ▸ hcl)
        obtain ⟨hn, ht, hrings, hb, hr⟩ := hinstall
        subst hv
        exact ⟨hn, ht, hrings, hb, hr⟩

end State

end FreeAsd.Vfs
