import FreeAsd.Shell.Redirect
import FreeAsd.Vfs.RefCountRuns

/-!
# Tables after redirections

What saving, redirecting and restoring a place does to a descriptor table: if there was something in the place,
only the place where it was saved changes (`stage_some`); if not, the place keeps the descriptor.
-/

namespace FreeAsd.Shell

open Function Vfs

/-- A descriptor table. -/
abbrev Table := Fd → Option NodeId

/-! ## Operations on tables -/

/-- `vfs_dup2` on the table. -/
def Table.dup (T : Table) (a b : Fd) : Table :=
  match T a with
  | none => T
  | some i => Function.update T b (some i)

/-- A place is emptied. -/
def Table.clear (T : Table) (a : Fd) : Table := Function.update T a none

namespace Table

variable {T : Table} {a b x target save fd : Fd} {i : NodeId}

theorem clear_of_none (h : T a = none) : T.clear a = T := by
  rw [clear, ← h, update_eq_self]

@[simp]
theorem clear_self (T : Table) (a : Fd) : T.clear a a = none := update_self ..

theorem clear_of_ne (T : Table) (h : x ≠ a) : T.clear a x = T x := update_of_ne h ..

theorem clear_eq_of {v : Option NodeId} (hself : x = a → v = none) (hne : x ≠ a → T x = v) :
    T.clear a x = v := by
  by_cases h : x = a
  · rw [h, clear_self, hself h]
  · rw [clear_of_ne T h, hne h]

theorem dup_of_none (h : T a = none) (b : Fd) : T.dup a b = T := by
  rw [dup, h]

theorem dup_of_some (h : T a = some i) (b : Fd) : T.dup a b = update T b (some i) := by
  rw [dup, h]

theorem dup_of_ne (T : Table) (a : Fd) (h : x ≠ b) : T.dup a b x = T x := by
  cases ha : T a with
  | none => rw [dup_of_none ha]
  | some i => rw [dup_of_some ha, update_of_ne h]

/-- The place that is written has what it had, or something. -/
theorem dup_eq_update (T : Table) (a b : Fd) : ∃ v, T.dup a b = update T b v := by
  cases h : T a with
  | none => exact ⟨T b, by rw [dup_of_none h, update_eq_self]⟩
  | some i => exact ⟨some i, dup_of_some h b⟩

/-- A place to which something is duplicated has something in it. -/
theorem dup_of_ne_none (h : T a ≠ none) (b : Fd) : T.dup a b b ≠ none := by
  obtain ⟨i, hi⟩ := Option.ne_none_iff_exists'.mp h
  rw [dup_of_some hi, update_self]
  exact Option.some_ne_none i

/-- A place with something in it keeps something. -/
theorem dup_ne_none (h : T b ≠ none) (a : Fd) : T.dup a b b ≠ none := by
  by_cases ha : T a = none
  · rwa [dup_of_none ha]
  · exact dup_of_ne_none ha b

/-- Saving a place, redirecting it, and restoring it, as the user's shell does. -/
def stage (T : Table) (target save fd : Fd) : Table :=
  (((T.dup target save).dup fd target).dup save target).clear save

theorem stage_of_ne (T : Table) (fd : Fd) (htarget : x ≠ target) (hsave : x ≠ save) :
    T.stage target save fd x = T x := by
  rw [stage, clear_of_ne _ hsave, dup_of_ne _ _ htarget, dup_of_ne _ _ htarget, dup_of_ne _ _ hsave]

/-- What was in the place is there again, whatever it was redirected to. -/
theorem stage_some (h : T target = some i) (hne : save ≠ target) (fd : Fd) :
    T.stage target save fd = T.clear save := by
  have hsaved : T.dup target save = update T save (some i) := dup_of_some h save
  obtain ⟨U, hU⟩ : ∃ U : Table, U = update T save (some i) := ⟨_, rfl⟩
  have hUsave : U save = some i := by rw [hU, update_self]
  have hUtarget : U target = some i := by rw [hU, update_of_ne hne.symm, h]
  obtain ⟨v, hv⟩ := dup_eq_update U fd target
  have hback : (update U target v) save = some i := by rw [update_of_ne hne, hUsave]
  calc
    T.stage target save fd = ((U.dup fd target).dup save target).clear save := by
      rw [stage, hsaved, hU]
    _ = clear (update (update U target v) target (some i)) save := by
      rw [hv, dup_of_some hback]
    _ = U.clear save := by rw [update_idem, ← hUtarget, update_eq_self]
    _ = T.clear save := by rw [clear, hU, update_idem, clear]

/-- An empty place is not empty afterwards, if it was redirected to something or there was something
where it should have been saved. -/
theorem stage_none (h : T target = none) (hne : save ≠ target) (hfd : T fd ≠ none ∨ T save ≠ none) :
    T.stage target save fd target ≠ none := by
  rw [stage, clear_of_ne _ hne.symm, dup_of_none h]
  rcases hfd with hfd | hsave
  · exact dup_ne_none (dup_of_ne_none hfd target) save
  · apply dup_of_ne_none
    rwa [dup_of_ne _ _ hne]

/-- The same as the kernel's shell does it: closing the place has no effect, and what was not saved is not
restored. -/
def kernelStage (T : Table) (target save fd : Fd) : Table :=
  if (T target).isSome then T.stage target save fd else T.dup fd target

end Table

/-! ## Calls on the table -/

section

variable {σ β : Type} {p : Pid} (o : Surroundings σ β p) (r : Run σ β)

/-- The table of the shell. -/
def Run.table (p : Pid) (r : Run σ β) : Table := r.vfs.fd_table p

open State in
/-- `vfs_dup2` of places that are given as numbers. -/
theorem table_dup2 (a b : Fd) {m n : ℕ} (ha : a.val = m) (hb : b.val = n) :
    (r.dup2 o m n).table p = (r.table p).dup a b := by
  subst ha hb
  rw [Run.dup2, Run.call, Run.table]
  rw [vfsDup2, dif_pos b.isLt]
  dsimp only
  rw [dif_pos a.isLt]
  have hkeeps : (o.act r.clock r.vfs).fd_table p = r.table p := o.keeps ..
  rw [hkeeps]
  cases ha : r.table p a with
  | none => rw [Table.dup_of_none ha, hkeeps]
  | some i =>
    rw [Table.dup_of_some ha]
    funext x
    change (setFd _ p b (some i)).fd_table p x = _
    rw [setFd_fd_table, closeSlot_fd_table, hkeeps, update_apply]
    split_ifs <;> rfl

/-- A descriptor of the kernel is not duplicated. -/
theorem table_dup2_kernel {fd : ℕ} (hfd : maxFds ≤ fd) (b : Fd) : (r.dup2 o fd b.val).table p = r.table p := by
  rw [Run.dup2, Run.call, Run.table]
  rw [State.vfsDup2, dif_pos b.isLt]
  dsimp only
  rw [dif_neg (Nat.not_lt.mpr hfd)]
  exact o.keeps ..

theorem table_act : (o.act r.clock r.vfs).fd_table p = r.table p := o.keeps ..

open State in
/-- `vfs_close` of a place with something in it. -/
theorem vfsClose_eq (s : State σ β) {k : ℕ} (hk : k < maxFds) (hlow : ¬k ≤ 2) {i : NodeId}
    (hi : s.fd_table p ⟨k, hk⟩ = some i) :
    (s.vfsClose (some p) k).2 = (s.setFd p ⟨k, hk⟩ none).unref i := by
  have hlookup : s.lookup (some p) k = some i := by
    rw [lookup, dif_pos hk]
    exact hi
  rw [vfsClose, if_neg hlow, hlookup]
  dsimp only
  rw [dif_pos hk]

open State in
/-- `vfs_close` of a place with nothing in it. -/
theorem vfsClose_none (s : State σ β) {k : ℕ} (hk : k < maxFds) (hlow : ¬k ≤ 2)
    (hi : s.fd_table p ⟨k, hk⟩ = none) : (s.vfsClose (some p) k).2 = s := by
  have hlookup : s.lookup (some p) k = none := by
    rw [lookup, dif_pos hk]
    exact hi
  rw [vfsClose, if_neg hlow, hlookup]

open State in
theorem table_close {fd : Fd} (hfd : 3 ≤ fd.val) : (r.close o fd.val).table p = (r.table p).clear fd := by
  have hlow : ¬fd.val ≤ 2 := Nat.not_le.mpr hfd
  have hkeeps := table_act o r
  rw [Run.close, Run.call]
  change ((o.act r.clock r.vfs).vfsClose (some p) fd.val).2.fd_table p = _
  cases hnode : r.table p fd with
  | none =>
    rw [vfsClose_none _ fd.isLt hlow ((congrFun hkeeps fd).trans hnode), hkeeps, Table.clear_of_none hnode]
  | some i =>
    rw [vfsClose_eq _ fd.isLt hlow ((congrFun hkeeps fd).trans hnode), (unref_tables _ i).1]
    funext x
    rw [setFd_fd_table, hkeeps, Table.clear, update_apply]

/-- The places 0 to 2 are not closed. -/
theorem table_close_low {fd : ℕ} (hfd : fd ≤ 2) : (r.close o fd).table p = r.table p := by
  have hclose : ((o.act r.clock r.vfs).vfsClose (some p) fd).2 = o.act r.clock r.vfs := by
    rw [State.vfsClose, if_pos hfd]
  rw [Run.close, Run.call]
  change ((o.act r.clock r.vfs).vfsClose (some p) fd).2.fd_table p = _
  rw [hclose, table_act]

open State in
/-- `vfs_close` of a descriptor of the kernel does not touch tables. -/
theorem vfsClose_kernel (s : State σ β) (cur : Option Pid) {fd : ℕ} (hfd : maxFds ≤ fd) :
    (s.vfsClose cur fd).2.fd_table = s.fd_table := by
  have hlow : ¬fd ≤ 2 := by
    simp only [maxFds] at hfd
    omega
  rw [vfsClose, if_neg hlow]
  cases s.lookup cur fd with
  | none => rfl
  | some i =>
    dsimp only
    rw [dif_neg (Nat.not_lt.mpr hfd), (unref_tables _ i).1]

theorem table_close_kernel {fd : ℕ} (hfd : maxFds ≤ fd) : (r.close o fd).table p = r.table p := by
  rw [Run.close, Run.call]
  change ((o.act r.clock r.vfs).vfsClose (some p) fd).2.fd_table p = _
  rw [vfsClose_kernel _ _ hfd, table_act]

theorem table_wait : (r.wait o).table p = r.table p := table_act o r

theorem table_spawn (path : CStr) (argv : List CStr) : (r.spawn o path argv).2.table p = r.table p :=
  table_act o r

theorem table_stat (path : CStr) : (r.stat o path).2.table p = r.table p := table_act o r

end

/-! ## New descriptors -/

/-- The first place that a new descriptor may have. -/
structure Table.FirstFree (T : Table) (x : Fd) : Prop where
  high : 3 ≤ x.val
  free : T x = none
  first : ∀ y : Fd, 3 ≤ y.val → y < x → T y ≠ none

section

variable {σ β : Type} {p : Pid}

open State

/-- The free places are in order. -/
theorem freeFds_cons {s : State σ β} {x : Fd} {xs : List Fd} (h : s.freeFds p = x :: xs) :
    Table.FirstFree (s.fd_table p) x ∧ ∀ y ∈ xs, x < y ∧ 3 ≤ y.val ∧ s.fd_table p y = none := by
  have hsorted : (x :: xs).Pairwise (· < ·) := by
    rw [← h, freeFds]
    exact (List.pairwise_lt_finRange maxFds).filter _
  have hmem : ∀ y, y ∈ x :: xs ↔ 3 ≤ y.val ∧ s.fd_table p y = none := by
    intro y
    rw [← h, freeFds, List.mem_filter, decide_eq_true_eq, and_iff_right (List.mem_finRange y)]
  have hlt := (List.pairwise_cons.mp hsorted).1
  obtain ⟨hhigh, hfree⟩ := (hmem x).mp List.mem_cons_self
  refine ⟨⟨hhigh, hfree, fun y hy hyx hnone => ?_⟩, fun y hy => ⟨hlt y hy, ?_⟩⟩
  · rcases List.mem_cons.mp ((hmem y).mpr ⟨hy, hnone⟩) with rfl | hmem
    · exact lt_irrefl _ hyx
    · exact lt_asymm hyx (hlt y hmem)
  · exact (hmem y).mp (List.mem_cons_of_mem _ hy)

/-- What `vfs_open` does to the table of a process that calls it. -/
def Opens (T T' : Table) (fd : Option ℕ) : Prop :=
  fd = none ∧ T' = T ∨ ∃ x i, fd = some x.val ∧ T.FirstFree x ∧ T' = Function.update T x (some i)

section

variable (s : State σ β) (path : CStr) (flags : ℕ)

theorem installNode_opens (nid : NodeId) (f : OpenFile β) :
    Opens (s.fd_table p) ((s.installNode nid f path flags (some p)).2.fd_table p)
      (s.installNode nid f path flags (some p)).1.toOption := by
  rw [installNode]
  generalize ht : s.setNode nid ⟨nid.val, 1, flags % 2^32, 0, s.statSize f.backend path, some f,
    none, 0⟩ = t
  have htable : t.fd_table = s.fd_table := by rw [← ht, setNode]
  cases hfree : t.freeFds p with
  | nil =>
    refine .inl ⟨rfl, ?_⟩
    rw [(closeFile_frame _ _).2, setNode]
    rw [htable]
  | cons x xs =>
    have hfirst := (freeFds_cons hfree).1
    rw [htable] at hfirst
    refine .inr ⟨x, nid, rfl, hfirst, ?_⟩
    dsimp only
    rw [setFd]
    dsimp only
    rw [update_self, htable]

/-- `vfs_open` fails, or comes as far as a new node, without a change to the tables. -/
theorem vfsOpen_cases (caller : Option Pid) :
    (∃ e, (s.vfsOpen path flags caller).1 = .error e ∧ (s.vfsOpen path flags caller).2.fd_table = s.fd_table) ∨
    ∃ (u : State σ β) (nid : NodeId) (f : OpenFile β) (rel_path : CStr), u.fd_table = s.fd_table ∧
      s.vfsOpen path flags caller = u.installNode nid f rel_path (openFlags flags) caller := by
  rw [vfsOpen]
  split_ifs
  · exact .inl ⟨_, rfl, rfl⟩
  cases vfsCanonicalize path vfsPathMax with
  | none => exact .inl ⟨_, rfl, rfl⟩
  | some canon =>
    unfold openAt
    dsimp only
    cases findBackend (fun i => (s.g_backends i).map (·.mount_pt)) canon with
    | none => exact .inl ⟨_, rfl, rfl⟩
    | some found =>
      dsimp only
      have hopen := (openFile_frame s found.1 found.2 (openFlags flags)).2
      rcases hres : s.openFile found.1 found.2 (openFlags flags) with ⟨_ | f, t⟩
      · rw [hres] at hopen
        exact .inl ⟨_, rfl, hopen⟩
      rw [hres] at hopen
      dsimp only at hopen ⊢
      have halloc := (allocNodeId_frame t).2
      rcases hid : t.allocNodeId with ⟨_ | nid, u⟩
      · rw [hid] at halloc
        exact .inl ⟨_, rfl, (closeFile_frame u f).2.trans (halloc.trans hopen)⟩
      · rw [hid] at halloc
        exact .inr ⟨u, nid, f, found.2, halloc.trans hopen, rfl⟩

theorem vfsOpen_opens :
    Opens (s.fd_table p) ((s.vfsOpen path flags (some p)).2.fd_table p)
      (s.vfsOpen path flags (some p)).1.toOption := by
  rcases vfsOpen_cases s path flags (some p) with ⟨e, herr, htable⟩ | ⟨u, nid, f, rel_path, htable, heq⟩
  · rw [herr, htable]
    exact .inl ⟨rfl, rfl⟩
  · rw [heq, ← htable]
    exact installNode_opens u _ _ nid f

/-- The kernel gets no place in a table. -/
theorem vfsOpen_kernel :
    (s.vfsOpen path flags none).2.fd_table = s.fd_table ∧
      ∀ fd, (s.vfsOpen path flags none).1.toOption = some fd → maxFds ≤ fd := by
  rcases vfsOpen_cases s path flags none with ⟨e, herr, htable⟩ | ⟨u, nid, f, rel_path, htable, heq⟩
  · rw [herr, htable]
    exact ⟨rfl, fun _ h => nomatch h⟩
  · rw [heq, installNode]
    refine ⟨htable, fun fd h => ?_⟩
    rw [← Option.some.inj h]
    exact Nat.le_add_left _ _

end

/-- What `vfs_pipe` does to the table of a process that calls it. -/
def Pipes (T T' : Table) (fds : Option (Fd × Fd)) : Prop :=
  fds = none ∧ T' = T ∨ ∃ rfd wfd i j, fds = some (rfd, wfd) ∧ T.FirstFree rfd ∧ rfd < wfd ∧
    T wfd = none ∧ T' = Function.update (Function.update T rfd (some i)) wfd (some j)

/-- `vfs_pipe` fails, or comes as far as two places, without a change to the tables. -/
theorem vfsPipe_cases (s : State σ β) (cur : Option Pid) (mem : Option (ℕ × Ipc.Ringbuf)) :
    (∃ e, (s.vfsPipe cur mem).1 = .error e ∧ (s.vfsPipe cur mem).2.fd_table = s.fd_table) ∨
    ∃ (w : State σ β) (p : Pid) (rid wid : NodeId) (rfd wfd : Fd) (fds : List Fd), cur = some p ∧
      w.fd_table = s.fd_table ∧ w.freeFds p = rfd :: wfd :: fds ∧
      s.vfsPipe cur mem = (.ok (rfd, wfd), (w.setFd p rfd (some rid)).setFd p wfd (some wid)) := by
  unfold vfsPipe
  split
  next => exact .inl ⟨_, rfl, rfl⟩
  next p =>
  split
  next => exact .inl ⟨_, rfl, rfl⟩
  next rb contents =>
  generalize ht : { s with
    rings := update s.rings rb ((Ipc.ringbufInit 1 4096).getD contents) } = t
  have htable : t.fd_table = s.fd_table := by rw [← ht]
  dsimp only
  have halloc := (allocNodeId_frame t).2
  split
  next u hrid =>
    rw [hrid] at halloc
    exact .inl ⟨_, rfl, halloc.trans htable⟩
  next rid u hrid =>
    rw [hrid] at halloc
    have halloc' := (allocNodeId_frame u).2
    split
    next v hwid =>
      rw [hwid] at halloc'
      exact .inl ⟨_, rfl, halloc'.trans (halloc.trans htable)⟩
    next wid v hwid =>
      rw [hwid] at halloc'
      have hwtable : v.fd_table = s.fd_table := halloc'.trans (halloc.trans htable)
      split
      next rfd wfd fds hfds =>
        exact .inr ⟨(v.setNode rid (pipeEnd rid 1 rb)).setNode wid (pipeEnd wid 2 rb), p, rid, wid, rfd, wfd,
          fds, rfl, hwtable, hfds, rfl⟩
      next => exact .inl ⟨_, rfl, hwtable⟩

theorem vfsPipe_pipes (s : State σ β) (mem : Option (ℕ × Ipc.Ringbuf)) :
    Pipes (s.fd_table p) ((s.vfsPipe (some p) mem).2.fd_table p) (s.vfsPipe (some p) mem).1.toOption := by
  rcases vfsPipe_cases s (some p) mem with ⟨e, herr, htable⟩ |
    ⟨w, q, rid, wid, rfd, wfd, fds, hq, htable, hfds, heq⟩
  · rw [herr, htable]
    exact .inl ⟨rfl, rfl⟩
  cases hq
  obtain ⟨hfirst, hrest⟩ := freeFds_cons hfds
  obtain ⟨hlt, -, hnone⟩ := hrest wfd List.mem_cons_self
  rw [htable] at hfirst hnone
  refine .inr ⟨rfd, wfd, rid, wid, by rw [heq]; rfl, hfirst, hlt, hnone, ?_⟩
  rw [heq, setFd, setFd]
  dsimp only
  rw [update_self, update_self, htable]

variable (o : Surroundings σ β p) (r : Run σ β)

theorem table_open (path : CStr) (flags : ℕ) :
    Opens (r.table p) ((r.open o path flags (some p)).2.table p) (r.open o path flags (some p)).1 := by
  have h : Opens ((o.act r.clock r.vfs).fd_table p) _ _ := vfsOpen_opens (o.act r.clock r.vfs) path flags
  rwa [table_act] at h

theorem table_open_kernel (path : CStr) (flags : ℕ) :
    (r.open o path flags none).2.table p = r.table p ∧
      ∀ fd, (r.open o path flags none).1 = some fd → maxFds ≤ fd := by
  obtain ⟨htable, hfd⟩ := vfsOpen_kernel (o.act r.clock r.vfs) path flags
  exact ⟨(congrFun htable p).trans (table_act o r), hfd⟩

theorem table_pipe : Pipes (r.table p) ((r.pipe o).2.table p) (r.pipe o).1 := by
  have h : Pipes ((o.act r.clock r.vfs).fd_table p) _ _ :=
    vfsPipe_pipes (o.act r.clock r.vfs) (o.kmalloc r.clock (o.act r.clock r.vfs))
  rwa [table_act] at h

end

/-! ## Other processes -/

/-- The call is not made by the process, and does not make it. -/
def Spares (p : Pid) : Call → Prop
  | .open _ _ caller => caller ≠ some p
  | .close cur _ | .pipe cur _ | .dup2 cur _ _ => cur ≠ some p
  | .inherit child _ => child ≠ p
  | .exit q => q ≠ p

section

variable {σ β : Type} {p q : Pid} (s : State σ β)

open State

theorem setFd_other (h : q ≠ p) (fd : Fd) (v : Option NodeId) : (s.setFd q fd v).fd_table p = s.fd_table p := by
  rw [setFd]
  exact update_of_ne h.symm ..

theorem closeSlot_other (h : q ≠ p) (fd : Fd) : (closeSlot q s fd).fd_table p = s.fd_table p := by
  cases hfd : s.fd_table q fd with
  | none =>
    unfold closeSlot
    rw [hfd]
  | some i => rw [closeSlot_some hfd, (unref_tables _ i).1, setFd_other s h]

theorem inheritSlot_other {child : Pid} (h : child ≠ p) (parent : Pid) (fd : Fd) :
    (inheritSlot child parent s fd).fd_table p = s.fd_table p := by
  unfold inheritSlot
  cases s.fd_table parent fd with
  | none => rfl
  | some i => exact setFd_other s h fd (some i)

/-- A loop leaves the table alone if its steps do. -/
theorem foldl_fd_table {α : Type} {f : State σ β → α → State σ β} {l : List α}
    (h : ∀ t, ∀ x ∈ l, (f t x).fd_table p = t.fd_table p) : (l.foldl f s).fd_table p = s.fd_table p :=
  List.foldlRecOn (motive := fun t => t.fd_table p = s.fd_table p) l f rfl
    fun t ht x hx => (h t x hx).trans ht

theorem installNode_other (nid : NodeId) (f : OpenFile β) (path : CStr) (flags : ℕ)
    {caller : Option Pid} (h : caller ≠ some p) :
    (s.installNode nid f path flags caller).2.fd_table p = s.fd_table p := by
  cases caller with
  | none => rfl
  | some q =>
    have hq : q ≠ p := fun hq => h (congrArg some hq)
    rw [installNode]
    generalize ht : s.setNode nid ⟨nid.val, 1, flags % 2^32, 0, s.statSize f.backend path, some f,
      none, 0⟩ = t
    have htable : t.fd_table = s.fd_table := by rw [← ht, setNode]
    rw [← htable]
    cases t.freeFds q with
    | nil => exact congrFun (closeFile_frame _ f).2 p
    | cons x xs => exact setFd_other t hq x _

theorem vfsClose_other {cur : Option Pid} (h : cur ≠ some p) (fd : ℕ) :
    (s.vfsClose cur fd).2.fd_table p = s.fd_table p := by
  by_cases hlow : fd ≤ 2
  · rw [vfsClose, if_pos hlow]
  by_cases hfd : fd < maxFds
  · cases cur with
    | none =>
      have hlookup : s.lookup none fd = none := by rw [lookup, dif_pos hfd]
      rw [vfsClose, if_neg hlow, hlookup]
    | some q =>
      have hq : q ≠ p := fun hq => h (congrArg some hq)
      cases hnode : s.fd_table q ⟨fd, hfd⟩ with
      | none => rw [vfsClose_none s hfd hlow hnode]
      | some i => rw [vfsClose_eq s hfd hlow hnode, (unref_tables _ i).1, setFd_other s hq]
  · rw [vfsClose_kernel s cur (Nat.not_lt.mp hfd)]

theorem vfsDup2_other {cur : Option Pid} (h : cur ≠ some p) (oldfd newfd : ℕ) :
    (s.vfsDup2 cur oldfd newfd).2.fd_table p = s.fd_table p := by
  rw [vfsDup2]
  by_cases hnew : newfd < maxFds
  · rw [dif_pos hnew]
    cases cur with
    | none => rfl
    | some q =>
      have hq : q ≠ p := fun hq => h (congrArg some hq)
      dsimp only
      cases (if h : oldfd < maxFds then s.fd_table q ⟨oldfd, h⟩ else none) with
      | none => rfl
      | some i => exact (setFd_other _ hq _ _).trans (closeSlot_other s hq _)
  · rw [dif_neg hnew]

/-- What other processes do leaves the table alone. -/
theorem perform_fd_table {c : Call} (h : Spares p c) : (s.perform c).fd_table p = s.fd_table p := by
  cases c with
  | «open» path flags caller =>
    rcases vfsOpen_cases s path flags caller with ⟨e, -, htable⟩ | ⟨u, nid, f, rel_path, htable, heq⟩
    · exact congrFun htable p
    · change (s.vfsOpen path flags caller).2.fd_table p = _
      rw [heq, installNode_other u nid f rel_path _ h, htable]
  | close cur fd => exact vfsClose_other s h fd
  | pipe cur mem =>
    rcases vfsPipe_cases s cur mem with ⟨e, -, htable⟩ | ⟨w, q, rid, wid, rfd, wfd, fds, rfl, htable, -, heq⟩
    · exact congrFun htable p
    · have hq : q ≠ p := fun hq => h (congrArg some hq)
      change (s.vfsPipe (some q) mem).2.fd_table p = _
      rw [heq, setFd_other _ hq, setFd_other _ hq, htable]
  | dup2 cur oldfd newfd => exact vfsDup2_other s h oldfd newfd
  | inherit child parent =>
    rw [perform, vfsFdInherit, foldl_fd_table _ fun t fd _ => inheritSlot_other t h parent fd]
    exact update_of_ne (Ne.symm h) ..
  | exit q =>
    rw [perform, vfsCloseAll, foldl_fd_table s fun t fd _ => closeSlot_other t h fd]

theorem foldl_perform_fd_table (calls : List Call) (s : State σ β) (h : ∀ c ∈ calls, Spares p c) :
    (calls.foldl perform s).fd_table p = s.fd_table p :=
  foldl_fd_table s fun t c hc => perform_fd_table t (h c hc)

/-- Surroundings in which the calls of other processes are given, and in which programs are found and
spawned. -/
def Surroundings.ofCalls (calls : ℕ → List Call) (h : ∀ n, ∀ c ∈ calls n, Spares p c) : Surroundings σ β p where
  act n s := (calls n).foldl perform s
  keeps n s := foldl_perform_fd_table (calls n) s (h n)
  macho_spawn _ _ _ _ := 2
  vfs_stat _ _ _ := true
  kmalloc _ _ := some (0, ⟨0, 0, 0, 0, fun _ => 0⟩)

end

end FreeAsd.Shell
