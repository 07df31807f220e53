import FreeAsd.Lib.Runs
import FreeAsd.Vfs.RefCounts

/-!
# Runs of calls on open files

In a run of `Careful` calls reference counts are right, no table points to a free node, and `close` is called
once for each file, when its last reference is gone (`refcounts_of_run`). Other calls may close twice
(`dup2_self_closes_twice`) or never.
-/

namespace FreeAsd.Vfs

open Function List Option

open Ipc (Ringbuf)

variable {σ β : Type}

namespace State

variable {s t : State σ β} {i j : NodeId} {p : Pid} {fd : Fd}

/-! ## Allocation -/

/-- The search returns the first free node. -/
theorem findFree_some {id : ℕ} (h : s.findFree id = some i) :
    i ≠ 0 ∧ (s.g_nodes i).node_id = 0 ∧
      ∃ k < maxVfsNodes, i = Fin.ofNat maxVfsNodes (id + k) ∧
        ∀ l < k, Fin.ofNat maxVfsNodes (id + l) ≠ 0 →
          (s.g_nodes (Fin.ofNat maxVfsNodes (id + l))).node_id ≠ 0 := by
  obtain ⟨hfree, k, hk, hget, hbefore⟩ := find?_eq_some_iff_getElem.mp h
  rw [length_map, length_range] at hk
  rw [decide_eq_true_eq] at hfree
  rw [getElem_map, getElem_range] at hget
  refine ⟨hfree.1, hfree.2, k, hk, hget.symm, ?_⟩
  intro l hl hne hid
  have hno := hbefore l hl
  rw [getElem_map, getElem_range, Bool.not_eq_true', decide_eq_false_iff_not] at hno
  exact hno ⟨hne, hid⟩

theorem allocNodeId_some (h : s.allocNodeId = (some i, t)) :
    s.findFree s.g_next_node_id = some i ∧ t = { s with g_next_node_id := nextNodeId i } := by
  unfold allocNodeId at h
  split at h
  next c hc =>
    cases h
    exact ⟨hc, rfl⟩
  next => cases h

theorem allocNodeId_none (h : s.allocNodeId = (none, t)) : t = s := by
  unfold allocNodeId at h
  split at h
  next => cases h
  next =>
    cases h
    rfl

/-- A second `alloc_node_id` returns another node, if there is one. -/
theorem allocNodeId_ne {u : State σ β} (h : s.allocNodeId = (some i, t))
    (h' : t.allocNodeId = (some j, u)) (hother : ∃ l, l ≠ i ∧ l ≠ 0 ∧ (s.g_nodes l).node_id = 0) :
    i ≠ j := by
  rintro rfl
  obtain ⟨hfind, rfl⟩ := allocNodeId_some h
  obtain ⟨hfind', -⟩ := allocNodeId_some h'
  obtain ⟨-, -, k, hk, hik, hbefore⟩ := findFree_some hfind'
  obtain ⟨l, hli, hl0, hfree⟩ := hother
  have hik' := congrArg Fin.val hik
  rw [Fin.val_ofNat] at hik'
  have hl0' : l.val ≠ 0 := fun h => hl0 (Fin.ext h)
  have hli' : l.val ≠ i.val := fun h => hli (Fin.ext h)
  have hi := i.isLt
  have hl := l.isLt
  -- The other node comes before the first one, which is the last one looked at.
  obtain ⟨m, hm, hlm⟩ : ∃ m < k, l.val = (nextNodeId i + m) % maxVfsNodes := by
    rw [nextNodeId] at hik' ⊢
    simp only [maxVfsNodes] at hik' hi hl hk ⊢
    split_ifs at hik' ⊢ with hwrap
    · exact ⟨l.val - 1, by omega, by omega⟩
    · exact ⟨(l.val + 1023 - i.val) % 1024, by omega, by omega⟩
  have hl' : l = Fin.ofNat maxVfsNodes (nextNodeId i + m) := by
    apply Fin.ext
    rw [hlm, Fin.val_ofNat]
  have hno := hbefore m hm
  rw [← hl'] at hno
  exact hno hl0 hfree

/-! ## The calls -/

/-- What holds between calls. -/
abbrev Sound (s : State σ β) : Prop := s.Inv none none

theorem Inv.openFile {i : Fin maxBackends} {path : CStr} {flags : ℕ} {f : Option (OpenFile β)}
    (h : s.Sound) (hopen : s.openFile i path flags = (f, t)) : t.Inv none f := by
  rw [State.openFile] at hopen
  split at hopen
  next =>
    cases hopen
    exact h
  next op hop =>
    split at hopen
    next fs hfs =>
      cases hopen
      exact h.congr rfl rfl rfl rfl rfl rfl rfl
    next b fs hfs =>
      cases hopen
      refine ⟨⟨h.counts.node_id, h.counts.used, h.counts.refcount⟩, ?_⟩
      have hfiled := h.files.open (k := none) rfl (a := ⟨i, b, s.opened.length⟩) rfl
      have hplace : update (s.fileAt none) none (some ⟨i, b, s.opened.length⟩) =
          s.fileAt (some ⟨i, b, s.opened.length⟩) := by
        funext k
        cases k with
        | none => exact update_self ..
        | some j => exact update_of_ne (some_ne_none j) ..
      rw [hplace] at hfiled
      exact hfiled

theorem mem_freeFds {fds : List Fd} (h : s.freeFds p = fd :: fds) : s.fd_table p fd = none := by
  have hmem : fd ∈ s.freeFds p := h ▸ mem_cons_self
  have hfree := (mem_filter.mp hmem).2
  rw [decide_eq_true_eq] at hfree
  exact hfree.2

theorem Inv.installNode {f : OpenFile β} {rel_path : CStr} {flags : ℕ} {caller : Option Pid}
    (h : s.Inv none (some f)) (hfree : (s.g_nodes i).node_id = 0) (hi : i ≠ 0)
    (hcaller : ∀ p ∈ caller, p ∈ s.live) :
    (s.installNode i f rel_path flags caller).2.Sound := by
  obtain ⟨n, hn⟩ : ∃ n : Node β,
    n = ⟨i.val, 1, flags % 2^32, 0, s.statSize f.backend rel_path, some f, none, 0⟩ := ⟨_, rfl⟩
  unfold State.installNode
  dsimp only
  rw [← hn]
  have hcreate : (s.setNode i n).Inv (some i) none := h.create hfree hi (by rw [hn]) (by rw [hn]) (by rw [hn])
  cases caller with
  | some p =>
    dsimp only
    split
    next fd fds hfds =>
      exact hcreate.give (p := p) (hcaller p rfl) (mem_freeFds hfds)
    next =>
      -- The node is given up and its file is closed: it is as if it had only been written to.
      have hid : ((s.setNode i n).setNode i { (s.setNode i n).g_nodes i with node_id := 0 }) =
          s.setNode i { (s.setNode i n).g_nodes i with node_id := 0 } := by
        simp only [setNode, update_idem]
      rw [hid]
      exact (h.scratch hfree rfl).closePending
  | none =>
    apply hcreate.give_kernel
    intro hmem
    have hpos : 0 < s.count none i := by
      have hmem' : i ∈ s.pseudo := hmem
      rw [count, if_pos hmem']
      omega
    exact (h.counts.used i).mpr hpos hfree

theorem Inv.vfsOpen {path : CStr} {flags : ℕ} {caller : Option Pid} (h : s.Sound)
    (hcaller : ∀ p ∈ caller, p ∈ s.live) : (s.vfsOpen path flags caller).2.Sound := by
  rw [State.vfsOpen]
  split_ifs with hpath
  · exact h
  split
  · exact h
  unfold State.openAt
  dsimp only
  split
  · exact h
  next b rel_path hbackend =>
  split
  next t hopen => exact h.openFile hopen
  next f t hopen =>
    have hpending := h.openFile hopen
    have hlive : t.live = s.live := by
      rw [State.openFile] at hopen
      split at hopen
      next => exact nomatch (Prod.mk.inj hopen).1
      next =>
        split at hopen
        next => exact nomatch (Prod.mk.inj hopen).1
        next =>
          rw [← (Prod.mk.inj hopen).2]
    split
    next u halloc =>
      rw [allocNodeId_none halloc]
      exact hpending.closePending
    next nid u halloc =>
      obtain ⟨hfind, rfl⟩ := allocNodeId_some halloc
      obtain ⟨hne, hfree, -⟩ := findFree_some hfind
      have hpending' : Inv none (some f) { t with g_next_node_id := nextNodeId nid } :=
        hpending.congr rfl rfl rfl rfl rfl rfl rfl
      rw [← hlive] at hcaller
      exact hpending'.installNode hfree hne hcaller

theorem Inv.closeSlot (h : s.Sound) (hp : p ∈ s.live) (fd : Fd) : (State.closeSlot p s fd).Sound := by
  rw [State.closeSlot]
  split
  next => exact h
  next i hi => exact (h.take hp hi).unref

/-- Dropping a reference does not touch tables and processes. -/
theorem unref_tables (s : State σ β) (i : NodeId) :
    (s.unref i).fd_table = s.fd_table ∧ (s.unref i).live = s.live ∧
      (s.unref i).pseudo = s.pseudo := by
  obtain ⟨rc, -, hunref⟩ := unref_eq s i
  rw [hunref]
  exact ⟨rfl, rfl, rfl⟩

theorem count_unref (s : State σ β) (i : NodeId) (extra : Option NodeId) :
    (s.unref i).count extra = s.count extra := by
  obtain ⟨htable, hlive, hpseudo⟩ := unref_tables s i
  have hheld : (s.unref i).held = s.held := by
    unfold held
    rw [htable, hlive]
  funext j
  rw [count, count, hheld, hpseudo]

theorem closeSlot_some (hfd : s.fd_table p fd = some i) :
    State.closeSlot p s fd = (s.setFd p fd none).unref i := by
  unfold State.closeSlot
  rw [hfd]

theorem closeSlot_live (p : Pid) (s : State σ β) (fd : Fd) : (State.closeSlot p s fd).live = s.live := by
  rw [State.closeSlot]
  split
  next => rfl
  next i _ => rw [(unref_tables _ i).2.1, setFd]

theorem setFd_fd_table (s : State σ β) (p : Pid) (fd : Fd) (v : Option NodeId) (x : Fd) :
    (s.setFd p fd v).fd_table p x = if x = fd then v else s.fd_table p x := by
  rw [setFd]
  dsimp only
  rw [update_self, update_apply]

/-- `vfs_close_all` and `vfs_dup2` empty the place. -/
theorem closeSlot_fd_table (p : Pid) (s : State σ β) (fd x : Fd) :
    (State.closeSlot p s fd).fd_table p x = if x = fd then none else s.fd_table p x := by
  cases hfd : s.fd_table p fd with
  | none =>
    have heq : State.closeSlot p s fd = s := by
      unfold State.closeSlot
      rw [hfd]
    rw [heq]
    split_ifs with hx
    · rw [hx, hfd]
    · rfl
  | some i =>
    rw [closeSlot_some hfd, (unref_tables _ i).1, setFd_fd_table]

theorem freeFds_two {rfd wfd : Fd} {fds : List Fd} (h : s.freeFds p = rfd :: wfd :: fds) :
    s.fd_table p rfd = none ∧ s.fd_table p wfd = none ∧ wfd ≠ rfd := by
  have hnodup : (s.freeFds p).Nodup := (nodup_finRange _).filter _
  have hmem : wfd ∈ s.freeFds p := h ▸ mem_cons_of_mem _ mem_cons_self
  have hfree := (mem_filter.mp hmem).2
  rw [decide_eq_true_eq] at hfree
  refine ⟨mem_freeFds h, hfree.2, ?_⟩
  rintro rfl
  rw [h, nodup_cons] at hnodup
  exact hnodup.1 mem_cons_self

section

variable (h : s.Sound)

include h

theorem Inv.vfsClose {cur : Option Pid} {fd : ℕ} (hcur : ∀ p ∈ cur, p ∈ s.live)
    (hkernel : maxFds ≤ fd → ∀ i ∈ s.lookup cur fd, i ∈ s.pseudo) :
    (s.vfsClose cur fd).2.Sound := by
  unfold State.vfsClose
  by_cases hstd : fd ≤ 2
  · rw [if_pos hstd]
    exact h
  rw [if_neg hstd]
  split
  next => exact h
  next i hi =>
    dsimp only
    by_cases hfd : fd < maxFds
    · rw [dif_pos hfd]
      rw [lookup, dif_pos hfd] at hi
      cases cur with
      | none => exact nomatch hi
      | some p => exact (h.take (hcur p rfl) hi).unref
    · rw [dif_neg hfd]
      exact (h.take_kernel (hkernel (not_lt.mp hfd) i hi)).unref

/-- What the loop of `vfs_close_all` does, place after place. -/
theorem Inv.foldl_closeSlot (fds : List Fd) (hp : p ∈ s.live) :
    (fds.foldl (State.closeSlot p) s).Sound ∧ (fds.foldl (State.closeSlot p) s).live = s.live ∧
      ∀ x, (fds.foldl (State.closeSlot p) s).fd_table p x =
        if x ∈ fds then none else s.fd_table p x := by
  induction fds generalizing s with
  | nil => exact ⟨h, rfl, fun _ => rfl⟩
  | cons fd fds ih =>
    have hlive := closeSlot_live p s fd
    obtain ⟨hsound, hlive', htable⟩ := ih (h.closeSlot hp fd) (hlive ▸ hp)
    refine ⟨hsound, hlive'.trans hlive, ?_⟩
    intro x
    rw [foldl_cons, htable, closeSlot_fd_table]
    by_cases hx : x = fd
    · simp [hx]
    · simp [hx]

/-- A process without references exits. -/
theorem Inv.erase (hnone : ∀ fd, s.fd_table p fd = none) : State.Sound { s with live := s.live.erase p } := by
  have hheld : State.held { s with live := s.live.erase p } = s.held := by
    funext ⟨q, fd⟩
    unfold held
    by_cases hq : q = p
    · simp [hq, hnone]
    · simp [hq]
  exact h.congr_held rfl rfl rfl rfl rfl hheld

theorem Inv.vfsCloseAll (hp : p ∈ s.live) (hstd : ∀ fd : Fd, fd.val < 3 → s.fd_table p fd = none) :
    State.Sound { s.vfsCloseAll p with live := s.live.erase p } := by
  obtain ⟨hsound, hlive, htable⟩ := h.foldl_closeSlot ((List.finRange maxFds).filter fun fd => 3 ≤ fd.val) hp
  rw [← hlive]
  apply hsound.erase
  intro fd
  rw [htable]
  split_ifs with hmem
  · rfl
  · apply hstd
    by_contra hge
    exact hmem (mem_filter.mpr ⟨mem_finRange fd, decide_eq_true (not_lt.mp hge)⟩)

/-- A process is made, with an empty table. -/
theorem Inv.spawn (hp : p ∉ s.live) :
    State.Sound { s with
      live := insert p s.live
      fd_table := update s.fd_table p fun _ => none } := by
  have hheld : State.held { s with
      live := insert p s.live
      fd_table := update s.fd_table p fun _ => none } = s.held := by
    funext ⟨q, fd⟩
    unfold held
    by_cases hq : q = p
    · simp [hq, hp]
    · simp [hq]
  exact h.congr_held rfl rfl rfl rfl rfl hheld

/-- What the loop of `vfs_fd_inherit` does: it fills empty places of the child. -/
theorem Inv.foldl_inheritSlot {child parent : Pid} (fds : List Fd) (hfds : fds.Nodup)
    (hchild : child ∈ s.live) (hparent : parent ∈ s.live)
    (hempty : ∀ fd ∈ fds, s.fd_table child fd = none) :
    (fds.foldl (inheritSlot child parent) s).Sound := by
  induction fds generalizing s with
  | nil => exact h
  | cons fd fds ih =>
    rw [nodup_cons] at hfds
    rw [foldl_cons, inheritSlot]
    split
    next =>
      apply ih h hfds.2 hchild hparent
      exact (forall_mem_cons.mp hempty).2
    next i hi =>
      -- The reference is counted after it is copied, which is the same as before.
      have hused : (s.g_nodes i).node_id ≠ 0 := by
        apply (h.counts.used i).mpr
        have hpos := refs_pos ((held_of_live hparent fd).trans hi)
        rw [count]
        omega
      have hsound : ((s.setFd child fd (some i)).ref i).Sound :=
        (h.ref hused).give hchild (hempty fd mem_cons_self)
      apply ih hsound hfds.2 hchild hparent
      intro x hx
      have hxfd : x ≠ fd := by
        rintro rfl
        exact hfds.1 hx
      rw [State.ref, setNode, setFd]
      dsimp only
      rw [update_self, update_of_ne hxfd]
      exact hempty x (mem_cons_of_mem _ hx)

theorem Inv.vfsFdInherit {child parent : Pid} (hchild : child ∉ s.live) (hparent : parent ∈ s.live) :
    (State.vfsFdInherit { s with
      live := insert child s.live
      fd_table := update s.fd_table child fun _ => none } child parent).Sound := by
  apply (h.spawn hchild).foldl_inheritSlot _ (nodup_finRange _)
  · exact Finset.mem_insert_self _ _
  · exact Finset.mem_insert_of_mem hparent
  · intro fd _
    dsimp only
    rw [update_self]

/-- Both ends of a pipe are made and installed, if they are different nodes. -/
theorem Inv.installPipe {rb : ℕ} {rfd wfd : Fd} {fds : List Fd} (hp : p ∈ s.live) (hi : i ≠ 0)
    (hifree : (s.g_nodes i).node_id = 0) (hj : j ≠ 0) (hjfree : (s.g_nodes j).node_id = 0)
    (hij : i ≠ j) (hfds : s.freeFds p = rfd :: wfd :: fds) :
    ((((s.setNode i (pipeEnd i 1 rb)).setNode j (pipeEnd j 2 rb)).setFd p rfd (some i)).setFd p wfd
      (some j)).Sound := by
  obtain ⟨hrfd, hwfd, hne⟩ := freeFds_two hfds
  have hread : ((s.setNode i (pipeEnd i 1 rb)).setFd p rfd (some i)).Sound :=
    (h.create hifree hi rfl rfl rfl).give hp hrfd
  have hjfree' : (((s.setNode i (pipeEnd i 1 rb)).setFd p rfd (some i)).g_nodes j).node_id = 0 := by
    rw [setFd, setNode]
    dsimp only
    rw [update_of_ne hij.symm]
    exact hjfree
  apply (hread.create hjfree' hj (n := pipeEnd j 2 rb) rfl rfl rfl).give hp
  rw [setNode, setFd, setNode]
  dsimp only
  rw [update_self, update_of_ne hne]
  exact hwfd

/-- Both nodes of a pipe are given up again. -/
theorem Inv.discardPipe {rb : ℕ} (hifree : (s.g_nodes i).node_id = 0)
    (hjfree : (s.g_nodes j).node_id = 0) {u v : State σ β}
    (hu : u = (s.setNode i (pipeEnd i 1 rb)).setNode j (pipeEnd j 2 rb))
    (hv : v = u.setNode i { u.g_nodes i with node_id := 0 }) :
    (v.setNode j { v.g_nodes j with node_id := 0 }).Sound := by
  by_cases hij : i = j
  · subst hij
    have hwrite : v.setNode i { v.g_nodes i with node_id := 0 } =
        s.setNode i { v.g_nodes i with node_id := 0 } := by
      rw [hv, hu]
      simp only [setNode, update_idem]
    rw [hwrite]
    exact h.scratch hifree rfl
  · have hwrite : v.setNode j { v.g_nodes j with node_id := 0 } =
        (s.setNode i { u.g_nodes i with node_id := 0 }).setNode j
          { v.g_nodes j with node_id := 0 } := by
      rw [hv, hu]
      simp only [setNode, State.mk.injEq, and_true]
      funext x
      by_cases hxj : x = j
      · rw [hxj, update_self, update_self]
      rw [update_of_ne hxj, update_of_ne hxj]
      by_cases hxi : x = i
      · rw [hxi, update_self, update_self]
      · rw [update_of_ne hxi, update_of_ne hxi, update_of_ne hxj, update_of_ne hxi]
    rw [hwrite]
    apply (h.scratch hifree rfl).scratch _ rfl
    rw [setNode]
    dsimp only
    rw [update_of_ne (Ne.symm hij)]
    exact hjfree

theorem Inv.vfsPipe {cur : Option Pid} {mem : Option (ℕ × Ringbuf)} (hcur : ∀ p ∈ cur, p ∈ s.live)
    (htwo : ∀ i ≠ 0, (s.g_nodes i).node_id = 0 → ∃ l, l ≠ i ∧ l ≠ 0 ∧ (s.g_nodes l).node_id = 0) :
    (s.vfsPipe cur mem).2.Sound := by
  unfold State.vfsPipe
  split
  next => exact h
  next p =>
  split
  next => exact h
  next rb contents =>
  generalize hu : { s with
    rings := update s.rings rb ((Ipc.ringbufInit 1 4096).getD contents) } = u
  have husound : u.Sound := by
    rw [← hu]
    exact h.congr rfl rfl rfl rfl rfl rfl rfl
  have hulive : p ∈ u.live := by
    rw [← hu]
    exact hcur p rfl
  have hutwo : ∀ i ≠ 0, (u.g_nodes i).node_id = 0 → ∃ l, l ≠ i ∧ l ≠ 0 ∧ (u.g_nodes l).node_id = 0 := by
    rw [← hu]
    exact htwo
  dsimp only
  split
  next v halloc =>
    rw [allocNodeId_none halloc]
    exact husound
  next i v halloc =>
    obtain ⟨hfind, hv⟩ := allocNodeId_some halloc
    obtain ⟨hi, hifree, -⟩ := findFree_some hfind
    have hvsound : v.Sound := by
      rw [hv]
      exact husound.congr rfl rfl rfl rfl rfl rfl rfl
    have hvnodes : v.g_nodes = u.g_nodes := by rw [hv]
    have hvlive : p ∈ v.live := by
      rw [hv]
      exact hulive
    split
    next w halloc' =>
      rw [allocNodeId_none halloc']
      exact hvsound
    next j w halloc' =>
      obtain ⟨hfind', hw⟩ := allocNodeId_some halloc'
      obtain ⟨hj, hjfree, -⟩ := findFree_some hfind'
      have hij := allocNodeId_ne halloc halloc' (hutwo i hi hifree)
      have hwsound : w.Sound := by
        rw [hw]
        exact hvsound.congr rfl rfl rfl rfl rfl rfl rfl
      have hwnodes : w.g_nodes = v.g_nodes := by rw [hw]
      rw [← hvnodes, ← hwnodes] at hifree
      rw [← hwnodes] at hjfree
      have hwlive : p ∈ w.live := by
        rw [hw]
        exact hvlive
      split
      next rfd wfd fds hfds => exact hwsound.installPipe hwlive hi hifree hj hjfree hij hfds
      next => exact hwsound.discardPipe hifree hjfree rfl rfl

theorem Inv.vfsDup2 {cur : Option Pid} {oldfd newfd : ℕ} (hcur : ∀ p ∈ cur, p ∈ s.live)
    (hself : oldfd = newfd → oldfd < maxFds → ∀ i ∈ s.lookup cur oldfd, 2 ≤ (s.g_nodes i).refcount) :
    (s.vfsDup2 cur oldfd newfd).2.Sound := by
  unfold State.vfsDup2
  by_cases hnew : newfd < maxFds
  · rw [dif_pos hnew]
    split
    next => exact h
    next p =>
    have hp := hcur p rfl
    by_cases hold : oldfd < maxFds
    · rw [dif_pos hold]
      split
      next => exact h
      next i hi =>
        generalize hnew' : (⟨newfd, hnew⟩ : Fd) = new
        have hsound := h.closeSlot hp new
        have hlive := closeSlot_live p s new
        have htable := closeSlot_fd_table p s new
        have hused : ((State.closeSlot p s new).g_nodes i).node_id ≠ 0 := by
          apply (hsound.counts.used i).mpr
          by_cases heq : oldfd = newfd
          · -- The reference of the place itself is dropped, and there is another one.
            have hnewi : s.fd_table p new = some i := by
              rw [← hnew', ← hi]
              congr 2
              exact heq.symm
            have hlookup : s.lookup (some p) oldfd = some i := by
              rw [lookup, dif_pos hold]
              exact hi
            have htwo := hself heq hold i hlookup
            have hpos := refs_pos ((held_of_live hp new).trans hnewi)
            have hrc := h.counts.refcount i ((h.counts.used i).mpr (by
              rw [count]
              omega))
            have hset := count_setFd hp new none none i
            rw [hnewi, if_pos rfl, if_neg (some_ne_none i).symm] at hset
            rw [closeSlot_some hnewi, count_unref]
            omega
          · have hne : (⟨oldfd, hold⟩ : Fd) ≠ new := by
              rw [← hnew']
              exact fun h => heq (Fin.mk.inj h)
            have hheld : (State.closeSlot p s new).held (p, ⟨oldfd, hold⟩) = some i := by
              rw [held_of_live (hlive ▸ hp), htable, if_neg hne, hi]
            have hpos := refs_pos hheld
            rw [count]
            omega
        apply (hsound.ref hused).give (hlive ▸ hp)
        rw [State.ref, setNode]
        rw [htable, if_pos rfl]
    · rw [dif_neg hold]
      exact h
  · rw [dif_neg hnew]
    exact h

end

end State

/-! ## Runs -/

/-- A call that makes, shares or drops references. `cur` is the process that is running. -/
inductive Call
  | «open» (path : CStr) (flags : ℕ) (caller : Option Pid)
  | close (cur : Option Pid) (fd : ℕ)
  | pipe (cur : Option Pid) (mem : Option (ℕ × Ringbuf))
  | dup2 (cur : Option Pid) (oldfd newfd : ℕ)
  | inherit (child parent : Pid)
  | exit (p : Pid)

namespace State

/-- The call. A process that is made has an empty table before it inherits one, and a process that
exits is gone after its files are closed. -/
def perform (s : State σ β) : Call → State σ β
  | .open path flags caller => (s.vfsOpen path flags caller).2
  | .close cur fd => (s.vfsClose cur fd).2
  | .pipe cur mem => (s.vfsPipe cur mem).2
  | .dup2 cur oldfd newfd => (s.vfsDup2 cur oldfd newfd).2
  | .inherit child parent =>
    State.vfsFdInherit { s with
      live := insert child s.live
      fd_table := Function.update s.fd_table child fun _ => none } child parent
  | .exit p => { s.vfsCloseAll p with live := s.live.erase p }

/-- The processes of a call are live, and a child is new. -/
def Possible (s : State σ β) : Call → Prop
  | .open _ _ caller => ∀ p ∈ caller, p ∈ s.live
  | .close cur _ | .pipe cur _ | .dup2 cur _ _ => ∀ p ∈ cur, p ∈ s.live
  | .inherit child parent => child ∉ s.live ∧ parent ∈ s.live
  | .exit p => p ∈ s.live

/-- What a call has to be careful about. -/
def Careful (s : State σ β) : Call → Prop
  | .open _ _ _ | .inherit _ _ => True
  -- Numbers beyond the table are descriptors that the kernel has.
  | .close cur fd => maxFds ≤ fd → ∀ i ∈ s.lookup cur fd, i ∈ s.pseudo
  -- There is not exactly one free node.
  | .pipe _ _ => ∀ i ≠ 0, (s.g_nodes i).node_id = 0 → ∃ l, l ≠ i ∧ l ≠ 0 ∧ (s.g_nodes l).node_id = 0
  -- The only reference is not duplicated to itself.
  | .dup2 cur oldfd newfd =>
    oldfd = newfd → oldfd < maxFds → ∀ i ∈ s.lookup cur oldfd, 2 ≤ (s.g_nodes i).refcount
  -- The places that `vfs_close_all` leaves out are empty.
  | .exit p => ∀ fd : Fd, fd.val < 3 → s.fd_table p fd = none

/-- A careful call. -/
def Step (s t : State σ β) : Prop := ∃ c, s.Possible c ∧ s.Careful c ∧ t = s.perform c

theorem step_perform {s : State σ β} {c : Call} (hpossible : s.Possible c) (hcareful : s.Careful c) :
    s.Step (s.perform c) :=
  ⟨c, hpossible, hcareful, rfl⟩

/-- After `vfs_init`, with any backends mounted and any processes without open files. -/
structure Start (s : State σ β) : Prop where
  nodes : ∀ i, s.g_nodes i = Node.zero
  tables : ∀ p fd, s.fd_table p fd = none
  pseudo : s.pseudo = ∅
  opened : s.opened = []
  closed : s.closed = []

/-- The references to a node: places in the tables of live processes, and descriptors of the kernel. -/
def references (s : State σ β) (i : NodeId) : ℕ := refs s.held i + if i ∈ s.pseudo then 1 else 0

variable {s t : State σ β}

theorem count_none (s : State σ β) (i : NodeId) : s.count none i = s.references i := by
  rw [count, if_neg (some_ne_none i).symm, add_zero, references]

theorem Start.sound (h : s.Start) : s.Sound := by
  have hcount : ∀ i, s.count none i = 0 := by
    intro i
    rw [count_none, references, h.pseudo, if_neg (Finset.notMem_empty i), add_zero]
    apply refs_eq_zero
    intro slot
    rw [held]
    split_ifs
    · rw [h.tables]
      exact (some_ne_none i).symm
    · exact (some_ne_none i).symm
  have hid : ∀ i, (s.g_nodes i).node_id = 0 := fun i => by rw [h.nodes, Node.zero]
  have hplace : ∀ k f, s.fileAt none k ≠ some f := by
    intro k f
    cases k with
    | none => exact (some_ne_none f).symm
    | some i =>
      rw [fileAt, if_pos (hid i)]
      exact (some_ne_none f).symm
  constructor
  · constructor
    · exact fun i hi => absurd (hid i) hi
    · exact fun i => iff_of_false (fun hi => hi (hid i)) (by rw [hcount]; exact lt_irrefl 0)
    · exact fun i hi => absurd (hid i) hi
  · rw [h.opened, h.closed]
    constructor
    · exact fun k f hf => absurd hf (hplace k f)
    · exact fun k _ f _ hf => absurd hf (hplace k f)
    · exact fun k f hf => absurd hf (hplace k f)
    · exact nodup_nil
    · exact fun x hx => absurd hx not_mem_nil
    · exact fun x b hx => absurd hx (some_ne_none b).symm

theorem Inv.step (h : s.Sound) (hstep : s.Step t) : t.Sound := by
  obtain ⟨c, hpossible, hcareful, rfl⟩ := hstep
  cases c with
  | «open» path flags caller => exact h.vfsOpen hpossible
  | close cur fd => exact h.vfsClose hpossible hcareful
  | pipe cur mem => exact h.vfsPipe hpossible hcareful
  | dup2 cur oldfd newfd => exact h.vfsDup2 hpossible hcareful
  | inherit child parent => exact h.vfsFdInherit hpossible.1 hpossible.2
  | exit p => exact h.vfsCloseAll hpossible hcareful

/-- In every run of careful calls: a node in use has counted its references and has some, tables point to
nodes in use, and a file that its backend can close was closed at most once, exactly if no node with
references has it. -/
theorem refcounts_of_run (hstart : s.Start) (hrun : Relation.ReflTransGen Step s t) :
    (∀ i, (t.g_nodes i).node_id ≠ 0 → (t.g_nodes i).refcount = t.references i ∧ 0 < t.references i) ∧
      (∀ p ∈ t.live, ∀ fd, ∀ i ∈ t.fd_table p fd, (t.g_nodes i).node_id ≠ 0) ∧
      t.closed.Nodup ∧
      ∀ h b, t.opened[h]? = some b → t.hasClose b →
        (h ∈ t.closed ↔ ∀ i f, (t.g_nodes i).file = some f → f.handle = h → t.references i = 0) := by
  have hinv := Runs.invariant (P := Sound) hrun hstart.sound fun _ _ => Inv.step
  have hused : ∀ i, (t.g_nodes i).node_id ≠ 0 ↔ 0 < t.references i := by
    intro i
    rw [← count_none]
    exact hinv.counts.used i
  have hplace : ∀ i f, (t.g_nodes i).node_id ≠ 0 → (t.g_nodes i).file = some f →
      t.fileAt none (some i) = some f := by
    intro i f hi hf
    rw [fileAt, if_neg hi, hf]
  refine ⟨?_, ?_, hinv.files.nodup, ?_⟩
  · intro i hi
    rw [hinv.counts.refcount i hi, count_none]
    exact ⟨rfl, (hused i).mp hi⟩
  · intro p hp fd i hi
    rw [hused, references]
    have hpos := refs_pos ((held_of_live hp fd).trans hi)
    omega
  · intro h b hb hclose
    constructor
    · intro hclosed i f hf hfh
      by_contra hpos
      have hi := (hused i).mpr (pos_of_ne_zero hpos)
      apply hinv.files.not_closed (some i) f (hplace i f hi hf)
      rw [hfh]
      exact hclosed
    · intro hnone
      by_contra hclosed
      obtain ⟨k, f, hf, hfh⟩ := hinv.files.closed_of h b hb hclose hclosed
      cases k with
      | none => cases hf
      | some i =>
        rw [fileAt] at hf
        split_ifs at hf with hi
        exact absurd ((hused i).mp hi) (by rw [hnone i f hf hfh]; exact lt_irrefl 0)

/-- One process, and a root file system that opens and closes whatever it is asked to. -/
def oneProcess : State Unit Unit where
  g_nodes := fun _ => Node.zero
  g_next_node_id := 1
  g_backends := fun i => if i = 0 then
      some ⟨[slash], ⟨some fun _ _ fs => (some (), fs), some fun _ fs => fs, none, none, none, none⟩⟩
    else none
  fd_table := fun _ _ => none
  rings := fun _ => ⟨0, 0, 0, 0, fun _ => 0⟩
  fs := ()
  live := {1}
  pseudo := ∅
  opened := []
  closed := []

theorem start_oneProcess : oneProcess.Start := ⟨fun _ => rfl, fun _ _ => rfl, rfl, rfl, rfl⟩

/-- The process opens a file, as descriptor 3. -/
def oneOpen : State Unit Unit := oneProcess.perform (.open (cstr "/a") 1 (some 1))

/-- A file that is duplicated has two references. -/
theorem refcounts_of_run_dup2 :
    ∃ t, Relation.ReflTransGen Step oneProcess t ∧ (t.g_nodes 1).refcount = 2 ∧
      (t.g_nodes 1).refcount = t.references 1 := by
  have hopen : oneProcess.Step oneOpen := step_perform (by simp [Possible, oneProcess]) trivial
  generalize hc : Call.dup2 (some 1) 3 4 = c
  have hpossible : oneOpen.Possible c := by
    rw [← hc]
    intro p hp
    rw [← mem_some_iff.mp hp]
    decide +kernel
  have hcareful : oneOpen.Careful c := by
    rw [← hc]
    exact fun h => absurd h (by decide)
  have hrun := Relation.ReflTransGen.tail (.single hopen) (step_perform hpossible hcareful)
  rw [← hc] at hrun
  refine ⟨_, hrun, by decide +kernel, ?_⟩
  exact ((refcounts_of_run start_oneProcess hrun).1 1 (by decide +kernel)).1

/-- If it is duplicated to itself instead, then its node is free and the descriptor points to it. Its
file is closed, and a second time with the descriptor. -/
theorem dup2_self_closes_twice :
    let s := oneOpen.perform (.dup2 (some 1) 3 3)
    (s.g_nodes 1).node_id = 0 ∧ s.fd_table 1 3 = some 1 ∧
      (s.perform (.close (some 1) 3)).closed = [0, 0] := by
  decide +kernel

end State

end FreeAsd.Vfs
