import FreeAsd.Vfs.RefCountRuns
import FreeAsd.Vfs.Routing

/-!
# Standard descriptors after `dup2`

`vfs_read` and `vfs_write` refuse 0, 1 and 2 before they look at the table, so a duplicated standard descriptor
works like the file only where the file refuses in the same way (`State.ReadRefused`, `State.WriteRefused`).
-/

namespace FreeAsd.Vfs

open Machine Option

open Arch (UserMem validateUserPtr)

variable {σ β : Type} {m : Machine σ β} {p : Pid} {fd buf n : ℕ}
  {portSend : ℕ → List UInt8 → σ → ℤ × σ}

theorem chunkOf_pos {size rest : ℕ} (hsize : 0 < size) (hrest : 0 < rest) : 0 < chunkOf size rest := by
  unfold chunkOf
  split_ifs <;> omega

namespace Machine

/-! ## The loops over a file -/

/-- After the first bytes `sys_read` returns a count or a fault. -/
theorem readLoop_of_pos (fuel : ℕ) {total : ℕ} (htotal : 0 < total) (m : Machine σ β) :
    0 ≤ (m.readLoop p fd buf n fuel total).1 ∨ (m.readLoop p fd buf n fuel total).1 = esysFault := by
  induction fuel generalizing total m with
  | zero => exact .inl (Int.natCast_nonneg total)
  | succ fuel ih =>
    rw [readLoop]
    dsimp only
    generalize m.vfs.vfsRead (some p) fd (chunkOf kbufSize (n - total)) = out
    obtain ⟨⟨r, got⟩, vfs⟩ := out
    split_ifs with hmore hneg hzero hnone
    · omega
    · exact .inl (Int.natCast_nonneg total)
    · exact .inl (Int.natCast_nonneg total)
    · cases m.user.copyToUser (buf + total) got with
      | mk ok user =>
        cases ok with
        | false => exact .inr rfl
        | true => exact ih (by omega) _
    · exact .inl (Int.natCast_nonneg total)

/-- `sys_read` fails with the code of `vfs_read` only if the first `vfs_read` does. -/
theorem readLoop_eq_iff (hn : 0 < n) {e : ℤ} (he : e < 0) (hfault : e ≠ esysFault) :
    m.readLoop p fd buf n n 0 = (e, m) ↔
      (m.vfs.vfsRead (some p) fd (chunkOf kbufSize n)).1.1 = e ∧
        (m.vfs.vfsRead (some p) fd (chunkOf kbufSize n)).2 = m.vfs := by
  obtain ⟨fuel, rfl⟩ : ∃ fuel, n = fuel + 1 := ⟨n - 1, by omega⟩
  rw [readLoop, if_pos hn, Nat.sub_zero]
  dsimp only
  generalize m.vfs.vfsRead (some p) fd (chunkOf kbufSize (fuel + 1)) = out
  obtain ⟨⟨r, got⟩, vfs⟩ := out
  dsimp only
  by_cases hneg : r < 0
  · rw [if_pos hneg, if_pos rfl, Prod.mk.injEq]
    refine and_congr_right fun _ => ⟨congrArg Machine.vfs, ?_⟩
    rintro rfl
    rfl
  · -- A call that does not fail at once ends with a count or with a fault.
    have hother : r ≠ e := by omega
    refine iff_of_false (fun h => ?_) fun h => hother h.1
    split_ifs at h with hzero
    · have hcode := congrArg Prod.fst h
      omega
    cases hcopy : m.user.copyToUser (buf + 0) got with
    | mk ok user =>
      rw [hcopy] at h
      cases ok with
      | false => exact hfault (congrArg Prod.fst h).symm
      | true =>
        have hcode : (readLoop p fd buf (fuel + 1) fuel (0 + got.length)
          { m with vfs := vfs, user := user }).1 = e := congrArg Prod.fst h
        rcases readLoop_of_pos fuel (show 0 < 0 + got.length by omega)
          { m with vfs := vfs, user := user } with hpos | hf
        · rw [hcode] at hpos
          omega
        · exact hfault (hcode.symm.trans hf)

/-- After the first bytes `sys_write` returns a count or a fault. -/
theorem writeLoop_of_pos (fuel : ℕ) {total : ℕ} (htotal : 0 < total) (m : Machine σ β) :
    0 ≤ (m.writeLoop portSend p fd buf n fuel total).1 ∨
      (m.writeLoop portSend p fd buf n fuel total).1 = esysFault := by
  induction fuel generalizing total m with
  | zero => exact .inl (Int.natCast_nonneg total)
  | succ fuel ih =>
    rw [writeLoop]
    by_cases hmore : total < n
    · rw [if_pos hmore]
      dsimp only
      cases m.user.copyFromUser (buf + total) (chunkOf kbufSize (n - total)) with
      | none => exact .inr rfl
      | some data =>
        dsimp only
        split_ifs with hneg hzero
        · omega
        · exact .inl (Int.natCast_nonneg total)
        · exact ih (by omega) _
    · rw [if_neg hmore]
      exact .inl (Int.natCast_nonneg total)

/-- `sys_write` fails if it cannot copy the first bytes. -/
theorem writeLoop_of_fault (hn : 0 < n) (hcopy : m.user.copyFromUser buf (chunkOf kbufSize n) = none) :
    m.writeLoop portSend p fd buf n n 0 = (esysFault, m) := by
  obtain ⟨fuel, rfl⟩ : ∃ fuel, n = fuel + 1 := ⟨n - 1, by omega⟩
  rw [writeLoop, if_pos hn]
  dsimp only
  rw [Nat.sub_zero, Nat.add_zero, hcopy]

/-- `sys_write` fails with the code of `vfs_write` only if the first `vfs_write` does. -/
theorem writeLoop_eq_iff (hn : 0 < n) {e : ℤ} (he : e < 0) (hfault : e ≠ esysFault) :
    m.writeLoop portSend p fd buf n n 0 = (e, m) ↔
      ∃ data, m.user.copyFromUser buf (chunkOf kbufSize n) = some data ∧
        m.vfs.vfsWrite portSend (some p) fd data = (e, m.vfs) := by
  obtain ⟨fuel, rfl⟩ : ∃ fuel, n = fuel + 1 := ⟨n - 1, by omega⟩
  rw [writeLoop, if_pos hn]
  dsimp only
  rw [Nat.sub_zero, Nat.add_zero]
  cases hcopy : m.user.copyFromUser buf (chunkOf kbufSize (fuel + 1)) with
  | none => exact iff_of_false (fun h => hfault (congrArg Prod.fst h).symm) (by simp)
  | some data =>
    have hdata : (∃ data', some data = some data' ∧
        m.vfs.vfsWrite portSend (some p) fd data' = (e, m.vfs)) ↔
        m.vfs.vfsWrite portSend (some p) fd data = (e, m.vfs) := by
      simp only [some.injEq, exists_eq_left']
    rw [hdata]
    dsimp only
    generalize m.vfs.vfsWrite portSend (some p) fd data = out
    obtain ⟨r, vfs⟩ := out
    by_cases hneg : r < 0
    · rw [if_pos hneg, if_pos rfl, Prod.mk.injEq, Prod.mk.injEq]
      refine and_congr_right fun _ => ⟨congrArg Machine.vfs, ?_⟩
      rintro rfl
      rfl
    · refine iff_of_false (fun h => ?_) fun h => ?_
      · rw [if_neg hneg] at h
        have hpos : 0 < 0 + chunkOf kbufSize (fuel + 1) := by
          rw [zero_add]
          exact chunkOf_pos (by decide) hn
        rcases writeLoop_of_pos fuel hpos { m with vfs := vfs } with hcount | hf
        · rw [h] at hcount
          exact absurd hcount (by dsimp only; omega)
        · rw [h] at hf
          exact hfault hf
      · rw [Prod.mk.injEq] at h
        omega

/-! ## Reading and writing -/

/-- The machine after a `dup2` that has left the VFS in the state `vfs`. -/
def withVfs (m : Machine σ β) (vfs : State σ β) : Machine σ β := { m with vfs := vfs }

section

variable (hn : 0 < n) (hptr : validateUserPtr buf n = true)

include hn hptr

/-- `read` from a standard descriptor whose place is taken. -/
theorem sysRead_standard {s : Fd} (hs : s.val ≤ 2) (htaken : m.vfs.fd_table p s ≠ none) :
    m.sysRead p s buf n = (some VfsError.einval.code, m) := by
  have hfile : ¬ (s.val = 0 ∧ m.vfs.fd_table p 0 = none) := by
    rintro ⟨hzero, hnone⟩
    obtain rfl : s = 0 := Fin.ext hzero
    exact htaken hnone
  have hsmall : s.val % 2^32 = s.val := Nat.mod_eq_of_lt (by omega)
  have hloop : m.readLoop p s.val buf n n 0 = (VfsError.einval.code, m) := by
    rw [readLoop_eq_iff hn (by decide) (by decide), State.vfsRead, if_pos hs]
    exact ⟨rfl, rfl⟩
  rw [sysRead, if_neg (by omega), hptr, Bool.not_true, if_neg (by decide), if_neg hfile, hsmall, hloop]

/-- `read` from another descriptor. -/
theorem sysRead_file {x : ℕ} (hx : 3 ≤ x) (hlt : x < maxFds) :
    m.sysRead p x buf n = (some (m.readLoop p x buf n n 0).1, (m.readLoop p x buf n n 0).2) := by
  have hsmall : x % 2^32 = x := Nat.mod_eq_of_lt (hlt.trans (by decide))
  rw [sysRead, if_neg (by omega), hptr, Bool.not_true, if_neg (by decide), if_neg (by omega), hsmall]

/-- `write` to another descriptor. -/
theorem sysWrite_file {x : ℕ} (hx : 3 ≤ x) (hlt : x < maxFds) :
    m.sysWrite portSend p x buf n = m.writeLoop portSend p x buf n n 0 := by
  have hsmall : x % 2^32 = x := Nat.mod_eq_of_lt (hlt.trans (by decide))
  rw [sysWrite, if_neg (by omega), hptr, Bool.not_true, if_neg (by decide), if_neg (by omega),
    if_neg (by omega), hsmall]

/-- `write` to the standard input is refused. -/
theorem sysWrite_input : m.sysWrite portSend p 0 buf n = (esysInval, m) := by
  rw [sysWrite, if_neg (by omega), hptr, Bool.not_true, if_neg (by decide), if_neg (by omega), if_pos rfl]

variable (portSend) in
/-- `write` to the standard output or error if its place is taken: after a first copy that may fail, the
VFS refuses. -/
theorem sysWrite_output {s : Fd} (hs : s.val = 1 ∨ s.val = 2) (htaken : m.vfs.fd_table p s ≠ none) :
    m.sysWrite portSend p s buf n =
      (if m.user.copyFromUser buf (chunkOf kbufSize n) = none then esysFault
        else VfsError.einval.code, m) := by
  have hfile : ¬ ((s.val = 1 ∧ m.vfs.fd_table p 1 = none) ∨ (s.val = 2 ∧ m.vfs.fd_table p 2 = none)) := by
    rintro (⟨hone, hnone⟩ | ⟨htwo, hnone⟩)
    · obtain rfl : s = 1 := Fin.ext hone
      exact htaken hnone
    · obtain rfl : s = 2 := Fin.ext htwo
      exact htaken hnone
  have hsmall : s.val % 2^32 = s.val := Nat.mod_eq_of_lt (by omega)
  rw [sysWrite, if_neg (by omega), hptr, Bool.not_true, if_neg (by decide), if_neg hfile,
    if_neg (by omega), hsmall]
  by_cases hcopy : m.user.copyFromUser buf (chunkOf kbufSize n) = none
  · rw [if_pos hcopy, writeLoop_of_fault hn hcopy]
  · obtain ⟨data, hdata⟩ := ne_none_iff_exists'.mp hcopy
    rw [if_neg hcopy, writeLoop_eq_iff hn (by decide) (by decide)]
    exact ⟨data, hdata, if_pos (.inl (by omega))⟩

end

end Machine

namespace State

/-- The file of the node has a backend that answers `VFS_EINVAL` to a request for `n` bytes, and changes
nothing. -/
def ReadRefused (s : State σ β) (i : NodeId) (n : ℕ) : Prop :=
  (s.g_nodes i).ring = none ∧ ∃ f ∈ (s.g_nodes i).file, ∃ read ∈ s.op f.backend (·.read),
    (read f.bctx n s.fs).1.1 = VfsError.einval.code ∧ (read f.bctx n s.fs).2 = s.fs

/-- The port of the node, or else the backend of its file, answers `e` to the bytes and changes nothing. -/
def WriteRefused (portSend : ℕ → List UInt8 → σ → ℤ × σ) (s : State σ β) (i : NodeId)
    (data : List UInt8) (e : ℤ) : Prop :=
  (s.g_nodes i).ring = none ∧
    if (s.g_nodes i).port_id ≠ 0 then portSend (s.g_nodes i).port_id data s.fs = (e, s.fs)
    else ∃ f ∈ (s.g_nodes i).file, ∃ write ∈ s.op f.backend (·.write),
      write f.bctx data s.fs = (e, s.fs)

variable {s : State σ β} {x : ℕ} {i : NodeId}

/-- Only a backend makes `vfs_read` from an open descriptor fail with `VFS_EINVAL`: a ring and a node that
cannot be read have other codes. -/
theorem vfsRead_refused_iff (hx : 3 ≤ x) (hi : s.lookup (some p) x = some i) (n : ℕ) :
    ((s.vfsRead (some p) x n).1.1 = VfsError.einval.code ∧ (s.vfsRead (some p) x n).2 = s) ↔
      s.ReadRefused i n := by
  rw [vfsRead, if_neg (by omega), hi, ReadRefused]
  dsimp only
  cases hring : (s.g_nodes i).ring with
  | some a =>
    dsimp only
    refine iff_of_false (fun h => ?_) fun h => nomatch h.1
    have hcode := h.1
    split_ifs at hcode
    · exact absurd hcode (by decide)
    · exact absurd hcode (by decide)
  | none =>
  cases hfile : (s.g_nodes i).file with
  | none =>
    exact iff_of_false (fun h => absurd h.1 (show VfsError.eperm.code ≠ _ by decide))
      fun ⟨_, f, hf, _⟩ => nomatch hf
  | some f =>
  cases hop : s.op f.backend (·.read) with
  | none =>
    refine iff_of_false (fun h => ?_) ?_
    · dsimp only at h
      rw [hop] at h
      exact absurd h.1 (show VfsError.eperm.code ≠ _ by decide)
    · rintro ⟨-, g, hg, read, hread, -⟩
      obtain rfl : f = g := some.inj hg
      exact nomatch hop.symm.trans hread
  | some read =>
    have hone : ∀ {P : OpenFile β → (β → ℕ → σ → (ℤ × List UInt8) × σ) → Prop},
        (∃ g ∈ some f, ∃ read' ∈ s.op g.backend (·.read), P g read') ↔ P f read := by
      intro P
      simp [hop]
    rw [hone, and_iff_right rfl]
    dsimp only
    rw [hop]
    dsimp only
    refine and_congr_right fun hcode => ?_
    rw [if_neg (by rw [hcode]; decide)]
    exact ⟨congrArg State.fs, fun h => by rw [h]⟩

/-- A port or a backend makes `vfs_write` to an open descriptor fail with a code that the VFS itself does
not return for one. -/
theorem vfsWrite_refused_iff (hx : 3 ≤ x) (hi : s.lookup (some p) x = some i) {data : List UInt8}
    (hdata : data ≠ []) {e : ℤ} (he : e ≠ 0 ∧ e ≠ VfsError.err.code ∧ e ≠ VfsError.eperm.code) :
    s.vfsWrite portSend (some p) x data = (e, s) ↔ s.WriteRefused portSend i data e := by
  obtain ⟨hzero, herr, heperm⟩ := he
  have hfs : ∀ {c : ℤ} {fs : σ}, (c, { s with fs := fs }) = (e, s) ↔ (c, fs) = (e, s.fs) := by
    intro c fs
    rw [Prod.mk.injEq, Prod.mk.injEq]
    exact and_congr_right fun _ => ⟨congrArg State.fs, fun h => by rw [h]⟩
  rw [vfsWrite, if_neg (by rw [not_or]; exact ⟨by omega, hdata⟩), hi, WriteRefused]
  dsimp only
  cases hring : (s.g_nodes i).ring with
  | some a =>
    dsimp only
    refine iff_of_false (fun h => ?_) fun h => nomatch h.1
    have hcode := congrArg Prod.fst h
    split_ifs at hcode
    · exact hzero hcode.symm
    · exact herr hcode.symm
  | none =>
  rw [and_iff_right rfl]
  dsimp only
  split_ifs with hport
  · exact hfs
  cases hfile : (s.g_nodes i).file with
  | none =>
    exact iff_of_false (fun h => heperm (congrArg Prod.fst h).symm) fun ⟨f, hf, _⟩ => nomatch hf
  | some f =>
  cases hop : s.op f.backend (·.write) with
  | none =>
    refine iff_of_false (fun h => ?_) ?_
    · dsimp only at h
      rw [hop] at h
      exact heperm (congrArg Prod.fst h).symm
    · rintro ⟨g, hg, write, hwrite, -⟩
      obtain rfl : f = g := some.inj hg
      exact nomatch hop.symm.trans hwrite
  | some write =>
    have hone : (∃ g ∈ some f, ∃ write' ∈ s.op g.backend (·.write), write' g.bctx data s.fs = (e, s.fs)) ↔
        write f.bctx data s.fs = (e, s.fs) := by
      simp [hop]
    rw [hone]
    dsimp only
    rw [hop]
    dsimp only
    by_cases hok : (write f.bctx data s.fs).1 = 0
    · refine iff_of_false (fun h => hzero ?_) fun h => hzero ?_
      · exact (congrArg Prod.fst h).symm.trans hok
      · rw [h] at hok
        exact hok
    · rw [if_neg hok]
      exact hfs

/-- What a successful `dup2` says about the table. -/
theorem vfsDup2_ok {vfs : State σ β} {new : ℕ} {r : Fd} (hne : x ≠ new)
    (h : s.vfsDup2 (some p) x new = (.ok r, vfs)) :
    x < maxFds ∧ r.val = new ∧ vfs.fd_table p r ≠ none ∧ ∃ i, vfs.lookup (some p) x = some i := by
  unfold vfsDup2 at h
  split_ifs at h with hnew hold
  · dsimp only at h
    cases htable : s.fd_table p ⟨x, hold⟩ with
    | none =>
      rw [htable] at h
      cases h
    | some i =>
      rw [htable] at h
      obtain ⟨hr, rfl⟩ := Prod.mk.inj h
      cases hr
      have hplaces (y : Fd) : (((closeSlot p s ⟨new, hnew⟩).setFd p ⟨new, hnew⟩ (some i)).ref i).fd_table p y =
          if y = ⟨new, hnew⟩ then some i else s.fd_table p y := by
        change ((closeSlot p s ⟨new, hnew⟩).setFd p ⟨new, hnew⟩ (some i)).fd_table p y = _
        rw [setFd_fd_table, closeSlot_fd_table]
        split_ifs <;> rfl
      refine ⟨hold, rfl, ?_, i, ?_⟩
      · rw [hplaces, if_pos rfl]
        exact some_ne_none i
      · rw [lookup, dif_pos hold]
        dsimp only
        rw [hplaces, if_neg (fun heq => hne (congrArg Fin.val heq)), htable]
  · cases h
  · cases h

end State

variable (portSend) in
/-- After a successful `dup2` from `x` to a standard descriptor, a call on that does the same as the call
on `x` exactly if there is nothing to do, the pointer is bad, the bytes cannot be copied, or the backend
or port of `x` refuses with the code with which the standard descriptor refuses. -/
theorem redirected_agree_iff {vfs : State σ β} {x : ℕ} {s r : Fd} (hx : 3 ≤ x) (hs : s.val ≤ 2)
    (hdup : m.vfs.vfsDup2 (some p) x s = (.ok r, vfs)) (buf n : ℕ) :
    ∃ i, vfs.lookup (some p) x = some i ∧
      ((m.withVfs vfs).sysRead p s buf n = (m.withVfs vfs).sysRead p x buf n ↔
        n = 0 ∨ validateUserPtr buf n = false ∨ vfs.ReadRefused i (chunkOf kbufSize n)) ∧
      ((m.withVfs vfs).sysWrite portSend p s buf n = (m.withVfs vfs).sysWrite portSend p x buf n ↔
        n = 0 ∨ validateUserPtr buf n = false ∨
          match m.user.copyFromUser buf (chunkOf kbufSize n) with
          | none => s.val ≠ 0
          | some data => vfs.WriteRefused portSend i data
              (if s.val = 0 then esysInval else VfsError.einval.code)) := by
  obtain ⟨hlt, hr, htaken, i, hi⟩ := State.vfsDup2_ok (by omega) hdup
  obtain rfl : r = s := Fin.ext hr
  refine ⟨i, hi, ?_⟩
  by_cases hn : n = 0
  · rw [hn]
    exact ⟨iff_of_true rfl (.inl rfl), iff_of_true rfl (.inl rfl)⟩
  have hpos : 0 < n := pos_of_ne_zero hn
  cases hptr : validateUserPtr buf n with
  | false =>
    have hread (fd : ℕ) : (m.withVfs vfs).sysRead p fd buf n = (some esysFault, m.withVfs vfs) := by
      rw [sysRead, if_neg hn, hptr, Bool.not_false, if_pos rfl]
    have hwrite (fd : ℕ) : (m.withVfs vfs).sysWrite portSend p fd buf n = (esysFault, m.withVfs vfs) := by
      rw [sysWrite, if_neg hn, hptr, Bool.not_false, if_pos rfl]
    exact ⟨iff_of_true ((hread _).trans (hread _).symm) (.inr (.inl rfl)),
      iff_of_true ((hwrite _).trans (hwrite _).symm) (.inr (.inl rfl))⟩
  | true =>
    simp only [hn, Bool.true_eq_false, false_or]
    constructor
    · rw [sysRead_standard hpos hptr hs htaken, sysRead_file hpos hptr hx hlt,
        ← State.vfsRead_refused_iff hx hi]
      change _ ↔ ((m.withVfs vfs).vfs.vfsRead (some p) x _).1.1 = _ ∧
        ((m.withVfs vfs).vfs.vfsRead (some p) x _).2 = (m.withVfs vfs).vfs
      rw [← readLoop_eq_iff hpos (by decide) (by decide)]
      exact ⟨fun h => Prod.ext (some.inj (congrArg Prod.fst h)).symm (congrArg Prod.snd h).symm,
        fun h => by rw [h]⟩
    · rw [sysWrite_file hpos hptr hx hlt]
      have hstandard : (m.withVfs vfs).sysWrite portSend p r buf n =
          (if r.val = 0 then esysInval
            else if m.user.copyFromUser buf (chunkOf kbufSize n) = none then esysFault
            else VfsError.einval.code, m.withVfs vfs) := by
        split_ifs with hzero hcopy
        · rw [hzero, sysWrite_input hpos hptr]
        · exact (sysWrite_output _ hpos hptr (by omega) htaken).trans (congrArg (·, _) (if_pos hcopy))
        · exact (sysWrite_output _ hpos hptr (by omega) htaken).trans (congrArg (·, _) (if_neg hcopy))
      rw [hstandard]
      cases hcopy : m.user.copyFromUser buf (chunkOf kbufSize n) with
      | none =>
        rw [writeLoop_of_fault (m := m.withVfs vfs) hpos hcopy, if_pos rfl, Prod.mk.injEq, and_iff_left rfl]
        split_ifs with hzero
        · exact iff_of_false (by decide) (not_not.mpr hzero)
        · exact iff_of_true rfl hzero
      | some data =>
        have hdata : data ≠ [] := by
          rw [UserMem.copyFromUser] at hcopy
          split_ifs at hcopy
          rw [← some.inj hcopy, Ne, List.map_eq_nil_iff, List.range_eq_nil]
          exact (chunkOf_pos (by decide) hpos).ne'
        have hcode : ∀ e : ℤ, e < 0 → e ≠ esysFault → e ≠ VfsError.err.code → e ≠ VfsError.eperm.code →
            ((e, m.withVfs vfs) = (m.withVfs vfs).writeLoop portSend p x buf n n 0 ↔
              vfs.WriteRefused portSend i data e) := by
          intro e he hfault herr heperm
          rw [eq_comm, writeLoop_eq_iff hpos he hfault,
            ← State.vfsWrite_refused_iff hx hi hdata ⟨by omega, herr, heperm⟩]
          change (∃ data', m.user.copyFromUser buf (chunkOf kbufSize n) = some data' ∧ _) ↔ _
          simp only [hcopy, some.injEq, exists_eq_left']
          rfl
        rw [if_neg (some_ne_none data)]
        dsimp only
        split_ifs
        · exact hcode _ (by decide) (by decide) (by decide) (by decide)
        · exact hcode _ (by decide) (by decide) (by decide) (by decide)

/-- Everything is a file that takes all that is written to it, and cannot be read. -/
def endlessFile : Ops Unit Unit where
  «open» := some fun _ _ fs => (some (), fs)
  close := none
  read := some fun _ _ fs => ((VfsError.einval.code, []), fs)
  write := some fun _ _ fs => (0, fs)
  seek := none
  stat := none

/-- A machine with such files, on which the process 1 has opened one as the descriptor 3. -/
def endlessMachine : Machine Unit Unit where
  vfs := ((State.vfsInit (fun i => if i = 0 then some ⟨[slash], endlessFile⟩ else none) ()).vfsOpen
    (cstr "/log") 3 (some 1)).2
  user := ⟨fun _ => 0, fun _ => true, fun _ => true⟩
  console := ⟨[], [], []⟩

/-- The VFS after `dup2(3, 1)`. -/
def endlessOutput : State Unit Unit := (endlessMachine.vfs.vfsDup2 (some 1) (3 : Fd) (1 : Fd)).2

theorem endlessOutput_dup2 :
    endlessMachine.vfs.vfsDup2 (some 1) (3 : Fd) (1 : Fd) = (.ok 1, endlessOutput) := by
  have hopen : endlessMachine.vfs.fd_table 1 3 = some 1 := by decide +kernel
  unfold endlessOutput State.vfsDup2
  rw [dif_pos (1 : Fd).isLt]
  dsimp only
  rw [dif_pos (3 : Fd).isLt, hopen]

/-- The backend refuses to read the file with `VFS_EINVAL`, and so does the redirected descriptor. -/
theorem redirected_agree_iff_unreadable :
    (endlessMachine.withVfs endlessOutput).sysRead 1 (1 : Fd) 0x1000 5 =
      (endlessMachine.withVfs endlessOutput).sysRead 1 (3 : Fd) 0x1000 5 := by
  obtain ⟨i, hi, hread, -⟩ := redirected_agree_iff (fun _ _ fs => (0, fs)) (by decide)
    (by decide) endlessOutput_dup2 0x1000 5
  have hnode : endlessOutput.lookup (some 1) (3 : Fd) = some 1 := by decide +kernel
  obtain rfl : 1 = i := some.inj (hnode.symm.trans hi)
  obtain ⟨f, hfile, hbackend⟩ : ∃ f, (endlessOutput.g_nodes 1).file = some f ∧ f.backend = 0 :=
    map_eq_some_iff.mp (by decide +kernel)
  obtain ⟨read, hop, hcode⟩ : ∃ read, endlessOutput.op 0 (·.read) = some read ∧
      (read () 5 endlessOutput.fs).1.1 = VfsError.einval.code :=
    map_eq_some_iff.mp (by decide +kernel)
  rw [show chunkOf kbufSize 5 = 5 from by decide] at hread
  exact hread.mpr (.inr (.inr ⟨by decide +kernel, f, hfile, read, hbackend ▸ hop, hcode,
    Subsingleton.elim _ _⟩))

/-- The file takes five bytes, and the redirected output refuses them. -/
theorem redirected_write_refused :
    endlessMachine.vfs.vfsDup2 (some 1) (3 : Fd) (1 : Fd) = (.ok 1, endlessOutput) ∧
      ((endlessMachine.withVfs endlessOutput).sysWrite (fun _ _ fs => (0, fs)) 1 (3 : Fd) 0x1000 5).1 = 5 ∧
      ((endlessMachine.withVfs endlessOutput).sysWrite (fun _ _ fs => (0, fs)) 1 (1 : Fd) 0x1000 5).1 =
        VfsError.einval.code :=
  ⟨endlessOutput_dup2, by decide +kernel, by decide +kernel⟩

end FreeAsd.Vfs
