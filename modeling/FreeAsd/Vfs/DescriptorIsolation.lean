import FreeAsd.Lib.Unwinding
import FreeAsd.Vfs.DescriptorView

/-!
# Isolation of descriptors

If a process passes only places of the table, or numbers so large that they are nothing, then its results do
not depend on the files that others open apart from its own (`descriptor_isolation`). The numbers between are
descriptors of the kernel, and nothing keeps a process from passing one (`read_kernel_file`).
-/

namespace FreeAsd.Vfs

open State (Confined View Consistent)

variable {σ β : Type} {portSend : ℕ → List UInt8 → σ → ℤ × σ} {p : Pid}

/-- The descriptor is a place of the table, or larger than those of the kernel. -/
def FdCall.InTable (c : FdCall) : Prop :=
  c.fd % 2^32 < maxFds ∨ maxFds + maxVfsNodes ≤ c.fd % 2^32

/-- A file opened by another process, or by the kernel. -/
structure OtherOpen where
  path : CStr
  flags : ℕ
  caller : Option Pid

/-- It is another than `p` who opens the file, and `p` can tell nothing from it. -/
structure OtherOpen.Apart (p : Pid) (r : σ → σ → Prop) (B : Fin maxBackends → Option (Backend σ β))
    (e : OtherOpen) : Prop where
  caller : e.caller ≠ some p
  opens : OpensApart r B e.path e.flags

namespace Machine

/-- Somebody opens a file. -/
def other (e : OtherOpen) (m : Machine σ β) : Machine σ β :=
  { m with vfs := (m.vfs.vfsOpen e.path e.flags e.caller).2 }

variable {fd buf n : ℕ} (hfd : fd < maxFds ∨ maxFds + maxVfsNodes ≤ fd)

/-! ## What a system call touches -/

include hfd in
theorem confined_readLoop (fuel total : ℕ) (m : Machine σ β) :
    Confined p m.vfs (readLoop p fd buf n fuel total m).2.vfs := by
  induction fuel generalizing total m with
  | zero => exact .refl p m.vfs
  | succ fuel ih =>
    unfold readLoop
    by_cases htotal : total < n
    · rw [if_pos htotal]
      dsimp only
      have hread := State.confined_vfsRead (s := m.vfs) (p := p) hfd (chunkOf kbufSize (n - total))
      split_ifs
      · exact hread
      · exact hread
      · exact hread
      · split
        next => exact hread
        next user _ => exact hread.trans (ih _ { m with vfs := _, user := user })
    · rw [if_neg htotal]
      exact .refl p m.vfs

include hfd in
theorem confined_writeLoop (fuel total : ℕ) (m : Machine σ β) :
    Confined p m.vfs (writeLoop portSend p fd buf n fuel total m).2.vfs := by
  induction fuel generalizing total m with
  | zero => exact .refl p m.vfs
  | succ fuel ih =>
    unfold writeLoop
    by_cases htotal : total < n
    · rw [if_pos htotal]
      dsimp only
      split
      next => exact .refl p m.vfs
      next data _ =>
        have hwrite : Confined p m.vfs (m.vfs.vfsWrite portSend (some p) fd data).2 :=
          State.confined_vfsWrite hfd data
        split_ifs
        · exact hwrite
        · exact hwrite
        · exact hwrite.trans (ih _ { m with vfs := _ })
    · rw [if_neg htotal]
      exact .refl p m.vfs

/-- A system call on a descriptor in the table touches only nodes of the process. -/
theorem confined_syscall (m : Machine σ β) {c : FdCall} (hc : c.InTable) :
    Confined p m.vfs (m.syscall portSend p c).2.vfs := by
  cases c with
  | read fd buf n =>
    change Confined p m.vfs (m.sysRead p fd buf n).2.vfs
    unfold sysRead
    split_ifs
    · exact .refl p m.vfs
    · exact .refl p m.vfs
    · split
      next => exact .refl p m.vfs
      next => exact .refl p m.vfs
    · exact confined_readLoop hc n 0 m
  | write fd buf n =>
    change Confined p m.vfs (m.sysWrite portSend p fd buf n).2.vfs
    unfold sysWrite
    split_ifs
    · exact .refl p m.vfs
    · exact .refl p m.vfs
    · exact .refl p m.vfs
    · exact .refl p m.vfs
    · exact confined_writeLoop hc n 0 m
  | seek fd off whence => exact State.confined_vfsSeek (s := m.vfs) hc off whence
  | close fd =>
    change Confined p m.vfs (m.sysClose p fd).2.vfs
    have hclose : Confined p m.vfs (m.vfs.vfsClose (some p) (fd % 2^32)).2 := State.confined_vfsClose hc
    unfold sysClose
    split
    next vfs heq =>
      rw [heq] at hclose
      exact hclose
    next e vfs heq =>
      rw [heq] at hclose
      exact hclose

/-! ## What a system call returns -/

/-- Two machines are the same to a process. -/
structure View (B : Fin maxBackends → Option (Backend σ β)) (K : OpenFile β → Prop)
    (r : σ → σ → Prop) (p : Pid) (m m' : Machine σ β) : Prop where
  vfs : State.View B K r p m.vfs m'.vfs
  user : m'.user = m.user
  console : m'.console = m.console

variable {B : Fin maxBackends → Option (Backend σ β)} {K : OpenFile β → Prop} {r : σ → σ → Prop}
  {m m' : Machine σ β}

section

variable (hiso : Isolating r K portSend B) (h : View B K r p m m')

include hiso h

include hfd in
theorem consistent_readLoop (fuel total : ℕ) :
    (readLoop p fd buf n fuel total m).1 = (readLoop p fd buf n fuel total m').1 ∧
      View B K r p (readLoop p fd buf n fuel total m).2 (readLoop p fd buf n fuel total m').2 := by
  induction fuel generalizing total m m' with
  | zero => exact ⟨rfl, h⟩
  | succ fuel ih =>
    unfold readLoop
    by_cases htotal : total < n
    · rw [if_pos htotal, if_pos htotal]
      rw [h.user]
      obtain ⟨hres, hvfs⟩ := State.consistent_vfsRead hiso h.vfs hfd (chunkOf kbufSize (n - total))
      rcases hx : m.vfs.vfsRead (some p) fd (chunkOf kbufSize (n - total)) with ⟨⟨rc, got⟩, s⟩
      rcases hy : m'.vfs.vfsRead (some p) fd (chunkOf kbufSize (n - total)) with ⟨⟨rc', got'⟩, t⟩
      rw [hx, hy] at hres hvfs
      cases hres
      dsimp only
      rw [hx, hy]
      split_ifs
      · exact ⟨rfl, hvfs, rfl, h.console⟩
      · exact ⟨rfl, hvfs, rfl, h.console⟩
      · exact ⟨rfl, hvfs, rfl, h.console⟩
      · split
        next => exact ⟨rfl, hvfs, rfl, h.console⟩
        next =>
          apply ih
          exact ⟨hvfs, rfl, h.console⟩
    · rw [if_neg htotal, if_neg htotal]
      exact ⟨rfl, h⟩

include hfd in
theorem consistent_writeLoop (fuel total : ℕ) :
    (writeLoop portSend p fd buf n fuel total m).1 = (writeLoop portSend p fd buf n fuel total m').1 ∧
      View B K r p (writeLoop portSend p fd buf n fuel total m).2
        (writeLoop portSend p fd buf n fuel total m').2 := by
  induction fuel generalizing total m m' with
  | zero => exact ⟨rfl, h⟩
  | succ fuel ih =>
    unfold writeLoop
    by_cases htotal : total < n
    · rw [if_pos htotal, if_pos htotal]
      dsimp only
      rw [h.user]
      split
      next => exact ⟨rfl, h⟩
      next data _ =>
        obtain ⟨hres, hvfs⟩ := State.consistent_vfsWrite hiso h.vfs hfd data
        rcases hx : m.vfs.vfsWrite portSend (some p) fd data with ⟨rc, s⟩
        rcases hy : m'.vfs.vfsWrite portSend (some p) fd data with ⟨rc', t⟩
        rw [hx, hy] at hres hvfs
        obtain rfl : rc = rc' := hres
        split_ifs
        · exact ⟨rfl, hvfs, rfl, h.console⟩
        · exact ⟨rfl, hvfs, rfl, h.console⟩
        · apply ih
          exact ⟨hvfs, rfl, h.console⟩
    · rw [if_neg htotal, if_neg htotal]
      exact ⟨rfl, h⟩

/-- A system call on a descriptor in the table has the same result in both machines. -/
theorem consistent_syscall {c : FdCall} (hc : c.InTable) :
    (m.syscall portSend p c).1 = (m'.syscall portSend p c).1 ∧
      View B K r p (m.syscall portSend p c).2 (m'.syscall portSend p c).2 := by
  cases c with
  | read fd buf n =>
    change (m.sysRead p fd buf n).1 = (m'.sysRead p fd buf n).1 ∧
      View B K r p (m.sysRead p fd buf n).2 (m'.sysRead p fd buf n).2
    unfold sysRead
    rw [h.vfs.table, h.console, h.user]
    split_ifs
    · exact ⟨rfl, h⟩
    · exact ⟨rfl, h⟩
    · split
      next => exact ⟨rfl, h⟩
      next => exact ⟨rfl, h.vfs, rfl, rfl⟩
    · have hloop := @consistent_readLoop σ β portSend p (fd % 2^32) buf n hc B K r m m' hiso h n 0
      exact ⟨congrArg some hloop.1, hloop.2⟩
  | write fd buf n =>
    obtain ⟨hres, hview⟩ : (m.sysWrite portSend p fd buf n).1 = (m'.sysWrite portSend p fd buf n).1 ∧
        View B K r p (m.sysWrite portSend p fd buf n).2 (m'.sysWrite portSend p fd buf n).2 := by
      unfold sysWrite
      rw [h.vfs.table, h.user, h.console]
      split_ifs
      · exact ⟨rfl, h⟩
      · exact ⟨rfl, h⟩
      · exact ⟨rfl, h.vfs, rfl, rfl⟩
      · exact ⟨rfl, h⟩
      · exact consistent_writeLoop hc hiso h n 0
    exact ⟨congrArg some hres, hview⟩
  | seek fd off whence =>
    obtain ⟨hres, hvfs⟩ := State.consistent_vfsSeek hiso h.vfs hc off whence
    exact ⟨congrArg some hres, hvfs, h.user, h.console⟩
  | close fd =>
    obtain ⟨hres, hvfs⟩ : Consistent B K r p (m.vfs.vfsClose (some p) (fd % 2^32))
        (m'.vfs.vfsClose (some p) (fd % 2^32)) := State.consistent_vfsClose hiso h.vfs hc
    obtain ⟨hres', hview⟩ : (m.sysClose p fd).1 = (m'.sysClose p fd).1 ∧
        View B K r p (m.sysClose p fd).2 (m'.sysClose p fd).2 := by
      unfold sysClose
      rcases hx : m.vfs.vfsClose (some p) (fd % 2^32) with ⟨x, s⟩
      rcases hy : m'.vfs.vfsClose (some p) (fd % 2^32) with ⟨y, t⟩
      rw [hx, hy] at hres hvfs
      obtain rfl : x = y := hres
      cases x with
      | ok => exact ⟨rfl, hvfs, h.user, h.console⟩
      | error e => exact ⟨rfl, hvfs, h.user, h.console⟩
    exact ⟨congrArg some hres', hview⟩

theorem View.symm : View B K r p m' m := ⟨h.vfs.symm hiso, h.user.symm, h.console.symm⟩

/-- Opening a file in one of the machines goes unnoticed. -/
theorem View.other {e : OtherOpen} (he : e.Apart p r B) : View B K r p (m.other e) m' :=
  ⟨h.vfs.unnoticed hiso (State.unnoticed_vfsOpen hiso h.vfs.left.backends he.caller he.opens), h.user,
    h.console⟩

end

/-- System calls on descriptors in the table touch only nodes of the process. Two runs from machines that
are the same to the process, with the same calls, return the same, whatever files apart from its own
others open in each. -/
theorem descriptor_isolation (portSend : ℕ → List UInt8 → σ → ℤ × σ) (p : Pid) :
    (∀ (m : Machine σ β) (c : FdCall), c.InTable →
      Confined p m.vfs (m.syscall portSend p c).2.vfs) ∧
    ∀ (B : Fin maxBackends → Option (Backend σ β)) (K : OpenFile β → Prop) (r : σ → σ → Prop),
      Isolating r K portSend B → ∀ m m' : Machine σ β, View B K r p m m' →
      ∀ es es' : List (FdCall ⊕ OtherOpen), Unwinding.calls es = Unwinding.calls es' →
        (∀ c ∈ Unwinding.calls es, c.InTable) →
        (∀ e, .inr e ∈ es → e.Apart p r B) → (∀ e, .inr e ∈ es' → e.Apart p r B) →
        (Unwinding.run (syscall portSend p) other es m).1 =
          (Unwinding.run (syscall portSend p) other es' m').1 := by
  refine ⟨fun m c hc => confined_syscall m hc, ?_⟩
  intro B K r hiso m m' hview es es' hcalls hC hEs hEs'
  have hcall : ∀ c (m m' : Machine σ β), FdCall.InTable c → View B K r p m m' →
      (syscall portSend p c m).1 = (syscall portSend p c m').1 ∧
        View B K r p (syscall portSend p c m).2 (syscall portSend p c m').2 :=
    fun _ _ _ hc h => consistent_syscall hiso h hc
  have hother : ∀ e (m m' : Machine σ β), OtherOpen.Apart p r B e → View B K r p m m' →
      View B K r p (other e m) m' :=
    fun _ _ _ he h => h.other hiso he
  exact Unwinding.results_eq hcall hother (fun _ _ h => h.symm hiso) hcalls hC hEs hEs' hview

/-- A file system with the file `/a` and one other, which can be opened, with `VFS_O_TRUNC` or without,
and read. Its state is what is in the two files. -/
def twoFiles : Fin maxBackends → Option (Backend (List UInt8 × List UInt8) Bool) := fun i =>
  if i = 0 then
    some ⟨[slash], ⟨some fun path flags fs => (some (path = cstr "/a"),
        if flags &&& 0x20 = 0 then fs else if path = cstr "/a" then ([], fs.2) else (fs.1, [])),
      none, some fun isA n fs => ((0, (if isA then fs.1 else fs.2).take n), fs), none, none, none⟩⟩
  else none

/-- No port takes messages. -/
def noPorts : ℕ → List UInt8 → List UInt8 × List UInt8 → ℤ × (List UInt8 × List UInt8) :=
  fun _ _ fs => (-1, fs)

/-- A process that has `/a` open as the descriptor 3, with the node 1. -/
def readerOfA : Machine (List UInt8 × List UInt8) Bool where
  vfs :=
    { g_nodes := fun i => if i = 1 then ⟨1, 1, 1, 0, 1, some ⟨0, true, 0⟩, none, 0⟩ else Node.zero
      g_next_node_id := 2
      g_backends := twoFiles
      fd_table := fun p fd => if p = 1 ∧ fd = 3 then some 1 else none
      rings := fun _ => ⟨0, 0, 0, 0, fun _ => 0⟩
      fs := ([7], [42])
      live := {1}
      pseudo := ∅
      opened := [0]
      closed := [] }
  user := ⟨fun _ => 0, fun _ => true, fun _ => true⟩
  console := ⟨[], [], []⟩

/-- A process that has `/a` open can tell what is in it, and no more. -/
theorem isolating_twoFiles : Isolating (fun x y => x.1 = y.1) (fun f => f.bctx = true) noPorts twoFiles := by
  have hread : ∀ i, ∀ op ∈ (twoFiles i).bind (·.ops.read),
      op = fun isA n fs => ((0, (if isA then fs.1 else fs.2).take n), fs) := by
    intro i op hop
    unfold twoFiles at hop
    split_ifs at hop
    · exact (Option.some.inj hop).symm
    · exact nomatch hop
  have hnone : ∀ i, (twoFiles i).bind (·.ops.write) = none ∧ (twoFiles i).bind (·.ops.seek) = none ∧
      (twoFiles i).bind (·.ops.close) = none := by
    intro i
    unfold twoFiles
    split_ifs <;> exact ⟨rfl, rfl, rfl⟩
  constructor
  · exact ⟨fun _ => rfl, Eq.symm, Eq.trans⟩
  · intro f hf op hop n x y hxy
    rw [hread _ op hop]
    dsimp only
    rw [hf, if_pos rfl, if_pos rfl, hxy]
    exact ⟨rfl, rfl⟩
  · intro f _ op hop
    exact absurd ((hnone f.backend).1.symm.trans hop) (Option.some_ne_none op).symm
  · intro f _ op hop
    exact absurd ((hnone f.backend).2.1.symm.trans hop) (Option.some_ne_none op).symm
  · intro f _ op hop
    exact absurd ((hnone f.backend).2.2.symm.trans hop) (Option.some_ne_none op).symm
  · exact fun _ _ _ _ hxy => ⟨rfl, hxy⟩

theorem holds_readerOfA : State.Holds twoFiles (fun f => f.bctx = true) 1 readerOfA.vfs := by
  have hone : ∀ i, readerOfA.vfs.Owned 1 i → i = 1 := by
    rintro i ⟨fd, hfd⟩
    change (if (1 : Pid) = 1 ∧ fd = 3 then some (1 : NodeId) else none) = some i at hfd
    split_ifs at hfd
    exact (Option.some.inj hfd).symm
  refine .of_nodes rfl fun i hi => ?_
  rw [hone i hi]
  refine ⟨by decide, by decide +kernel, by decide, ?_⟩
  intro f hf
  obtain rfl : (⟨0, true, 0⟩ : OpenFile Bool) = f := Option.some.inj hf
  rfl

/-- Another process opens `/b` and truncates it. -/
def truncatesB : OtherOpen := ⟨cstr "/b", 0x22, some 2⟩

theorem apart_truncatesB : truncatesB.Apart 1 (fun x y => x.1 = y.1) twoFiles := by
  refine ⟨by decide, ?_⟩
  intro canonical hcanonical i rel_path hfind op hop x
  have hpath : vfsCanonicalize truncatesB.path vfsPathMax = some (cstr "/b") := by decide +kernel
  obtain rfl : cstr "/b" = canonical := Option.some.inj (hpath.symm.trans hcanonical)
  have hfound : findBackend (fun i => (twoFiles i).map (·.mount_pt)) (cstr "/b") =
      some (0, cstr "/b") := by decide +kernel
  obtain ⟨rfl, rfl⟩ := Prod.mk.inj (Option.some.inj (hfound.symm.trans hfind))
  obtain rfl := Option.some.inj hop
  exact ⟨rfl, fun cl hcl => nomatch hcl⟩

/-- The process reads the byte that is in `/a`, whether or not the other has truncated `/b`. -/
theorem descriptor_isolation_truncates :
    (Unwinding.run (syscall noPorts 1) other [.inl (.read 3 0x1000 1)] readerOfA).1 = [some 1] ∧
      (Unwinding.run (syscall noPorts 1) other [.inr truncatesB, .inl (.read 3 0x1000 1)] readerOfA).1 =
        [some 1] := by
  have hcalls : ∀ c ∈ Unwinding.calls [(.inl (.read 3 0x1000 1) : FdCall ⊕ OtherOpen)], c.InTable := by
    intro c hc
    rw [List.mem_singleton.mp hc]
    exact .inl (by decide)
  have hview : View twoFiles (fun f => f.bctx = true) (fun x y => x.1 = y.1) 1 readerOfA readerOfA :=
    ⟨⟨holds_readerOfA, holds_readerOfA, rfl, fun _ _ => rfl, fun _ _ _ _ => rfl, rfl⟩, rfl, rfl⟩
  have hsame := (descriptor_isolation noPorts 1).2 _ _ _ isolating_twoFiles readerOfA readerOfA hview
    [.inl (.read 3 0x1000 1)] [.inr truncatesB, .inl (.read 3 0x1000 1)] rfl hcalls
    (fun e he => absurd he (by simp)) (fun e he => by
      obtain rfl : e = truncatesB := by simpa using he
      exact apart_truncatesB)
  have hfirst : (Unwinding.run (syscall noPorts 1) other [.inl (.read 3 0x1000 1)] readerOfA).1 = [some 1] := by
    decide +kernel
  exact ⟨hfirst, hsame.symm.trans hfirst⟩

/-- If it reads from 258 instead, then it gets the byte of the file `/b` once the kernel has opened it. -/
theorem read_kernel_file :
    (Unwinding.run (syscall noPorts 1) other [.inl (.read 258 0x1000 1)] readerOfA).1 = [some (-3)] ∧
      (Unwinding.run (syscall noPorts 1) other [.inr ⟨cstr "/b", 1, none⟩, .inl (.read 258 0x1000 1)]
        readerOfA).1 = [some 1] ∧
      ((readerOfA.other ⟨cstr "/b", 1, none⟩).syscall noPorts 1
        (.read 258 0x1000 1)).2.user.byte 0x1000 = 42 := by
  decide +kernel

end Machine

end FreeAsd.Vfs
