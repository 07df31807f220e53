import FreeAsd.Vfs.FileCalls

/-!
# Calls on paths

`vfs_mount`, `vfs_stat`, `vfs_unlink`, `vfs_mkdir` and `vfs_readdir` of `kernel/vfs/vfs.c`, beside `vfs_open`.
What a call does once it has decided on its path is a function of its own (`openAt`, `statAt` and so on), so
that calls can be compared.
-/

namespace FreeAsd.Vfs

variable {σ β : Type}

/-- `stat_info_t`. -/
structure StatInfo where
  size : ℤ
  kind : ℕ
  mtime_ns : ℕ
  name : CStr
  uid : ℕ
  gid : ℕ
  mode : ℕ

/-- `VFS_NODE_DIR`. -/
def vfsNodeDir : ℕ := 2

/-- `vfs_dirent_t`. -/
structure Dirent where
  name : CStr
  kind : ℕ
  size : ℤ

/-- `vfs_ops_t`. `read`, `readdir` and `stat` return a code and what they have put into the buffer or
record. `vfs_readdir` calls `open` and `close` of a backend that has `readdir` without a test, and every
backend that has it has them. -/
structure VfsOps (σ β : Type) where
  «open» : Option (CStr → ℕ → σ → Option β × σ)
  close : Option (β → σ → σ)
  read : Option (β → ℕ → σ → (ℤ × List UInt8) × σ)
  write : Option (β → List UInt8 → σ → ℤ × σ)
  seek : Option (β → ℤ → ℤ → σ → ℤ × σ)
  readdir : Option (β → ℕ → σ → (ℤ × List Dirent) × σ)
  stat : Option (CStr → σ → ℤ × StatInfo)
  unlink : Option (CStr → σ → ℤ × σ)
  mkdir : Option (CStr → σ → ℤ × σ)
  dirs : readdir.isSome → open.isSome ∧ close.isSome

/-- What open files use of the operations. -/
def VfsOps.fileOps (ops : VfsOps σ β) : Ops σ β where
  «open» := ops.open
  close := ops.close
  read := ops.read
  write := ops.write
  seek := ops.seek
  stat := ops.stat.map fun stat path fs =>
    if (stat path fs).1 = 0 then some (stat path fs).2.size else none

/-- A mounted backend. -/
structure Mount (σ β : Type) where
  mount_pt : CStr
  ops : VfsOps σ β

/-- `g_backends`. -/
abbrev MountTable (σ β : Type) := Fin maxBackends → Option (Mount σ β)

/-- The mount points of the backends. -/
def MountTable.points (g : MountTable σ β) (i : Fin maxBackends) : Option CStr :=
  (g i).map (·.mount_pt)

/-- `vfs_mount`: the first free place is taken, and the mount point is cut to its field. -/
def vfsMount (g : MountTable σ β) (m : Mount σ β) : Option (Fin maxBackends) × MountTable σ β :=
  if m.mount_pt = [] then (none, g)
  else
    match (List.finRange maxBackends).find? fun i => (g i).isNone with
    | none => (none, g)
    | some i =>
      (some i, Function.update g i (some { m with mount_pt := m.mount_pt.take (vfsPathMax - 1) }))

/-- The VFS and the backends that are mounted in it. -/
structure Mounted (σ β : Type) where
  mounts : MountTable σ β
  vfs : State σ β
  backends : vfs.g_backends = fun i => (mounts i).map fun m => ⟨m.mount_pt, m.ops.fileOps⟩

/-- What a call returns: a code, and what it has put into the caller's record or buffer. -/
structure Reply where
  code : ℤ
  info : Option StatInfo := none
  entries : List Dirent := []

/-- The reply of a call that fails. -/
def Reply.error (e : VfsError) : Reply := { code := e.code }

namespace Mounted

/-- The state after an operation of a backend. -/
def setFs (s : Mounted σ β) (fs : σ) : Mounted σ β :=
  { s with vfs := { s.vfs with fs := fs } }

/-- A call of one operation of the backend of a path, with the reply if there is no such backend or
operation. -/
def routed {α : Type} (s : Mounted σ β) (path : CStr) (sel : VfsOps σ β → Option α) (missing : VfsError)
    (act : α → Fin maxBackends → CStr → Reply × Mounted σ β) : Reply × Mounted σ β :=
  match findBackend s.mounts.points path with
  | none => (.error missing, s)
  | some (i, rel_path) =>
    match (s.mounts i).bind fun m => sel m.ops with
    | none => (.error missing, s)
    | some op => act op i rel_path

/-- `vfs_stat` on a path. -/
def statAt (path : CStr) (s : Mounted σ β) : Reply × Mounted σ β :=
  s.routed path (·.stat) .enoent fun stat _ rel_path =>
    let r := stat rel_path s.vfs.fs
    ({ code := r.1, info := some r.2 }, s)

/-- `vfs_unlink` on a path. -/
def unlinkAt (path : CStr) (s : Mounted σ β) : Reply × Mounted σ β :=
  s.routed path (·.unlink) .enodev fun unlink _ rel_path =>
    let r := unlink rel_path s.vfs.fs
    ({ code := r.1 }, s.setFs r.2)

/-- `vfs_mkdir` on a path. -/
def mkdirAt (path : CStr) (s : Mounted σ β) : Reply × Mounted σ β :=
  s.routed path (·.mkdir) .enodev fun mkdir _ rel_path =>
    let r := mkdir rel_path s.vfs.fs
    ({ code := r.1 }, s.setFs r.2)

/-- The flags `VFS_O_READ | VFS_O_DIR`. -/
def dirFlags : ℕ := 0x81

/-- `vfs_readdir`: the directory is opened, read and closed. -/
def vfsReaddir (path : CStr) (cap : ℕ) (s : Mounted σ β) : Reply × Mounted σ β :=
  s.routed path (·.readdir) .enodev fun readdir i rel_path =>
    let ops := (s.mounts i).map (·.ops)
    match (ops.bind (·.open)).map fun op => op rel_path dirFlags s.vfs.fs with
    | none => (.error .enoent, s)
    | some (none, fs) => (.error .enoent, s.setFs fs)
    | some (some dctx, fs) =>
      let r := readdir dctx cap fs
      let fs := match ops.bind (·.close) with
        | some close => close dctx r.2
        | none => r.2
      ({ code := r.1.1, entries := r.1.2 }, s.setFs fs)

end Mounted

/-! ## Opening -/

namespace State

/-! No operation changes the table of backends. -/

theorem installNode_g_backends (s : State σ β) (nid : NodeId) (f : OpenFile β) (rel_path : CStr)
    (flags : ℕ) (caller : Option Pid) :
    (s.installNode nid f rel_path flags caller).2.g_backends = s.g_backends := by
  unfold installNode
  cases caller with
  | none => rfl
  | some p =>
    dsimp only
    generalize freeFds _ p = fds
    cases fds with
    | nil => exact (closeFile_frame _ f).1
    | cons fd _ => rfl

theorem openAt_g_backends (s : State σ β) (path : CStr) (flags : ℕ) (caller : Option Pid) :
    (s.openAt path flags caller).2.g_backends = s.g_backends := by
  unfold openAt
  cases findBackend _ path with
  | none => rfl
  | some route =>
    have hopen := (s.openFile_frame route.1 route.2 (openFlags flags)).1
    dsimp only
    cases hcase : s.openFile route.1 route.2 (openFlags flags) with
    | mk f s' =>
      rw [hcase] at hopen
      cases f with
      | none => exact hopen
      | some f =>
        have halloc := s'.allocNodeId_frame.1
        dsimp only
        cases hnode : s'.allocNodeId with
        | mk nid s'' =>
          rw [hnode] at halloc
          cases nid with
          | none => exact (closeFile_frame s'' f).1.trans (halloc.trans hopen)
          | some nid =>
            exact (installNode_g_backends s'' nid f _ _ caller).trans (halloc.trans hopen)

end State

namespace Mounted

/-- `vfs_open` on a path. -/
def openAt (path : CStr) (flags : ℕ) (caller : Option Pid) (s : Mounted σ β) : Reply × Mounted σ β :=
  let r := s.vfs.openAt path flags caller
  (match r.1 with
    | .ok fd => { code := fd }
    | .error e => .error e,
    { s with
      vfs := r.2
      backends := (s.vfs.openAt_g_backends path flags caller).trans s.backends })

/-- What `vfs_open`, `vfs_stat`, `vfs_unlink` and `vfs_mkdir` do first. -/
def canonicalized (path : CStr) (act : CStr → Mounted σ β → Reply × Mounted σ β) (s : Mounted σ β) :
    Reply × Mounted σ β :=
  match vfsCanonicalize path vfsPathMax with
  | none => (.error .einval, s)
  | some path => act path s

/-- `vfs_open`. -/
def vfsOpen (path : CStr) (flags : ℕ) (caller : Option Pid) (s : Mounted σ β) : Reply × Mounted σ β :=
  if path = [] then (.error .einval, s)
  else s.canonicalized path fun path => openAt path flags caller

/-- `vfs_stat`. -/
def vfsStat (path : CStr) (s : Mounted σ β) : Reply × Mounted σ β := s.canonicalized path statAt

/-- `vfs_unlink`. -/
def vfsUnlink (path : CStr) (s : Mounted σ β) : Reply × Mounted σ β :=
  if path = [] then (.error .einval, s) else s.canonicalized path unlinkAt

/-- `vfs_mkdir`. -/
def vfsMkdir (path : CStr) (s : Mounted σ β) : Reply × Mounted σ β :=
  if path = [] then (.error .einval, s) else s.canonicalized path mkdirAt

end Mounted

/-- A call on a path. -/
inductive PathCall
  | open (flags : ℕ) (caller : Option Pid)
  | stat
  | unlink
  | mkdir
  | readdir (cap : ℕ)

/-- The call. -/
def PathCall.vfs (call : PathCall) (path : CStr) (s : Mounted σ β) : Reply × Mounted σ β :=
  match call with
  | .open flags caller => s.vfsOpen path flags caller
  | .stat => s.vfsStat path
  | .unlink => s.vfsUnlink path
  | .mkdir => s.vfsMkdir path
  | .readdir cap => s.vfsReaddir path cap

end FreeAsd.Vfs
