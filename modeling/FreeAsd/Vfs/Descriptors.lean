import FreeAsd.Ipc.Ringbuf
import FreeAsd.Lib.RefCount
import FreeAsd.Sched.Process
import FreeAsd.Vfs.Path

/-!
# File descriptors

The calls of `kernel/vfs/vfs.c` that make, share and drop references to open files. Backends are arbitrary: they
act on the state `fs` behind the VFS, and any operation may be missing. Each successful `open` has a number, and
`closed` has those closed since. `live` are the processes, and `pseudo` the nodes that the kernel has open.
-/

namespace FreeAsd.Vfs

open Ipc (Ringbuf ringbufInit)
open Sched (maxProcs)

/-- `MAX_FDS`. -/
abbrev maxFds : ℕ := 256

instance : NeZero maxFds := ⟨by decide⟩

/-- `MAX_VFSNODES`. -/
abbrev maxVfsNodes : ℕ := 1024

instance : NeZero maxVfsNodes := ⟨by decide⟩

/-- A process, by its place in the process table. -/
abbrev Pid := Fin maxProcs

/-- A place in a descriptor table. -/
abbrev Fd := Fin maxFds

/-- A pointer into `g_nodes`. -/
abbrev NodeId := Fin maxVfsNodes

/-- The error codes of the VFS. -/
inductive VfsError
  | err | enoent | einval | eperm | enospc | enodev | eisdir | enotdir | emfile
deriving DecidableEq

/-- `vfs_ops_t`, as far as open files go. `read` returns a code and the bytes that it has put into the
buffer, and `stat` the size. -/
structure Ops (σ β : Type) where
  «open» : Option (CStr → ℕ → σ → Option β × σ)
  close : Option (β → σ → σ)
  read : Option (β → ℕ → σ → (ℤ × List UInt8) × σ)
  write : Option (β → List UInt8 → σ → ℤ × σ)
  seek : Option (β → ℤ → ℤ → σ → ℤ × σ)
  stat : Option (CStr → σ → Option ℤ)

/-- `vfs_backend_t`. -/
structure Backend (σ β : Type) where
  mount_pt : CStr
  ops : Ops σ β

/-- A backend, its context for an open file, and the number of that `open`. -/
structure OpenFile (β : Type) where
  backend : Fin maxBackends
  bctx : β
  handle : ℕ

/-- `vfsnode_t`. The backend and its context are set together. -/
structure Node (β : Type) where
  node_id : ℕ
  refcount : ℕ
  flags : ℕ
  offset : ℕ
  size : ℤ
  file : Option (OpenFile β)
  ring : Option ℕ
  port_id : ℕ

/-- A node after `memset`. -/
def Node.zero {β : Type} : Node β := ⟨0, 0, 0, 0, 0, none, none, 0⟩

/-- The state of the VFS, and of what it uses. -/
structure State (σ β : Type) where
  g_nodes : NodeId → Node β
  g_next_node_id : ℕ
  g_backends : Fin maxBackends → Option (Backend σ β)
  fd_table : Pid → Fd → Option NodeId
  rings : ℕ → Ringbuf
  fs : σ
  live : Finset Pid
  pseudo : Finset NodeId
  opened : List (Fin maxBackends)
  closed : List ℕ

variable {σ β : Type}

namespace State

/-- Write a node. -/
def setNode (s : State σ β) (i : NodeId) (n : Node β) : State σ β :=
  { s with g_nodes := Function.update s.g_nodes i n }

/-- Write a place of a descriptor table. -/
def setFd (s : State σ β) (p : Pid) (fd : Fd) (v : Option NodeId) : State σ β :=
  { s with fd_table := Function.update s.fd_table p (Function.update (s.fd_table p) fd v) }

/-- An operation of a backend. -/
def op {α : Type} (s : State σ β) (i : Fin maxBackends) (sel : Ops σ β → Option α) : Option α :=
  (s.g_backends i).bind fun b => sel b.ops

/-- The search of `alloc_node_id`: the first free node from `id` on. The first node is never used. -/
def findFree (s : State σ β) (id : ℕ) : Option NodeId :=
  ((List.range maxVfsNodes).map fun i => Fin.ofNat maxVfsNodes (id + i)).find? fun c =>
    c ≠ 0 ∧ (s.g_nodes c).node_id = 0

/-- Where `alloc_node_id` starts the next time. -/
def nextNodeId (c : NodeId) : ℕ :=
  if (c.val + 1) % maxVfsNodes = 0 then 1 else (c.val + 1) % maxVfsNodes

/-- `alloc_node_id`. The node is not marked. -/
def allocNodeId (s : State σ β) : Option NodeId × State σ β :=
  match s.findFree s.g_next_node_id with
  | some c => (some c, { s with g_next_node_id := nextNodeId c })
  | none => (none, s)

/-- The call of a backend's `close`, if it has one. -/
def closeFile (s : State σ β) (f : OpenFile β) : State σ β :=
  match s.op f.backend (·.close) with
  | some close => { s with fs := close f.bctx s.fs, closed := s.closed ++ [f.handle] }
  | none => s

/-- One reference less, and the end of the node if it was the last: the end of `vfs_close` and the body
of the loops in `vfs_close_all` and `vfs_dup2`. -/
def unref (s : State σ β) (i : NodeId) : State σ β :=
  let n := { s.g_nodes i with refcount := ((s.g_nodes i).refcount + 2^32 - 1) % 2^32 }
  let s := s.setNode i n
  if n.refcount = 0 then
    let s := match n.file with
      | some f => s.closeFile f
      | none => s
    s.setNode i { s.g_nodes i with node_id := 0 }
  else s

/-- One reference more. -/
def ref (s : State σ β) (i : NodeId) : State σ β :=
  s.setNode i { s.g_nodes i with refcount := ((s.g_nodes i).refcount + 1) % 2^32 }

/-- The free places of a descriptor table from 3 on. -/
def freeFds (s : State σ β) (p : Pid) : List Fd :=
  (List.finRange maxFds).filter fun fd => 3 ≤ fd.val ∧ s.fd_table p fd = none

/-! ## The calls -/

/-- The `open` of a backend, with its number. -/
def openFile (s : State σ β) (i : Fin maxBackends) (path : CStr) (flags : ℕ) :
    Option (OpenFile β) × State σ β :=
  match s.op i (·.open) with
  | none => (none, s)
  | some op =>
    match op path flags s.fs with
    | (none, fs) => (none, { s with fs := fs })
    | (some b, fs) =>
      (some ⟨i, b, s.opened.length⟩, { s with fs := fs, opened := s.opened ++ [i] })

/-! Neither the files of a backend nor the search for a node change the backends and the tables. -/

theorem closeFile_frame (s : State σ β) (f : OpenFile β) :
    (s.closeFile f).g_backends = s.g_backends ∧ (s.closeFile f).fd_table = s.fd_table := by
  unfold closeFile
  split <;> exact ⟨rfl, rfl⟩

theorem openFile_frame (s : State σ β) (i : Fin maxBackends) (path : CStr) (flags : ℕ) :
    (s.openFile i path flags).2.g_backends = s.g_backends ∧
      (s.openFile i path flags).2.fd_table = s.fd_table := by
  unfold openFile
  split
  · exact ⟨rfl, rfl⟩
  · split <;> exact ⟨rfl, rfl⟩

theorem allocNodeId_frame (s : State σ β) :
    s.allocNodeId.2.g_backends = s.g_backends ∧ s.allocNodeId.2.fd_table = s.fd_table := by
  unfold allocNodeId
  split <;> exact ⟨rfl, rfl⟩

/-- The size of a file, or `-1`. -/
def statSize (s : State σ β) (i : Fin maxBackends) (path : CStr) : ℤ :=
  match s.op i (·.stat) with
  | none => -1
  | some stat => (stat path s.fs).getD (-1)

/-- `vfs_open` from the new node on: the node is filled and installed. Without a process it is the
kernel that opens the file, and its descriptor is the node's number after the places of a table. -/
def installNode (s : State σ β) (nid : NodeId) (f : OpenFile β) (rel_path : CStr) (flags : ℕ)
    (caller : Option Pid) : Except VfsError ℕ × State σ β :=
  let size := s.statSize f.backend rel_path
  let s := s.setNode nid ⟨nid.val, 1, flags % 2^32, 0, size, some f, none, 0⟩
  match caller with
  | some p =>
    match s.freeFds p with
    | fd :: _ => (.ok fd.val, s.setFd p fd (some nid))
    | [] =>
      let s := s.setNode nid { s.g_nodes nid with node_id := 0 }
      (.error .emfile, s.closeFile f)
  | none => (.ok (nid.val + maxFds), { s with pseudo := insert nid s.pseudo })

/-- `VFS_O_READ` if neither it nor `VFS_O_WRITE` is set. -/
def openFlags (flags : ℕ) : ℕ := if flags &&& 3 = 0 then flags ||| 1 else flags

/-- `vfs_open` on a canonical path. -/
def openAt (s : State σ β) (path : CStr) (flags : ℕ) (caller : Option Pid) :
    Except VfsError ℕ × State σ β :=
  let flags := openFlags flags
  match findBackend (fun i => (s.g_backends i).map (·.mount_pt)) path with
  | none => (.error .enoent, s)
  | some (i, rel_path) =>
    match s.openFile i rel_path flags with
    | (none, s) => (.error .enoent, s)
    | (some f, s) =>
      match s.allocNodeId with
      | (none, s) => (.error .emfile, s.closeFile f)
      | (some nid, s) => s.installNode nid f rel_path flags caller

/-- `vfs_open`. -/
def vfsOpen (s : State σ β) (path : CStr) (flags : ℕ) (caller : Option Pid) :
    Except VfsError ℕ × State σ β :=
  if path = [] then (.error .einval, s)
  else
    match vfsCanonicalize path vfsPathMax with
    | none => (.error .einval, s)
    | some path => s.openAt path flags caller

/-- The node of a descriptor, as `vfs_close`, `vfs_read`, `vfs_write` and `vfs_seek` look it up. Beyond
the places of a table it is taken for a descriptor of the kernel. -/
def lookup (s : State σ β) (cur : Option Pid) (fd : ℕ) : Option NodeId :=
  if h : fd < maxFds then
    match cur with
    | none => none
    | some p => s.fd_table p ⟨fd, h⟩
  else if h : fd - maxFds < maxVfsNodes then
    let nid : NodeId := ⟨fd - maxFds, h⟩
    if (s.g_nodes nid).node_id ≠ nid.val then none else some nid
  else none

/-- `vfs_close`. The descriptor of the kernel is gone with the call. -/
def vfsClose (s : State σ β) (cur : Option Pid) (fd : ℕ) : Except VfsError Unit × State σ β :=
  if fd ≤ 2 then (.ok (), s)
  else
    match s.lookup cur fd with
    | none => (.error .einval, s)
    | some i =>
      let s :=
        if h : fd < maxFds then
          match cur with
          | none => s
          | some p => s.setFd p ⟨fd, h⟩ none
        else { s with pseudo := s.pseudo.erase i }
      (.ok (), s.unref i)

/-- One place in `vfs_close_all`. -/
def closeSlot (p : Pid) (s : State σ β) (fd : Fd) : State σ β :=
  match s.fd_table p fd with
  | none => s
  | some i => (s.setFd p fd none).unref i

/-- `vfs_close_all`. -/
def vfsCloseAll (s : State σ β) (p : Pid) : State σ β :=
  ((List.finRange maxFds).filter fun fd => 3 ≤ fd.val).foldl (closeSlot p) s

/-- One place in `vfs_fd_inherit`. -/
def inheritSlot (child parent : Pid) (s : State σ β) (fd : Fd) : State σ β :=
  match s.fd_table parent fd with
  | none => s
  | some i => (s.setFd child fd (some i)).ref i

/-- `vfs_fd_inherit`. -/
def vfsFdInherit (s : State σ β) (child parent : Pid) : State σ β :=
  (List.finRange maxFds).foldl (inheritSlot child parent) s

/-- An end of a pipe: a node for the ring at an address. -/
def pipeEnd (nid : NodeId) (flags ring : ℕ) : Node β :=
  ⟨nid.val, 1, flags, 0, -1, none, some ring, 0⟩

/-- `vfs_pipe`, with what `kmalloc` returns: an address, and what the memory there holds. The result of
`ringbuf_init` is ignored. -/
def vfsPipe (s : State σ β) (cur : Option Pid) (mem : Option (ℕ × Ringbuf)) :
    Except VfsError (Fd × Fd) × State σ β :=
  match cur with
  | none => (.error .err, s)
  | some p =>
    match mem with
    | none => (.error .enospc, s)
    | some (rb, contents) =>
      let s := { s with rings := Function.update s.rings rb ((ringbufInit 1 4096).getD contents) }
      match s.allocNodeId with
      | (none, s) => (.error .enospc, s)
      | (some rid, s) =>
        match s.allocNodeId with
        | (none, s) => (.error .enospc, s)
        | (some wid, s) =>
          let s := (s.setNode rid (pipeEnd rid 1 rb)).setNode wid (pipeEnd wid 2 rb)
          match s.freeFds p with
          | rfd :: wfd :: _ => (.ok (rfd, wfd), (s.setFd p rfd (some rid)).setFd p wfd (some wid))
          | _ =>
            let s := s.setNode rid { s.g_nodes rid with node_id := 0 }
            (.error .emfile, s.setNode wid { s.g_nodes wid with node_id := 0 })

/-- `vfs_dup2`. -/
def vfsDup2 (s : State σ β) (cur : Option Pid) (oldfd newfd : ℕ) : Except VfsError Fd × State σ β :=
  if hnew : newfd < maxFds then
    match cur with
    | none => (.error .err, s)
    | some p =>
      match if h : oldfd < maxFds then s.fd_table p ⟨oldfd, h⟩ else none with
      | none => (.error .einval, s)
      | some i =>
        let new : Fd := ⟨newfd, hnew⟩
        let s := closeSlot p s new
        (.ok new, (s.setFd p new (some i)).ref i)
  else (.error .einval, s)

end State

end FreeAsd.Vfs
