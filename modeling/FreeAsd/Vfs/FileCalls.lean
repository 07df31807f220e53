import FreeAsd.Arch.UserMemory
import FreeAsd.Vfs.Descriptors

/-!
# Calls on open files

`vfs_read`, `vfs_write` and `vfs_seek` of `kernel/vfs/vfs.c`, and the system calls of `kernel/arch/syscall.c`
above them. The descriptors 0, 1 and 2 are the console unless their place is taken. The result is the number
returned, or nothing if the call waits for a key for ever.
-/

namespace FreeAsd.Vfs

open Ipc (Ringbuf ringbufPush ringbufPop)
open Arch (UserMem validateUserPtr)

/-- The numbers of the error codes. -/
def VfsError.code : VfsError → ℤ
  | .err => -1
  | .enoent => -2
  | .einval => -3
  | .eperm => -4
  | .enospc => -5
  | .enodev => -6
  | .eisdir => -7
  | .enotdir => -8
  | .emfile => -9

/-- `ESYS_FAULT`. -/
def esysFault : ℤ := -14

/-- `ESYS_INVAL`. -/
def esysInval : ℤ := -22

/-- The part of `rest` bytes that goes through a buffer of `size` bytes. -/
def chunkOf (size rest : ℕ) : ℕ := if rest > size then size else rest

/-- More rounds than a loop over a ring can take: an index comes round after `2^64`. -/
def ringFuel : ℕ := 2^64

/-- The loop of `vfs_read` over a ring, for `n` more bytes: what it reads. -/
def ringRead : ℕ → ℕ → Ringbuf → List UInt8 × Ringbuf
  | 0, _, rb => ([], rb)
  | fuel + 1, n, rb =>
    if n = 0 then ([], rb)
    else
      let chunk := chunkOf rb.slot_size n
      match ringbufPop rb (fun _ => 0) chunk with
      | (false, _, _) => ([], rb)
      | (true, buf, rb) =>
        let (rest, rb) := ringRead fuel (n - chunk) rb
        ((List.range chunk).map buf ++ rest, rb)

/-- The loop of `vfs_write` over a ring: how many bytes it has queued. -/
def ringWrite : ℕ → List UInt8 → Ringbuf → ℕ × Ringbuf
  | 0, _, rb => (0, rb)
  | fuel + 1, data, rb =>
    if data = [] then (0, rb)
    else
      let chunk := chunkOf rb.slot_size data.length
      let pushed := ringbufPush rb (fun i => data.getD i 0) chunk
      if pushed.1 then
        let rest := ringWrite fuel (data.drop chunk) pushed.2
        (chunk + rest.1, rest.2)
      else (0, pushed.2)

variable {σ β : Type}

namespace State

/-- Set the offset of a node. -/
def setOffset (s : State σ β) (i : NodeId) (offset : ℕ) : State σ β :=
  s.setNode i { s.g_nodes i with offset := offset }

/-- `vfs_read`: its code, and what it has put into the buffer. -/
def vfsRead (s : State σ β) (cur : Option Pid) (fd n : ℕ) : (ℤ × List UInt8) × State σ β :=
  if fd ≤ 2 then ((VfsError.einval.code, []), s)
  else
    match s.lookup cur fd with
    | none => ((VfsError.einval.code, []), s)
    | some i =>
      match (s.g_nodes i).ring with
      | some a =>
        let (got, rb) := ringRead ringFuel n (s.rings a)
        ((if got.length > 0 then 0 else VfsError.err.code, got),
          { s with rings := Function.update s.rings a rb })
      | none =>
        match (s.g_nodes i).file with
        | none => ((VfsError.eperm.code, []), s)
        | some f =>
          match s.op f.backend (·.read) with
          | none => ((VfsError.eperm.code, []), s)
          | some read =>
            let ((rc, got), fs) := read f.bctx n s.fs
            let s := { s with fs := fs }
            ((rc, got),
              if rc = 0 then s.setOffset i (((s.g_nodes i).offset + got.length) % 2^64) else s)

/-- `vfs_write`, with the `port_send` that it calls for a node of a port. -/
def vfsWrite (portSend : ℕ → List UInt8 → σ → ℤ × σ) (s : State σ β) (cur : Option Pid) (fd : ℕ)
    (data : List UInt8) : ℤ × State σ β :=
  if fd ≤ 2 ∨ data = [] then (VfsError.einval.code, s)
  else
    match s.lookup cur fd with
    | none => (VfsError.einval.code, s)
    | some i =>
      match (s.g_nodes i).ring with
      | some a =>
        let (total, rb) := ringWrite ringFuel data (s.rings a)
        (if total > 0 then 0 else VfsError.err.code, { s with rings := Function.update s.rings a rb })
      | none =>
        if (s.g_nodes i).port_id ≠ 0 then
          let (rc, fs) := portSend (s.g_nodes i).port_id data s.fs
          (rc, { s with fs := fs })
        else
          match (s.g_nodes i).file with
          | none => (VfsError.eperm.code, s)
          | some f =>
            match s.op f.backend (·.write) with
            | none => (VfsError.eperm.code, s)
            | some write =>
              let (rc, fs) := write f.bctx data s.fs
              let s := { s with fs := fs }
              (rc, if rc = 0 then s.setOffset i (((s.g_nodes i).offset + data.length) % 2^64) else s)

/-- The new offset of a node whose backend cannot seek. -/
def seekTarget (n : Node β) (off whence : ℤ) : Except VfsError ℤ :=
  if whence = 0 then .ok off
  else if whence = 1 then .ok ((if n.offset < 2^63 then n.offset else n.offset - 2^64) + off)
  else if whence = 2 then if n.size < 0 then .error .err else .ok (n.size + off)
  else .error .einval

/-- `vfs_seek`. -/
def vfsSeek (s : State σ β) (cur : Option Pid) (fd : ℕ) (off whence : ℤ) : ℤ × State σ β :=
  if fd ≤ 2 then (VfsError.einval.code, s)
  else
    match s.lookup cur fd with
    | none => (VfsError.einval.code, s)
    | some i =>
      match (s.g_nodes i).file.bind fun f =>
          (s.op f.backend (·.seek)).map fun seek => seek f.bctx off whence s.fs with
      | some (rc, fs) =>
        let s := { s with fs := fs }
        (rc, if rc ≥ 0 then s.setOffset i rc.toNat else s)
      | none =>
        match seekTarget (s.g_nodes i) off whence with
        | .error e => (e.code, s)
        | .ok new_off =>
          if new_off < 0 then (VfsError.einval.code, s) else (new_off, s.setOffset i new_off.toNat)

end State

/-! ## System calls -/

/-- The console: for each poll to come the key that `ps2kbd_getc` finds and what the serial line has
received since, the bytes of the line still to be read (`none` is one with an error), and what is on the
screen. -/
structure Console where
  polls : List (Option UInt8 × List (Option UInt8))
  rx : List (Option UInt8)
  screen : List UInt8

/-- The VFS, the memory of a process, and the console. -/
structure Machine (σ β : Type) where
  vfs : State σ β
  user : UserMem
  console : Console

/-- `console_drain_rx`. -/
def Console.drainRx (c : Console) : Console := { c with rx := c.rx.drop 4096 }

/-- `console_serial_getc_nb`: a byte with an error and a zero are read and not returned. -/
def serialGetcNb : List (Option UInt8) → Option UInt8 × List (Option UInt8)
  | [] => (none, [])
  | b :: rx => (b.filter (· ≠ 0), rx)

/-- `console_getc_nb`: the keyboard before the serial line. -/
def consoleGetcNb (key : Option UInt8) (rx : List (Option UInt8)) :
    Option UInt8 × List (Option UInt8) :=
  match key with
  | some c => (some c, rx)
  | none => serialGetcNb rx

/-- The size of the kernel's buffer. -/
abbrev kbufSize : ℕ := 4096

/-- The size of the buffer for the console. -/
abbrev consoleBufSize : ℕ := 256

/-- The loop of `sys_read` over the console, with its polls and the bytes of the serial line. -/
def consoleRead (buf n : ℕ) (screen : List UInt8) : List (Option UInt8 × List (Option UInt8)) →
    List (Option UInt8) → ℕ → UserMem → Option (ℤ × UserMem × Console)
  | polls, rx, got, user =>
    if got < n then
      match polls with
      | [] => none
      | (key, received) :: polls =>
        match consoleGetcNb key (rx ++ received) with
        | (some c, rx) =>
          match user.copyToUser (buf + got) [c] with
          | (false, user) => some (esysFault, user, ⟨polls, rx, screen⟩)
          | (true, user) =>
            if n = 1 then some (got + 1, user, ⟨polls, rx, screen⟩)
            else consoleRead buf n screen polls rx (got + 1) user
        | (none, rx) =>
          if got > 0 then some (got, user, ⟨polls, rx, screen⟩)
          else consoleRead buf n screen polls rx got user
    else some (got, user, ⟨polls, rx, screen⟩)

/-- `console_putc` of each byte. -/
def Console.print (c : Console) (data : List UInt8) : Console := { c with screen := c.screen ++ data }

/-- The part of `sys_write` for the console, after `total` of `n` bytes. -/
def consoleWrite (user : UserMem) (buf n : ℕ) : ℕ → ℕ → Console → ℤ × Console
  | 0, _, console => (n, console.drainRx)
  | fuel + 1, total, console =>
    if total < n then
      let chunk := chunkOf consoleBufSize (n - total)
      match user.copyFromUser (buf + total) chunk with
      | none => (esysFault, console)
      | some data => consoleWrite user buf n fuel (total + chunk) (console.print data)
    else (n, console.drainRx)

namespace Machine

/-- The loop of `sys_read` over a file. A round that goes on reads a byte at least. -/
def readLoop (p : Pid) (fd buf n : ℕ) : ℕ → ℕ → Machine σ β → ℤ × Machine σ β
  | 0, total, m => (total, m)
  | fuel + 1, total, m =>
    if total < n then
      let chunk := chunkOf kbufSize (n - total)
      let ((r, got), vfs) := m.vfs.vfsRead (some p) fd chunk
      let m := { m with vfs := vfs }
      if r < 0 then (if total = 0 then r else total, m)
      else if got.length = 0 then (total, m)
      else
        match m.user.copyToUser (buf + total) got with
        | (false, user) => (esysFault, { m with user := user })
        | (true, user) => readLoop p fd buf n fuel (total + got.length) { m with user := user }
    else (total, m)

/-- The loop of `sys_write` over a file. -/
def writeLoop (portSend : ℕ → List UInt8 → σ → ℤ × σ) (p : Pid) (fd buf n : ℕ) :
    ℕ → ℕ → Machine σ β → ℤ × Machine σ β
  | 0, total, m => (total, m)
  | fuel + 1, total, m =>
    if total < n then
      let chunk := chunkOf kbufSize (n - total)
      match m.user.copyFromUser (buf + total) chunk with
      | none => (esysFault, m)
      | some data =>
        let (r, vfs) := m.vfs.vfsWrite portSend (some p) fd data
        let m := { m with vfs := vfs }
        if r < 0 then (if total = 0 then r else total, m)
        else writeLoop portSend p fd buf n fuel (total + chunk) m
    else (total, m)

/-- `sys_read` of the process `p`. -/
def sysRead (p : Pid) (fd buf n : ℕ) (m : Machine σ β) : Option ℤ × Machine σ β :=
  if n = 0 then (some 0, m)
  else if !validateUserPtr buf n then (some esysFault, m)
  else if fd = 0 ∧ m.vfs.fd_table p 0 = none then
    match consoleRead buf n m.console.screen m.console.polls m.console.rx 0 m.user with
    | none => (none, m)
    | some (r, user, console) => (some r, { m with user := user, console := console })
  else
    let (r, m) := readLoop p (fd % 2^32) buf n n 0 m
    (some r, m)

/-- `sys_write` of the process `p`. -/
def sysWrite (portSend : ℕ → List UInt8 → σ → ℤ × σ) (p : Pid) (fd buf n : ℕ) (m : Machine σ β) :
    ℤ × Machine σ β :=
  if n = 0 then (0, m)
  else if !validateUserPtr buf n then (esysFault, m)
  else if (fd = 1 ∧ m.vfs.fd_table p 1 = none) ∨ (fd = 2 ∧ m.vfs.fd_table p 2 = none) then
    let (r, console) := consoleWrite m.user buf n n 0 m.console
    (r, { m with console := console })
  else if fd = 0 then (esysInval, m)
  else writeLoop portSend p (fd % 2^32) buf n n 0 m

/-- `sys_seek` of the process `p`. -/
def sysSeek (p : Pid) (fd : ℕ) (off whence : ℤ) (m : Machine σ β) : ℤ × Machine σ β :=
  let (r, vfs) := m.vfs.vfsSeek (some p) (fd % 2^32) off whence
  (r, { m with vfs := vfs })

/-- `sys_close` of the process `p`. -/
def sysClose (p : Pid) (fd : ℕ) (m : Machine σ β) : ℤ × Machine σ β :=
  match m.vfs.vfsClose (some p) (fd % 2^32) with
  | (.ok _, vfs) => (0, { m with vfs := vfs })
  | (.error e, vfs) => (e.code, { m with vfs := vfs })

end Machine

/-- A system call on a descriptor. -/
inductive FdCall
  | read (fd buf n : ℕ)
  | write (fd buf n : ℕ)
  | seek (fd : ℕ) (off whence : ℤ)
  | close (fd : ℕ)

/-- The descriptor of a call. -/
def FdCall.fd : FdCall → ℕ
  | read fd _ _ | write fd _ _ | seek fd _ _ | close fd => fd

/-- The system call of the process `p`. -/
def Machine.syscall (portSend : ℕ → List UInt8 → σ → ℤ × σ) (p : Pid) (c : FdCall)
    (m : Machine σ β) : Option ℤ × Machine σ β :=
  match c with
  | .read fd buf n => m.sysRead p fd buf n
  | .write fd buf n => ((m.sysWrite portSend p fd buf n).1, (m.sysWrite portSend p fd buf n).2)
  | .seek fd off whence => ((m.sysSeek p fd off whence).1, (m.sysSeek p fd off whence).2)
  | .close fd => ((m.sysClose p fd).1, (m.sysClose p fd).2)

end FreeAsd.Vfs
