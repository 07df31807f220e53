import FreeAsd.Vfs.Descriptors

/-!
# Redirections of the two shells

`exec_line` of `userland/sh/sh.c` and `try_exec` of `init/shell.c`, which save places 0 and 1 in 10 and 11 and
put them back in different ways. What else happens is given (`Surroundings`); none of it changes the shell's
table, since every call of the VFS is for the table of the process that makes it. How names are made into
paths is given as well.
-/

namespace FreeAsd.Shell

open Vfs
open Ipc (Ringbuf)

/-- What is around a shell that is the process `p`, by the number of the call that it makes next. -/
structure Surroundings (σ β : Type) (p : Pid) where
  act : ℕ → State σ β → State σ β
  keeps : ∀ n s, (act n s).fd_table p = s.fd_table p
  macho_spawn : ℕ → CStr → List CStr → State σ β → ℕ
  vfs_stat : ℕ → CStr → State σ β → Bool
  kmalloc : ℕ → State σ β → Option (ℕ × Ringbuf)

/-- The state of a run: how many calls the shell has made, and the VFS. -/
structure Run (σ β : Type) where
  clock : ℕ
  vfs : State σ β

variable {σ β : Type} {p : Pid}

namespace Run

variable (o : Surroundings σ β p)

/-- A call, after whatever happened since the last one. -/
def call {α : Type} (r : Run σ β) (f : State σ β → α × State σ β) : α × Run σ β :=
  let res := f (o.act r.clock r.vfs)
  (res.1, ⟨r.clock + 1, res.2⟩)

/-- `vfs_open`, for the shell or for the kernel. Errors are negative numbers. -/
def «open» (r : Run σ β) (path : CStr) (flags : ℕ) (caller : Option Pid) : Option ℕ × Run σ β :=
  r.call o fun s => ((s.vfsOpen path flags caller).1.toOption, (s.vfsOpen path flags caller).2)

/-- `vfs_close`. -/
def close (r : Run σ β) (fd : ℕ) : Run σ β := (r.call o fun s => s.vfsClose (some p) fd).2

/-- `vfs_dup2`. -/
def dup2 (r : Run σ β) (oldfd newfd : ℕ) : Run σ β := (r.call o fun s => s.vfsDup2 (some p) oldfd newfd).2

/-- `vfs_pipe`. -/
def pipe (r : Run σ β) : Option (Fd × Fd) × Run σ β :=
  r.call o fun s =>
    ((s.vfsPipe (some p) (o.kmalloc r.clock s)).1.toOption, (s.vfsPipe (some p) (o.kmalloc r.clock s)).2)

/-- `macho_spawn`: the number of the child, or 0. -/
def spawn (r : Run σ β) (path : CStr) (argv : List CStr) : ℕ × Run σ β :=
  r.call o fun s => (o.macho_spawn r.clock path argv s, s)

/-- `vfs_stat`: whether there is such a file. -/
def stat (r : Run σ β) (path : CStr) : Bool × Run σ β := r.call o fun s => (o.vfs_stat r.clock path s, s)

/-- `sched_reap`. -/
def wait (r : Run σ β) : Run σ β := (r.call o fun s => ((), s)).2

end Run

/-! ## Command lines -/

/-- The commands on both sides of the first `|`. -/
def splitPipe (line : CStr) : Option (CStr × CStr) :=
  if 124 ∈ line then some (line.takeWhile (· ≠ 124), (line.dropWhile (· ≠ 124)).tail) else none

/-- A redirection, with the name of the file. -/
inductive Redirect
  | input (name : CStr)
  | output (name : CStr)
  | append (name : CStr)
deriving DecidableEq

/-- The command before the first operator, and the redirection. The first argument bounds the command. -/
def splitRedirect : ℕ → CStr → CStr × Option Redirect
  | 0, _ => ([], none)
  | _, [] => ([], none)
  | k + 1, c :: s =>
    if c = 62 ∧ s.head? = some 62 then ([], some (.append (s.tail.dropWhile (· = 32))))
    else if c = 62 then ([], some (.output (s.dropWhile (· = 32))))
    else if c = 60 then ([], some (.input (s.dropWhile (· = 32))))
    else (c :: (splitRedirect k s).1, (splitRedirect k s).2)

/-- The words of a command, as many as there is room for. -/
def words (buf : CStr) : List CStr := ((buf.splitOn 32).filter (· ≠ [])).take 31

/-- The path of a program. -/
def binPath (name : CStr) : CStr :=
  if name.head? = some 47 then name.take 255 else (cstr "/bin/" ++ name).take 255

/-! ## The shell of the user -/

namespace Asdsh

variable (o : Surroundings σ β p)

/-- A place is saved and gets a descriptor, if there is one. -/
def redirect (fd : Option ℕ) (target save : ℕ) (r : Run σ β) : Run σ β :=
  match fd with
  | none => r
  | some fd => (r.dup2 o target save).dup2 o fd target

/-- The place gets back what was saved. -/
def restore (fd : Option ℕ) (target save : ℕ) (r : Run σ β) : Run σ β :=
  match fd with
  | none => r
  | some _ => (r.dup2 o save target).close o save

/-- `spawn_cmd_str`. -/
def spawnCmdStr (cmd : CStr) (in_fd out_fd : Option ℕ) (r : Run σ β) : ℤ × Run σ β :=
  let cmd := cmd.dropWhile (· = 32)
  if cmd = [] then (-1, r)
  else
    let argv := words (cmd.take 511)
    let path := binPath (argv.headD [])
    let r := redirect o in_fd 0 10 r
    let r := redirect o out_fd 1 11 r
    let res := r.spawn o path (path :: argv.tail)
    let r := restore o in_fd 0 10 res.2
    let r := restore o out_fd 1 11 r
    (if res.1 = 0 then -1 else res.1, r)

/-- What a command of `g_cmds` does: it runs a program, with or without the argument, it works with
nothing that is open, or it ends the shell. -/
inductive Builtin
  | external (cmd : CStr) (takesArg : Bool)
  | inside
  | exit
deriving DecidableEq

/-- `g_cmds`, with the other names of commands. -/
def gCmds : List (CStr × Builtin) :=
  [(cstr "ls", .external (cstr "ls") true), (cstr "dir", .external (cstr "ls") true),
    (cstr "cd", .inside), (cstr "pwd", .inside), (cstr "cat", .external (cstr "cat") true),
    (cstr "mkdir", .external (cstr "mkdir") true), (cstr "rm", .external (cstr "rm") true),
    (cstr "touch", .external (cstr "touch") true), (cstr "stat", .inside),
    (cstr "echo", .external (cstr "echo") true), (cstr "uname", .external (cstr "uname") true),
    (cstr "uptime", .external (cstr "uptime") true), (cstr "id", .external (cstr "id") true),
    (cstr "whoami", .external (cstr "whoami") true), (cstr "wc", .external (cstr "wc") true),
    (cstr "hexdump", .external (cstr "hexdump") true), (cstr "xxd", .external (cstr "hexdump") true),
    (cstr "kill", .external (cstr "kill") true), (cstr "fastfetch", .external (cstr "fastfetch") false),
    (cstr "fetch", .external (cstr "fastfetch") false), (cstr "help", .inside), (cstr "exit", .exit),
    (cstr "quit", .exit)]

/-- The search of `try_builtin`. -/
def findBuiltin (cmd_name : CStr) : Option Builtin :=
  (gCmds.find? fun c => c.1 = cmd_name).map Prod.snd

/-- `run_external`. -/
def runExternal (cmd : CStr) (arg : Option CStr) (r : Run σ β) : Run σ β :=
  let res := r.spawn o ((cstr "/bin/" ++ cmd).take 255) (cmd :: arg.toList)
  if res.1 = 0 then res.2 else res.2.wait o

/-- The name of a command, and its argument. -/
def nameAndArg (cmd_part : CStr) : CStr × Option CStr :=
  let cmd := cmd_part.dropWhile (· = 32)
  let arg := (cmd.dropWhile (· ≠ 32)).dropWhile (· = 32)
  (cmd.takeWhile (· ≠ 32), if arg = [] then none else some arg)

/-- The rest of `exec_line` for a command without a pipe: it is run, unless it ends the shell. The name is
cut off from the argument before the command is spawned. -/
def runCommand (g_cwd cmd_part : CStr) (in_fd out_fd : Option ℕ) (r : Run σ β) : Option (Run σ β) :=
  let cmd := nameAndArg cmd_part
  let arg := if cmd.2 = none ∧ cmd.1 = cstr "ls" then some g_cwd else cmd.2
  match findBuiltin cmd.1 with
  | some .exit => none
  | some .inside => some r
  | some (.external prog takesArg) => some (runExternal o prog (if takesArg then arg else none) r)
  | none =>
    let res := spawnCmdStr o cmd.1 in_fd out_fd r
    some (if res.1 < 0 then res.2 else res.2.wait o)

/-- A descriptor that was opened is closed. -/
def closeOpened (fd : Option ℕ) (r : Run σ β) : Run σ β :=
  match fd with
  | none => r
  | some fd => r.close o fd

/-- The file of a redirection is opened, for input or for output. -/
def openRedirect (resolve : CStr → CStr) (redirect : Option Redirect) (r : Run σ β) :
    (Option ℕ × Option ℕ) × Run σ β :=
  match redirect with
  | none => ((none, none), r)
  | some (.input name) =>
    let res := r.open o (resolve name) 0x01 (some p)
    ((res.1, none), res.2)
  | some (.output name) =>
    let res := r.open o (resolve name) 0x32 (some p)
    ((none, res.1), res.2)
  | some (.append name) =>
    let res := r.open o (resolve name) 0x52 (some p)
    ((none, res.1), res.2)

/-- `exec_line`. There is no result if the shell exits. -/
def execLine (g_cwd : CStr) (resolve : CStr → CStr) (line : CStr) (r : Run σ β) : Option (Run σ β) :=
  match splitPipe line with
  | some (cmd1, cmd2) =>
    match r.pipe o with
    | (none, r) => some r
    | (some (rfd, wfd), r) =>
      let res1 := spawnCmdStr o cmd1 none (some wfd.val) r
      let res2 := spawnCmdStr o cmd2 (some rfd.val) none (res1.2.close o wfd.val)
      let r := res2.2.close o rfd.val
      let r := if 0 < res1.1 then r.wait o else r
      some (if 0 < res2.1 then r.wait o else r)
  | none =>
    let parsed := splitRedirect 511 line
    let opened := openRedirect o resolve parsed.2 r
    match runCommand o g_cwd parsed.1 opened.1.1 opened.1.2 opened.2 with
    | none => none
    | some r => some (closeOpened o opened.1.2 (closeOpened o opened.1.1 r))

end Asdsh

/-! ## The shell of the kernel -/

namespace KernelShell

variable (o : Surroundings σ β p)

/-- A place is saved if there is something in it, and gets a descriptor, if there is one. -/
def redirect (fd : Option ℕ) (target : Fd) (save : ℕ) (r : Run σ β) : Bool × Run σ β :=
  match fd with
  | none => (false, r)
  | some fd =>
    if (r.vfs.fd_table p target).isSome then (true, (r.dup2 o target.val save).dup2 o fd target.val)
    else (false, r.dup2 o fd target.val)

/-- The place is closed, and gets back what was saved. -/
def restore (fd : Option ℕ) (saved : Bool) (target save : ℕ) (r : Run σ β) : Run σ β :=
  match fd with
  | none => r
  | some _ =>
    let r := r.close o target
    if saved then (r.dup2 o save target).close o save else r

/-- `spawn_cmd`. -/
def spawnCmd (cmd : CStr) (in_fd out_fd : Option ℕ) (r : Run σ β) : ℕ × Run σ β :=
  let cmd := cmd.dropWhile (· = 32)
  if cmd = [] then (0, r)
  else
    let argv := words (cmd.take 511)
    let binpath := binPath (argv.headD [])
    let found := r.stat o binpath
    if !found.1 then (0, found.2)
    else
      let saved_in := redirect o in_fd 0 10 found.2
      let saved_out := redirect o out_fd 1 11 saved_in.2
      let res := saved_out.2.spawn o binpath (binpath :: argv.tail)
      let r := restore o in_fd saved_in.1 0 10 res.2
      let r := restore o out_fd saved_out.1 1 11 r
      (res.1, r)

/-- The file of a redirection is opened, for input or for output, by the kernel. -/
def openRedirect (resolve_path : CStr → CStr) (redirect : Option Redirect) (r : Run σ β) :
    (Option ℕ × Option ℕ) × Run σ β :=
  match redirect with
  | none => ((none, none), r)
  | some (.input name) =>
    let res := r.open o (resolve_path name) 0x01 none
    ((res.1, none), res.2)
  | some (.output name) =>
    let res := r.open o (resolve_path name) 0x32 none
    ((none, res.1), res.2)
  | some (.append name) =>
    let res := r.open o (resolve_path name) 0x52 none
    ((none, res.1), res.2)

/-- `try_exec`. -/
def tryExec (resolve_path : CStr → CStr) (cmd : CStr) (r : Run σ β) : Run σ β :=
  let line := cmd.take 511
  match splitPipe line with
  | some (cmd1, cmd2) =>
    match r.pipe o with
    | (none, r) => r
    | (some (rfd, wfd), r) =>
      let res1 := spawnCmd o cmd1 none (some wfd.val) r
      let r := res1.2.close o wfd.val
      if res1.1 ≠ 0 then
        let res2 := spawnCmd o cmd2 (some rfd.val) none r
        let r := res2.2.close o rfd.val
        if res2.1 ≠ 0 then (r.wait o).wait o else r.wait o
      else r.close o rfd.val
  | none =>
    let parsed := splitRedirect line.length line
    let opened := openRedirect o resolve_path parsed.2 r
    let res := spawnCmd o parsed.1 opened.1.1 opened.1.2 opened.2
    let r := Asdsh.closeOpened o opened.1.1 res.2
    let r := Asdsh.closeOpened o opened.1.2 r
    if res.1 ≠ 0 then r.wait o else r

end KernelShell

end FreeAsd.Shell
