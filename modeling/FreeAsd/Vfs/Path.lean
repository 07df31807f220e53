import FreeAsd.Lib.Bytes
import Mathlib.Data.List.Basic

/-!
# Paths

`vfs_canonicalize` and `find_backend` of `kernel/vfs/vfs.c`: what path a call names, and which mounted
backend it goes to with which path.
-/

namespace FreeAsd.Vfs

/-- `VFS_PATH_MAX`. -/
abbrev vfsPathMax : ℕ := 256

/-- `MAX_BACKENDS`. -/
abbrev maxBackends : ℕ := 16

instance : NeZero maxBackends := ⟨by decide⟩

/-- The separator. -/
def slash : UInt8 := 47

/-- The dot. -/
def dot : UInt8 := 46

/-- One component of a path, and the stack of those before it. -/
def canonicalizeStep (stk : List CStr) (seg : CStr) : Option (List CStr) :=
  if seg = [] ∨ seg = [dot] then some stk
  else if seg = [dot, dot] then some stk.dropLast
  else if stk.length ≥ vfsPathMax / 2 - 1 then none
  else some (stk ++ [seg])

/-- The reconstruction from the stack. Components are not empty, so that `out` is longer than the
first separator from the second one on. -/
def joinComponents (out_sz : ℕ) (out : CStr) : List CStr → Option CStr
  | [] => some out
  | seg :: rest =>
    if out.length + seg.length + 2 > out_sz then none
    else joinComponents out_sz (out ++ (if out.length > 1 then [slash] else []) ++ seg) rest

/-- `vfs_canonicalize`. -/
def vfsCanonicalize (path : CStr) (out_sz : ℕ) : Option CStr := do
  if path.length ≥ vfsPathMax then failure
  let stk ← (path.splitOn slash).foldlM canonicalizeStep []
  joinComponents out_sz [slash] stk

example : vfsCanonicalize (cstr "/boot//./x/../../etc/passwd") 256 = some (cstr "/etc/passwd") := by
  decide

/-- The test of one mount point. -/
def mountMatches (mount_pt path : CStr) : Bool :=
  if mount_pt = [slash] then path.head? = some slash
  else mount_pt.isPrefixOf path ∧
    (path.drop mount_pt.length = [] ∨ (path.drop mount_pt.length).head? = some slash)

/-- One backend in the search, and the best match before it. -/
def findBackendStep (mount_pt : Fin maxBackends → Option CStr) (path : CStr)
    (best : Option (Fin maxBackends) × ℕ) (i : Fin maxBackends) : Option (Fin maxBackends) × ℕ :=
  match mount_pt i with
  | none => best
  | some mp =>
    if mountMatches mp path ∧ mp.length ≥ best.2 then (some i, mp.length) else best

/-- `find_backend`: the backend and the path in it. A backend that is not mounted has no mount
point. -/
def findBackend (mount_pt : Fin maxBackends → Option CStr) (path : CStr) :
    Option (Fin maxBackends × CStr) :=
  let (best, best_len) := (List.finRange maxBackends).foldl (findBackendStep mount_pt path) (none, 0)
  best.map fun i =>
    if mount_pt i = some [slash] then (i, path)
    else (i, if path.drop best_len = [] then [slash] else path.drop best_len)

end FreeAsd.Vfs
