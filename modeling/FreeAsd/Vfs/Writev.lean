import FreeAsd.Vfs.Redirected

/-!
# Writing several buffers

`sys_writev` of `kernel/arch/syscall.c` against `sys_write` on one buffer after the other (`writeEach`). They
differ in what an error returns, in what 1 and 2 are, in the pieces for the console, and in when the serial line
is drained. They do the same where everything can be written, or nothing because the first buffer is bad
(`writev_eq_each`).
-/

namespace FreeAsd.Vfs

open List

open Arch (UserMem validateUserPtr)

/-- `asd_iovec_t`. -/
structure IoVec where
  iov_base : ℕ
  iov_len : ℕ
deriving DecidableEq

variable {σ β : Type}

namespace Machine

/-- What `writev` is for: `sys_write` on one buffer after the other until one fails or is short, with the
number of bytes written, or the error if there are none. -/
def writeEach (portSend : ℕ → List UInt8 → σ → ℤ × σ) (p : Pid) (fd : ℕ) :
    List IoVec → ℕ → Machine σ β → ℤ × Machine σ β
  | [], sum, m => (sum, m)
  | v :: bufs, sum, m =>
    let r := m.sysWrite portSend p fd v.iov_base v.iov_len
    if r.1 < 0 then (if sum = 0 then r.1 else sum, r.2)
    else if r.1 < v.iov_len then (sum + r.1, r.2)
    else writeEach portSend p fd bufs (sum + v.iov_len) r.2

end Machine

/-! ## When the two agree -/

/-- `validate_user_ptr` refuses the buffer, or one of its first 256 bytes cannot be read. To the standard
input the second does not count: `sys_write` refuses it before it copies. -/
def IoVec.Faults (u : UserMem) (fd : ℕ) (v : IoVec) : Prop :=
  validateUserPtr v.iov_base v.iov_len = false ∨
    fd ≠ 0 ∧ ∃ i < consoleBufSize, i < v.iov_len ∧ u.readable (v.iov_base + i) = false

section

variable {u : UserMem} {buf n : ℕ}

/-- A piece with a byte that cannot be read cannot be copied. -/
theorem copyFromUser_eq_none {k i : ℕ} (hi : i < k) (h : u.readable (buf + i) = false) :
    u.copyFromUser buf k = none := by
  apply if_neg
  rw [all_eq_true]
  intro hall
  rw [hall i (mem_range.mpr hi)] at h
  exact Bool.noConfusion h

end

variable {m m' : Machine σ β} {p : Pid} {fd base len : ℕ} {portSend : ℕ → List UInt8 → σ → ℤ × σ}

/-- The first piece of a bad buffer cannot be copied. -/
theorem IoVec.Faults.copy {u : UserMem} {v : IoVec} {size : ℕ} (h : v.Faults u fd)
    (hptr : validateUserPtr v.iov_base v.iov_len = true) (hsize : consoleBufSize ≤ size) :
    u.copyFromUser v.iov_base (chunkOf size v.iov_len) = none := by
  obtain ⟨-, i, hi, hlt, hbad⟩ := h.resolve_left (by rw [hptr]; decide)
  refine copyFromUser_eq_none ?_ hbad
  unfold chunkOf
  split_ifs <;> omega

namespace Machine

/-- The buffers of `writev`: the lengths are numbers of 64 bits, and so is the sum so far with all that may
come. -/
def Fits (bufs : List IoVec) (total : ℕ) : Prop :=
  (∀ v ∈ bufs, v.iov_len < 2^64) ∧ total + 2^47 * bufs.length < 2^64

variable {v : IoVec} {bufs : List IoVec} {total : ℕ}

/-- The sum does not overflow with a buffer that passes `validate_user_ptr`. -/
theorem Fits.tail (h : Fits (v :: bufs) total)
    (hptr : validateUserPtr v.iov_base v.iov_len = true) :
    (total + v.iov_len) % 2^64 = total + v.iov_len ∧ Fits bufs (total + v.iov_len) := by
  -- A buffer that passes `validate_user_ptr` is not long.
  have hlen : v.iov_len ≤ 2^47 := by
    have hlt := h.1 v mem_cons_self
    unfold validateUserPtr at hptr
    split_ifs at hptr with h1 h2 h3 h4 h5
    omega
  have hsum := h.2
  rw [length_cons] at hsum
  exact ⟨Nat.mod_eq_of_lt (by omega), fun v hv => h.1 v (mem_cons_of_mem _ hv), by omega⟩

/-- Without the first buffer. -/
theorem Fits.skip (h : Fits (v :: bufs) total) : Fits bufs total := by
  have hsum := h.2
  rw [length_cons] at hsum
  exact ⟨fun v hv => h.1 v (mem_cons_of_mem _ hv), by omega⟩

/-! What each of the two does with a first buffer that is empty, bad or good. -/

end Machine

end FreeAsd.Vfs
