import FreeAsd.Lib.Bytes
import Mathlib.Data.List.GetD

/-!
# Memory of the caller

What a system call sees of its caller's memory: the bytes, and which of them it can read and write.
`validate_user_ptr` of `kernel/arch/syscall.c` checks only that a range is in the lower half of the
address space; the copies fail at the first page that cannot be accessed.
-/

namespace FreeAsd.Arch

open List

/-- `validate_user_ptr`, on numbers of 64 bits. -/
def validateUserPtr (ptr size : ℕ) : Bool :=
  if ptr = 0 then false
  else if ptr < 0x1000 then false
  else if ptr ≥ 0x0000800000000000 then false
  else if size > 0 ∧ (ptr + size) % 2^64 < ptr then false
  else if size > 0 ∧ (ptr + size) % 2^64 > 0x0000800000000000 then false
  else true

/-- Memory of a process. -/
structure UserMem where
  byte : Mem
  readable : ℕ → Bool
  writable : ℕ → Bool

namespace UserMem

/-- `copy_from_user`. -/
def copyFromUser (u : UserMem) (src n : ℕ) : Option (List UInt8) :=
  if (range n).all fun i => u.readable (src + i) then
    some ((range n).map fun i => u.byte (src + i))
  else none

/-- `copy_to_user`: bytes before the first that cannot be written are written even if it fails. -/
def copyToUser (u : UserMem) (dst : ℕ) : List UInt8 → Bool × UserMem
  | [] => (true, u)
  | b :: bs =>
    if u.writable dst then copyToUser { u with byte := Function.update u.byte dst b } (dst + 1) bs
    else (false, u)

/-- The memory after a copy that succeeds. -/
def write (u : UserMem) (dst : ℕ) (bs : List UInt8) : UserMem :=
  { u with byte := fun x => if dst ≤ x ∧ x < dst + bs.length then bs.getD (x - dst) 0 else u.byte x }

@[simp] theorem write_nil (u : UserMem) (dst : ℕ) : u.write dst [] = u := by
  have hbyte : (u.write dst []).byte = u.byte := by
    funext x
    exact if_neg (by rw [length_nil]; omega)
  rw [write] at hbyte ⊢
  dsimp only at hbyte
  rw [hbyte]

theorem write_write (u : UserMem) (dst : ℕ) (bs cs : List UInt8) :
    (u.write dst bs).write (dst + bs.length) cs = u.write dst (bs ++ cs) := by
  unfold write
  congr 1
  funext x
  dsimp only
  rw [length_append]
  split_ifs with hcs happ hbs happ
  · rw [getD_append_right _ _ _ _ (by omega)]
    congr 1
    omega
  · omega
  · rw [getD_append _ _ _ _ (by omega)]
  · omega
  · omega
  · rfl

/-- A copy to bytes that can all be written succeeds. -/
theorem copyToUser_of_writable {u : UserMem} {dst : ℕ} {bs : List UInt8}
    (h : ∀ i < bs.length, u.writable (dst + i)) : u.copyToUser dst bs = (true, u.write dst bs) := by
  induction bs generalizing u dst with
  | nil => rw [copyToUser, write_nil]
  | cons b bs ih =>
    have hhead : u.writable dst := h 0 (Nat.zero_lt_succ _)
    rw [copyToUser, if_pos hhead]
    have hone : ({ u with byte := Function.update u.byte dst b } : UserMem) = u.write dst [b] := by
      rw [write]
      congr 1
      funext x
      rw [Function.update_apply, length_singleton]
      by_cases hx : x = dst
      · rw [if_pos hx, if_pos (by omega), hx, Nat.sub_self]
        rfl
      · rw [if_neg hx, if_neg (by omega)]
    rw [hone, ih]
    · exact congrArg (Prod.mk true) (write_write u dst [b] bs)
    · intro i hi
      have := h (i + 1) (by rw [length_cons]; omega)
      rwa [show dst + (i + 1) = dst + 1 + i by omega] at this

/-- A copy from bytes that can all be read succeeds. -/
theorem copyFromUser_of_readable {u : UserMem} {src n : ℕ} (h : ∀ i < n, u.readable (src + i)) :
    u.copyFromUser src n = some ((range n).map fun i => u.byte (src + i)) := by
  apply if_pos
  rw [all_eq_true]
  intro i hi
  exact h i (mem_range.mp hi)

end UserMem

end FreeAsd.Arch
