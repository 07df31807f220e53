import Mathlib.Tactic.Ring

/-!
# Bytes

Strings as C has them, and memory as a function from addresses to bytes, with little-endian reads
and writes of `n` bytes. A write is seen by a read of the same bytes (`Mem.rd_wr_self`) and by no
read of other bytes (`Mem.rd_wr_of_disjoint`).
-/

namespace FreeAsd

open Function

/-- A C string: the bytes before its terminator. -/
abbrev CStr := List UInt8

/-- The C string of an ASCII literal. -/
def cstr (s : String) : CStr := s.toList.map fun c => c.toNat.toUInt8

theorem decide_ne_of_notMem {s : CStr} {b : UInt8} (h : b ∉ s) : ∀ c ∈ s, decide (c ≠ b) = true := by
  intro c hc
  rw [decide_eq_true_eq]
  rintro rfl
  exact h hc

/-- Byte-addressed memory. -/
abbrev Mem := ℕ → UInt8

namespace Mem

variable {m m' : Mem} {a b k n v x : ℕ}

/-- The little-endian number in the `n` bytes at `a`. -/
def rd (m : Mem) (a : ℕ) : ℕ → ℕ
  | 0 => 0
  | n + 1 => (m a).toNat + 256 * rd m (a + 1) n

/-- Write the low `n` bytes of a number at `a`, in little-endian order. -/
def wr (m : Mem) (a : ℕ) : ℕ → ℕ → Mem
  | 0, _ => m
  | n + 1, v => wr (Function.update m a (UInt8.ofNat v)) (a + 1) n (v / 256)

/-- `memset`. -/
def fill (m : Mem) (a n : ℕ) (c : UInt8) : Mem := fun x => if a ≤ x ∧ x < a + n then c else m x

theorem fill_of_mem (c : UInt8) (h : a ≤ x ∧ x < a + n) : fill m a n c x = c := if_pos h

theorem fill_of_notMem (c : UInt8) (h : x < a ∨ a + n ≤ x) : fill m a n c x = m x :=
  if_neg (by omega)

/-- `memcpy` of `n` bytes at `b` of `src` to `a`. -/
def copy (m : Mem) (a : ℕ) (src : Mem) (b n : ℕ) : Mem :=
  fun x => if a ≤ x ∧ x < a + n then src (b + (x - a)) else m x

theorem copy_of_mem {src : Mem} (h : k < n) : copy m a src b n (a + k) = src (b + k) := by
  rw [copy, if_pos ⟨Nat.le_add_right a k, by omega⟩, Nat.add_sub_cancel_left]

theorem copy_of_notMem {src : Mem} (h : x < a ∨ a + n ≤ x) : copy m a src b n x = m x :=
  if_neg (by omega)

/-- Copying one byte more. -/
theorem copy_succ {src : Mem} : update (copy m a src b n) (a + n) (src (b + n)) = copy m a src b (n + 1) := by
  funext x
  by_cases hx : x = a + n
  · subst hx
    rw [update_self, copy_of_mem (Nat.lt_succ_self n)]
  · rw [update_of_ne hx, copy, copy]
    exact if_congr (by omega) rfl rfl

/-- A write changes no other byte. -/
theorem wr_of_notMem (h : x < a ∨ a + n ≤ x) : wr m a n v x = m x := by
  induction n generalizing m a v with
  | zero => rfl
  | succ n ih =>
    have hx : x ≠ a := by omega
    rw [wr, ih (by omega), update_of_ne hx]

/-- A read depends on its own bytes only. -/
theorem rd_congr (h : ∀ x, a ≤ x → x < a + n → m x = m' x) : rd m a n = rd m' a n := by
  induction n generalizing a with
  | zero => rfl
  | succ n ih =>
    have hhead : m a = m' a := h a le_rfl (by omega)
    rw [rd, rd, hhead, ih fun x hx hx' => h x (by omega) (by omega)]

theorem rd_lt : rd m a n < 256^n := by
  induction n generalizing a with
  | zero => simp [rd]
  | succ n ih =>
    have hb : (m a).toNat < 256 := (m a).toNat_lt
    have hr := ih (a := a + 1)
    rw [rd, pow_succ]
    omega

/-- A read sees the write of the same bytes. -/
theorem rd_wr_self : rd (wr m a n v) a n = v % 256^n := by
  induction n generalizing m a v with
  | zero => simp [rd, Nat.mod_one]
  | succ n ih =>
    have hhead : wr m a (n + 1) v a = UInt8.ofNat v := by
      rw [wr, wr_of_notMem (by omega), update_self]
    have htail : rd (wr m a (n + 1) v) (a + 1) n = v / 256 % 256^n := by
      rw [wr, ih]
    have hbyte : (UInt8.ofNat v).toNat = v % 256 := UInt8.toNat_ofNat'
    rw [rd, hhead, htail, hbyte, pow_succ, mul_comm (256^n) 256, Nat.mod_mul]

/-- A read does not see the write of other bytes. -/
theorem rd_wr_of_disjoint (h : b + k ≤ a ∨ a + n ≤ b) : rd (wr m a n v) b k = rd m b k :=
  rd_congr fun x hx hx' => wr_of_notMem (by omega)

theorem rd_copy_of_disjoint {src : Mem} {i : ℕ} (h : b + k ≤ a ∨ a + n ≤ b) :
    rd (copy m a src i n) b k = rd m b k :=
  rd_congr fun x hx hx' => copy_of_notMem (by omega)

theorem rd_update_of_notMem {c : UInt8} (h : x < a ∨ a + n ≤ x) : rd (update m x c) a n = rd m a n :=
  rd_congr fun y hy hy' => update_of_ne (by omega) _ _

theorem rd_eq_zero (h : ∀ x, a ≤ x → x < a + n → m x = 0) : rd m a n = 0 := by
  induction n generalizing a with
  | zero => rfl
  | succ n ih =>
    rw [rd, h a le_rfl (by omega), ih fun x hx hx' => h x (by omega) (by omega)]
    rfl

end Mem

end FreeAsd
