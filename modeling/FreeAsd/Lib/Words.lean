import FreeAsd.Lib.Bytes
import Mathlib.Data.Nat.Bitwise

/-!
# Machine words

The bit operations of C on unsigned words as arithmetic on natural numbers: an `or` of numbers that share no
bit is their sum. `leBytes n v` are the `n` low bytes of `v` in little-endian order, which two numbers share
exactly when they agree modulo `256^n` (`leBytes_eq_iff`).
-/

namespace FreeAsd

open Nat List

/-- An `or` of a number below `2^n` with a number shifted by `n` is their sum. -/
theorem or_shiftLeft {a b n : ℕ} (h : b < 2^n) : b ||| a <<< n = b + a * 2^n := by
  rw [Nat.or_comm, ← Nat.shiftLeft_add_eq_or_of_lt h a, Nat.shiftLeft_eq]
  exact add_comm _ _

/-- `or_shiftLeft` in a word of `w` bits, which drops the bits shifted out. -/
theorem or_shiftLeft_mod {a b m n w : ℕ} (h : b < 2^n) (hw : m + n = w) :
    b ||| (a <<< n % 2^w) = b + a % 2^m * 2^n := by
  have hsplit : a <<< n % 2^w = (a % 2^m) <<< n := by
    rw [Nat.shiftLeft_eq, Nat.shiftLeft_eq, ← hw, pow_add, Nat.mul_mod_mul_right]
  rw [hsplit, or_shiftLeft h]

/-- The word that the bits from `k` on of two words make up. -/
theorem funnel_shift {a b j k w : ℕ} (ha : a < 2^w) (hw : j + k = w) :
    (a >>> k) ||| (b <<< j % 2^w) = (a + 2^w * b) / 2^k % 2^w := by
  have hpow : 2^w = 2^j * 2^k := by rw [← hw, pow_add]
  have hlow : a / 2^k < 2^j := by
    apply Nat.div_lt_of_lt_mul
    rw [mul_comm, ← hpow]
    exact ha
  have hdiv : (a + 2^w * b) / 2^k = a / 2^k + 2^j * b := by
    rw [hpow, mul_comm (2^j), mul_assoc, Nat.add_mul_div_left _ _ (Nat.two_pow_pos k)]
  rw [shiftRight_eq_div_pow, or_shiftLeft_mod hlow (add_comm k j ▸ hw), hdiv, hpow, mod_mul,
    add_mul_mod_self_left, mod_eq_of_lt hlow, Nat.add_mul_div_left _ _ (Nat.two_pow_pos _),
    Nat.div_eq_of_lt hlow, zero_add, mul_comm (b % 2^k)]

/-- The number in the `n` bytes at `a`, put together by shifting each byte to its place and `or`ing
it in. -/
def loadLe (b : Mem) (a : ℕ) : ℕ → ℕ
  | 0 => 0
  | n + 1 => loadLe b a n ||| (b (a + n)).toNat <<< (8 * n)

/-- The number in `n + k` bytes is the one in the first `n` and the one in the other `k`. -/
theorem rd_add (b : Mem) (a n k : ℕ) : Mem.rd b a (n + k) = Mem.rd b a n + 256^n * Mem.rd b (a + n) k := by
  induction n generalizing a with
  | zero => simp [Mem.rd]
  | succ n ih =>
    rw [succ_add, Mem.rd, ih, Mem.rd, pow_succ', add_right_comm a 1 n, add_assoc a n 1]
    ring

theorem rd_succ_last (b : Mem) (a n : ℕ) : Mem.rd b a (n + 1) = Mem.rd b a n + (b (a + n)).toNat * 256^n := by
  rw [rd_add, Mem.rd, Mem.rd, mul_zero, add_zero, mul_comm]

theorem loadLe_eq_rd (b : Mem) (a n : ℕ) : loadLe b a n = Mem.rd b a n := by
  induction n with
  | zero => rfl
  | succ n ih =>
    have hpow : (256 : ℕ)^n = 2^(8 * n) := by rw [Nat.pow_mul]
    have hlt : Mem.rd b a n < 2^(8 * n) := hpow ▸ Mem.rd_lt
    rw [loadLe, ih, or_shiftLeft hlt, rd_succ_last, hpow]

/-- The `n` low bytes of a number, the lowest first. -/
def leBytes : ℕ → ℕ → List UInt8
  | 0, _ => []
  | n + 1, v => UInt8.ofNat v :: leBytes n (v / 256)

@[simp] theorem length_leBytes (n v : ℕ) : (leBytes n v).length = n := by
  induction n generalizing v with
  | zero => rfl
  | succ n ih => rw [leBytes, length_cons, ih]

/-- The number that a list of bytes makes up, the lowest byte first. -/
def leNum : List UInt8 → ℕ
  | [] => 0
  | b :: bs => b.toNat + 256 * leNum bs

theorem leNum_lt (bs : List UInt8) : leNum bs < 256^bs.length := by
  induction bs with
  | nil => exact one_pos
  | cons b bs ih =>
    have hb : b.toNat < 256 := b.toNat_lt
    rw [leNum, length_cons, pow_succ']
    omega

theorem leNum_append (as bs : List UInt8) : leNum (as ++ bs) = leNum as + 256^as.length * leNum bs := by
  induction as with
  | nil => simp [leNum]
  | cons a as ih =>
    rw [cons_append, leNum, ih, leNum, length_cons, pow_succ']
    ring

/-- The number in `n` bytes of memory is the number of the list of these bytes. -/
theorem rd_eq_leNum (b : Mem) (a n : ℕ) : Mem.rd b a n = leNum ((range n).map fun i => b (a + i)) := by
  induction n with
  | zero => rfl
  | succ n ih =>
    rw [rd_succ_last, ih, range_succ, map_append, leNum_append]
    simp [leNum, mul_comm]

theorem leNum_leBytes (n v : ℕ) : leNum (leBytes n v) = v % 256^n := by
  induction n generalizing v with
  | zero => rw [leBytes, leNum, pow_zero, mod_one]
  | succ n ih =>
    have byte : (UInt8.ofNat v).toNat = v % 256 := UInt8.toNat_ofNat'
    rw [leBytes, leNum, ih, byte, pow_succ', mod_mul]

theorem leBytes_mod (n v : ℕ) : leBytes n (v % 256^n) = leBytes n v := by
  induction n generalizing v with
  | zero => rfl
  | succ n ih =>
    have low : UInt8.ofNat (v % 256^(n + 1)) = UInt8.ofNat v := by
      apply UInt8.toNat_inj.mp
      rw [UInt8.toNat_ofNat', UInt8.toNat_ofNat', pow_succ', mod_mul_right_mod]
    rw [leBytes, leBytes, low, pow_succ', mod_mul_right_div_self, ih]

/-- Two numbers have the same `n` low bytes exactly when they agree modulo `256^n`. -/
theorem leBytes_eq_iff {n v w : ℕ} : leBytes n v = leBytes n w ↔ v % 256^n = w % 256^n := by
  constructor
  · intro h
    rw [← leNum_leBytes, h, leNum_leBytes]
  · intro h
    rw [← leBytes_mod, h, leBytes_mod]

/-- The bytes of a number are those of its low part followed by those of its high part. -/
theorem leBytes_append (m n v : ℕ) : leBytes m v ++ leBytes n (v / 256^m) = leBytes (m + n) v := by
  induction m generalizing v with
  | zero => rw [leBytes, nil_append, pow_zero, Nat.div_one, zero_add]
  | succ m ih =>
    rw [Nat.succ_add, leBytes, leBytes, cons_append, ← ih, Nat.pow_succ', Nat.div_div_eq_div_mul]

end FreeAsd
