import Mathlib.Logic.Function.Iterate
import Mathlib.Tactic.Common

/-!
# Cyclic redundancy checks of 32 bits

The check of a sequence of bits by a shift register, the low bit of a byte first (`serial`). Programs take a
byte at a time, with a table (`tabled`). The two are the same for every polynomial (`tabled_eq_serial`),
because a shift is linear (`shift_xor`).
-/

namespace FreeAsd.Crc

open Function BitVec List

variable (poly : BitVec 32)

/-- The register after one bit. -/
def bitStep (c : BitVec 32) (b : Bool) : BitVec 32 :=
  (c >>> 1) ^^^ (if c.getLsbD 0 ^^ b then poly else 0)

/-- The bits of a byte, the low one first. -/
def bitsOf (b : UInt8) : List Bool := (range 8).map b.toBitVec.getLsbD

/-- The register after some bytes, bit by bit. -/
def serial (bytes : List UInt8) (c : BitVec 32) : BitVec 32 :=
  (bytes.flatMap bitsOf).foldl (bitStep poly) c

/-- A shift of the register. -/
def shift (c : BitVec 32) : BitVec 32 := if c.getLsbD 0 then (c >>> 1) ^^^ poly else c >>> 1

/-- A byte as a word. -/
def word (b : UInt8) : BitVec 32 := b.toBitVec.setWidth 32

/-- The register after some bytes, by a table. -/
def tabled (table : BitVec 32 → BitVec 32) (bytes : List UInt8) (c : BitVec 32) : BitVec 32 :=
  bytes.foldl (fun c b => table ((c ^^^ word b) &&& 0xFF#32) ^^^ (c >>> 8)) c

variable {poly}

theorem word_ushiftRight (b : UInt8) : word b >>> 8 = 0#32 := by
  apply eq_of_getLsbD_eq
  intro i hi
  rw [getLsbD_ushiftRight, word, getLsbD_setWidth, getLsbD_of_ge _ _ (by omega)]
  simp

theorem shift_eq (c : BitVec 32) : shift poly c = (c >>> 1) ^^^ (if c.getLsbD 0 then poly else 0) := by
  rw [shift]
  split_ifs
  · rfl
  · exact (xor_zero).symm

/-- A shift of a register with some data in it takes the low bit of the data. -/
theorem shift_xor_eq_bitStep (c v : BitVec 32) :
    shift poly (c ^^^ v) = bitStep poly c (v.getLsbD 0) ^^^ (v >>> 1) := by
  rw [shift_eq, bitStep, getLsbD_xor, ushiftRight_xor_distrib, xor_assoc, BitVec.xor_comm (v >>> 1), xor_assoc]

/-- A shift is linear. -/
theorem shift_xor (x y : BitVec 32) : shift poly (x ^^^ y) = shift poly x ^^^ shift poly y := by
  have hpoly : ∀ a b : Bool, (if a ^^ b then poly else 0) =
      (if a then poly else 0) ^^^ (if b then poly else 0) := by
    intro a b
    cases a <;> cases b <;> simp
  rw [shift_xor_eq_bitStep, bitStep, hpoly, shift_eq, shift_eq, xor_assoc, xor_assoc,
    xor_assoc, BitVec.xor_comm _ (y >>> 1)]

theorem iterate_shift_xor (n : ℕ) (x y : BitVec 32) :
    (shift poly)^[n] (x ^^^ y) = (shift poly)^[n] x ^^^ (shift poly)^[n] y := by
  induction n generalizing x y with
  | zero => rfl
  | succ n ih =>
    rw [iterate_succ_apply, iterate_succ_apply, iterate_succ_apply, shift_xor, ih]

/-- Shifts of a register whose low bits are clear only move it down. -/
theorem iterate_shift_high {c : BitVec 32} {n : ℕ} (h : ∀ i < n, c.getLsbD i = false) :
    (shift poly)^[n] c = c >>> n := by
  induction n with
  | zero => exact (ushiftRight_zero c).symm
  | succ n ih =>
    have hlow : (c >>> n).getLsbD 0 = false := by
      rw [getLsbD_ushiftRight]
      exact h n n.lt_succ_self
    rw [iterate_succ_apply', ih fun i hi => h i (by omega), shift, hlow,
      if_neg Bool.false_ne_true, shiftRight_add]

/-- A byte is eight shifts of the register with the byte in it. -/
theorem foldl_bitsOf (c : BitVec 32) (b : UInt8) :
    (bitsOf b).foldl (bitStep poly) c = (shift poly)^[8] (c ^^^ word b) := by
  -- after `k` bits of the byte, the rest of it is still in the register that is shifted
  have hrest : ∀ k, ((range k).map (word b).getLsbD).foldl (bitStep poly) c ^^^ (word b >>> k) =
      (shift poly)^[k] (c ^^^ word b) := by
    intro k
    induction k with
    | zero => exact congrArg (c ^^^ ·) (ushiftRight_zero _)
    | succ k ih =>
      have hbit : (word b >>> k).getLsbD 0 = (word b).getLsbD k := by
        rw [getLsbD_ushiftRight, Nat.add_zero]
      rw [iterate_succ_apply', ← ih, shift_xor_eq_bitStep, hbit, range_succ,
        map_append, foldl_append, shiftRight_add]
      rfl
  have hbits : bitsOf b = (range 8).map (word b).getLsbD := by
    apply map_congr_left
    intro i hi
    have hi' : i < 32 := by
      have := mem_range.mp hi
      omega
    rw [word, getLsbD_setWidth, decide_eq_true hi', Bool.true_and]
  have h8 := hrest 8
  rw [word_ushiftRight, xor_zero] at h8
  rw [hbits, h8]

/-- Eight shifts, by the low byte and the rest. -/
theorem iterate_shift_eight (c : BitVec 32) :
    (shift poly)^[8] c = (shift poly)^[8] (c &&& 0xFF#32) ^^^ (c >>> 8) := by
  have hmask : ∀ i < 32, (0xFF#32).getLsbD i = decide (i < 8) := by decide
  have hsplit : c = (c &&& 0xFF#32) ^^^ ((c >>> 8) <<< 8) := by
    apply eq_of_getLsbD_eq
    intro i hi
    rw [getLsbD_xor, getLsbD_and, hmask i hi, getLsbD_shiftLeft, getLsbD_ushiftRight]
    by_cases hlow : i < 8
    · simp [hlow]
    · simp [hlow, hi, Nat.add_sub_cancel' (Nat.le_of_not_lt hlow)]
  have hlow : ∀ i < 8, ((c >>> 8) <<< 8).getLsbD i = false := by
    intro i hi
    simp [hi]
  have hback : ((c >>> 8) <<< 8) >>> 8 = c >>> 8 := by
    apply eq_of_getLsbD_eq
    intro i hi
    rw [getLsbD_ushiftRight, getLsbD_shiftLeft, getLsbD_ushiftRight]
    by_cases htop : 8 + i < 32
    · simp [htop]
    · simp [htop, getLsbD_of_ge c (8 + i) (by omega)]
  calc (shift poly)^[8] c
      = (shift poly)^[8] ((c &&& 0xFF#32) ^^^ ((c >>> 8) <<< 8)) := by rw [← hsplit]
    _ = (shift poly)^[8] (c &&& 0xFF#32) ^^^ ((c >>> 8) <<< 8) >>> 8 := by
        rw [iterate_shift_xor, iterate_shift_high hlow]
    _ = (shift poly)^[8] (c &&& 0xFF#32) ^^^ (c >>> 8) := by rw [hback]

/-- The table makes up for the shifts. -/
theorem tabled_eq_serial {table : BitVec 32 → BitVec 32}
    (h : ∀ b : BitVec 32, table (b &&& 0xFF#32) = (shift poly)^[8] (b &&& 0xFF#32))
    (bytes : List UInt8) (c : BitVec 32) : tabled table bytes c = serial poly bytes c := by
  induction bytes generalizing c with
  | nil => rfl
  | cons b bytes ih =>
    have hword : (c ^^^ word b) >>> 8 = c >>> 8 := by
      rw [ushiftRight_xor_distrib, word_ushiftRight, xor_zero]
    have hbyte : table ((c ^^^ word b) &&& 0xFF#32) ^^^ (c >>> 8) = (bitsOf b).foldl (bitStep poly) c := by
      rw [h, foldl_bitsOf, iterate_shift_eight (c ^^^ word b), hword]
    rw [serial, flatMap_cons, foldl_append, ← hbyte]
    exact ih _

end FreeAsd.Crc
