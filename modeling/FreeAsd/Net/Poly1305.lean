import FreeAsd.Lib.Words
import Mathlib.Algebra.BigOperators.Group.Finset.Basic
import Mathlib.Data.Nat.ModEq
import Mathlib.Tactic.Linarith

/-!
# Poly1305

The message authentication code of `tls.c`, with the accumulator in three limbs, and the remainder written
wherever the C type could wrap. The reference is the sum of RFC 8439 (`rfcTag`). The loop is right
(`polyLoop_spec`); the conditional subtraction at the end forgets the third limb, so the tag is right exactly
when there is nothing to subtract (`poly1305Mac_eq_iff`).
-/

namespace FreeAsd.Poly1305

open Nat List

/-- `P44`. -/
abbrev p44 : ℕ := 0xfffffffffff

/-- `P42`. -/
abbrev p42 : ℕ := 0x3ffffffffff

/-- A number in limbs of 44, 44 and 42 bits: the accumulator `h0, h1, h2`, a block `m0, m1, m2` and
the multiplier `r0, r1, r2`. -/
structure Limbs where
  x0 : ℕ
  x1 : ℕ
  x2 : ℕ
deriving DecidableEq, Repr

namespace Limbs

/-- The number that the limbs make up. -/
def value (l : Limbs) : ℕ := l.x0 + l.x1 * 2^44 + l.x2 * 2^88

end Limbs

variable {h : Limbs} {b msg : List UInt8}

/-! ## The code -/

/-- The clamped multiplier `r0, r1, r2` of a key. -/
def clampR (key : Mem) : Limbs :=
  let t0 := loadLe key 0 8
  let t1 := loadLe key 8 8
  { x0 := t0 &&& 0xffc0fffffff
    x1 := ((t0 >>> 44) ||| (t1 <<< 20 % 2^64)) &&& 0xfffffc0ffff
    x2 := (t1 >>> 24) &&& 0x00ffffffc0f }

/-- `blk`: the bytes of a block, a one after them, and zeros. -/
def blk (b : List UInt8) : Mem := fun i => if i = b.length then 1 else b.getD i 0

/-- The limbs `m0, m1, m2` of a block. -/
def loadBlock (b : List UInt8) : Limbs :=
  let b0 := loadLe (blk b) 0 8
  let b1 := loadLe (blk b) 8 8
  { x0 := b0 &&& p44
    x1 := ((b0 >>> 44) ||| (b1 <<< 20 % 2^64)) &&& p44
    x2 := (b1 >>> 24) ||| (((blk b) 16).toNat <<< 40 % 2^64) }

/-- `h += m`. -/
def addBlock (h m : Limbs) : Limbs :=
  { x0 := (h.x0 + m.x0) % 2^64
    x1 := (h.x1 + m.x1) % 2^64
    x2 := (h.x2 + m.x2) % 2^64 }

/-- The products `d0, d1, d2` of the accumulator and the multiplier, in 128-bit words. -/
def mulR (h r : Limbs) : Limbs :=
  let s1 := r.x1 * 20 % 2^64
  let s2 := r.x2 * 20 % 2^64
  { x0 := (h.x0 * r.x0 + h.x1 * s2 + h.x2 * s1) % 2^128
    x1 := (h.x0 * r.x1 + h.x1 * r.x0 + h.x2 * s2) % 2^128
    x2 := (h.x0 * r.x2 + h.x1 * r.x1 + h.x2 * r.x0) % 2^128 }

/-- The carries between the products, back to limbs. -/
def carryMul (d : Limbs) : Limbs :=
  let cc := (d.x0 >>> 44) % 2^64
  let h0 := d.x0 % 2^64 &&& p44
  let d1 := (d.x1 + cc) % 2^128
  let cc := (d1 >>> 44) % 2^64
  let h1 := d1 % 2^64 &&& p44
  let d2 := (d.x2 + cc) % 2^128
  let cc := (d2 >>> 42) % 2^64
  let h2 := d2 % 2^64 &&& p42
  let h0 := (h0 + cc * 5 % 2^64) % 2^64
  let cc := h0 >>> 44
  { x0 := h0 &&& p44, x1 := (h1 + cc) % 2^64, x2 := h2 }

/-- The loop over the blocks of the message: a block has sixteen bytes, the last one may be
shorter. The first argument bounds the rounds; a round takes at least one byte. -/
def polyLoop (r : Limbs) : ℕ → List UInt8 → Limbs → Limbs
  | 0, _, h => h
  | n + 1, msg, h =>
    if msg.length > 0 then
      polyLoop r n (msg.drop 16) (carryMul (mulR (addBlock h (loadBlock (msg.take 16))) r))
    else h

/-- The carries after the last block. -/
def finalCarry (h : Limbs) : Limbs :=
  let cc2 := h.x1 >>> 44
  let h1 := h.x1 &&& p44
  let h2 := (h.x2 + cc2) % 2^64
  let cc2 := h2 >>> 42
  let h2 := h2 &&& p42
  let h0 := (h.x0 + cc2 * 5 % 2^64) % 2^64
  let cc2 := h0 >>> 44
  let h0 := h0 &&& p44
  let h1 := (h1 + cc2) % 2^64
  let cc2 := h1 >>> 44
  let h1 := h1 &&& p44
  { x0 := h0, x1 := h1, x2 := (h2 + cc2) % 2^64 }

/-- The sign bit of a word in every bit: `(uint64_t)((int64_t)g2 >> 63)`. -/
def signMask (g2 : ℕ) : ℕ := if g2 < 2^63 then 0 else 2^64 - 1

/-- The conditional subtraction of `2^130 - 5`: `g` is `h + 5 - 2^130`, and its two low limbs are
taken unless it is negative. -/
def condSub (h : Limbs) : Limbs :=
  let g0 := (h.x0 + 5) % 2^64
  let cc2 := g0 >>> 44
  let g0 := g0 &&& p44
  let g1 := (h.x1 + cc2) % 2^64
  let cc2 := g1 >>> 44
  let g1 := g1 &&& p44
  let g2 := (h.x2 + cc2 + 2^64 - 2^42) % 2^64
  let mask := signMask g2
  let nmask := 2^64 - 1 - mask
  { x0 := (h.x0 &&& mask) ||| (g0 &&& nmask)
    x1 := (h.x1 &&& mask) ||| (g1 &&& nmask)
    x2 := h.x2 }

/-- The limbs packed into 128 bits, plus the two pad words of the key, as bytes. -/
def packTag (h : Limbs) (key : Mem) : List UInt8 :=
  let pad0 := loadLe key 16 8
  let pad1 := loadLe key 24 8
  let f0 := h.x0 ||| (h.x1 <<< 44 % 2^64)
  let f1 := (h.x1 >>> 20) ||| (h.x2 <<< 24 % 2^64)
  let out128 := ((f0 ||| f1 <<< 64) + (pad0 ||| pad1 <<< 64)) % 2^128
  leBytes 8 (out128 % 2^64) ++ leBytes 8 (out128 >>> 64)

/-- The accumulator after the last block and its carries, before the conditional subtraction. -/
def accumulator (msg : List UInt8) (key : Mem) : Limbs :=
  finalCarry (polyLoop (clampR key) msg.length msg ⟨0, 0, 0⟩)

/-- `poly1305_mac`: the sixteen bytes of the tag. -/
def poly1305Mac (msg : List UInt8) (key : Mem) : List UInt8 :=
  packTag (condSub (accumulator msg key)) key

/-! ## RFC 8439 -/

/-- The prime `2^130 - 5`. -/
abbrev prime : ℕ := 2^130 - 5

/-- The clamped `r` of a key. -/
def rfcR (key : Mem) : ℕ := Mem.rd key 0 16 &&& 0x0ffffffc0ffffffc0ffffffc0fffffff

/-- The `s` of a key. -/
def rfcS (key : Mem) : ℕ := Mem.rd key 16 16

/-- The number of blocks of a message: sixteen bytes each, the last one perhaps shorter. -/
def blockCount (msg : List UInt8) : ℕ := (msg.length + 15) / 16

/-- The `i`-th block of a message. -/
def block (msg : List UInt8) (i : ℕ) : List UInt8 := (msg.drop (16 * i)).take 16

/-- The number of a block with the bit above its last byte set. -/
def blockNum (b : List UInt8) : ℕ := leNum b + 256^b.length

/-- The sum of RFC 8439: each block times `r` to the number of blocks from it to the end. -/
def polySum (r : ℕ) (msg : List UInt8) : ℕ :=
  ∑ i ∈ Finset.range (blockCount msg), blockNum (block msg i) * r^(blockCount msg - i)

/-- The tag of RFC 8439. -/
def rfcTag (msg : List UInt8) (key : Mem) : List UInt8 :=
  leBytes 16 ((polySum (rfcR key) msg % prime + rfcS key) % 2^128)

/-! ## Words and limbs -/

theorem and_p44 (x : ℕ) : x &&& p44 = x % 2^44 := and_two_pow_sub_one_eq_mod x 44

theorem and_p42 (x : ℕ) : x &&& p42 = x % 2^42 := and_two_pow_sub_one_eq_mod x 42

/-- Only the low bits of a word meet a small mask. -/
theorem and_eq_mod_and {m n : ℕ} (x : ℕ) (h : m < 2^n) : x &&& m = x % 2^n &&& m := by
  have hand := and_lt_two_pow x h
  calc x &&& m = (x &&& m) % 2^n := (mod_eq_of_lt hand).symm
    _ = x % 2^n &&& m % 2^n := and_mod_two_pow
    _ = x % 2^n &&& m := by rw [mod_eq_of_lt h]

theorem middle_word {t0 t1 : ℕ} (h0 : t0 < 2^64) :
    (t0 >>> 44) ||| (t1 <<< 20 % 2^64) = (t0 + 2^64 * t1) / 2^44 % 2^64 :=
  funnel_shift h0 (by norm_num)

/-- The sixteen bytes of a key or a block are two words. -/
theorem rd_sixteen (b : Mem) (a : ℕ) : Mem.rd b a 16 = loadLe b a 8 + 2^64 * loadLe b (a + 8) 8 := by
  rw [loadLe_eq_rd, loadLe_eq_rd]
  exact rd_add b a 8 8

theorem loadLe_lt (b : Mem) (a : ℕ) : loadLe b a 8 < 2^64 := by
  rw [loadLe_eq_rd]
  exact Mem.rd_lt

/-! ## The multiplier -/

/-- The bounds of a clamped multiplier. -/
structure SmallR (r : Limbs) : Prop where
  x0 : r.x0 < 2^44
  x1 : r.x1 < 2^44
  x2 : r.x2 < 2^40

theorem clampR_small (key : Mem) : SmallR (clampR key) where
  x0 := and_lt_two_pow _ (by norm_num)
  x1 := and_lt_two_pow _ (by norm_num)
  x2 := and_lt_two_pow _ (by norm_num)

/-- The three clamping masks are the mask of the RFC in limbs. -/
theorem clampR_value (key : Mem) : (clampR key).value = rfcR key := by
  generalize ht0 : loadLe key 0 8 = t0
  generalize ht1 : loadLe key 8 8 = t1
  have h0 : t0 < 2^64 := ht0 ▸ loadLe_lt key 0
  generalize hv : (t0 + 2^64 * t1) &&& 0x0ffffffc0ffffffc0ffffffc0fffffff = v
  have hx0 : t0 &&& 0xffc0fffffff = v % 2^44 := by
    have ht : (t0 + 2^64 * t1) % 2^44 = t0 % 2^44 := by omega
    rw [← hv, and_mod_two_pow, ht]
    exact and_eq_mod_and t0 (by norm_num)
  have hx1 : ((t0 >>> 44) ||| (t1 <<< 20 % 2^64)) &&& 0xfffffc0ffff = v / 2^44 % 2^44 := by
    have ht : (t0 + 2^64 * t1) / 2^44 % 2^64 % 2^44 = (t0 + 2^64 * t1) / 2^44 % 2^44 := by omega
    rw [← hv, and_div_two_pow, and_mod_two_pow, middle_word h0, ← ht]
    exact and_eq_mod_and _ (by norm_num)
  have hx2 : (t1 >>> 24) &&& 0x00ffffffc0f = v / 2^88 := by
    have ht : (t0 + 2^64 * t1) / 2^88 = t1 >>> 24 := by
      rw [shiftRight_eq_div_pow]
      omega
    rw [← hv, and_div_two_pow, ht]
  have hr : rfcR key = v := by
    rw [rfcR, rd_sixteen, ht0, zero_add, ht1, ← hv]
  rw [hr, Limbs.value, clampR]
  dsimp only
  rw [ht0, ht1, hx0, hx1, hx2]
  omega

/-! ## A block -/

theorem leNum_blk (b : List UInt8) {n : ℕ} (h : b.length < n) : Mem.rd (blk b) 0 n = blockNum b := by
  have hbytes : (List.range n).map (blk b) = b ++ 1 :: List.replicate (n - b.length - 1) 0 := by
    apply ext_getElem
    · rw [length_map, length_range, length_append, length_cons, length_replicate]
      omega
    intro i hi hi'
    simp only [getElem_map, getElem_range, blk]
    rcases lt_trichotomy i b.length with hlt | heq | hgt
    · rw [if_neg (by omega), getElem_append_left hlt, getD_eq_getElem _ _ hlt]
    · subst heq
      simp
    · rw [if_neg (by omega), getElem_append_right (by omega), getD_eq_default _ _ (by omega)]
      rw [getElem_cons, dif_neg (by omega), getElem_replicate]
  have hzero : ∀ k, leNum (List.replicate k 0) = 0 := by
    intro k
    induction k with
    | zero => rfl
    | succ k ih => rw [replicate_succ, leNum, ih]; rfl
  rw [rd_eq_leNum]
  simp only [zero_add]
  rw [hbytes, leNum_append, leNum, hzero, blockNum]
  simp

/-- The limbs of a block make up its number, and are small. -/
theorem loadBlock_spec (h : b.length ≤ 16) :
    (loadBlock b).value = blockNum b ∧
      (loadBlock b).x0 < 2^44 ∧ (loadBlock b).x1 < 2^44 ∧ (loadBlock b).x2 < 2^41 := by
  generalize hb0 : loadLe (blk b) 0 8 = b0
  generalize hb1 : loadLe (blk b) 8 8 = b1
  generalize htop : ((blk b) 16).toNat = top
  have h0 : b0 < 2^64 := hb0 ▸ loadLe_lt _ 0
  have h1 : b1 < 2^64 := hb1 ▸ loadLe_lt _ 8
  have h2 : top ≤ 1 := by
    rw [← htop, blk]
    split_ifs with hlen
    · exact le_refl 1
    · rw [getD_eq_default _ _ h]
      exact zero_le 1
  have hnum : blockNum b = b0 + 2^64 * b1 + 2^128 * top := by
    rw [← leNum_blk b (lt_succ_of_le h), rd_succ_last, rd_sixteen, hb0, zero_add, hb1, zero_add, htop]
    ring
  have hx2 : (b1 >>> 24) ||| (top <<< 40 % 2^64) = b1 / 2^24 + top * 2^40 := by
    have hlow : b1 >>> 24 < 2^40 := by
      rw [shiftRight_eq_div_pow]
      omega
    rw [or_shiftLeft_mod hlow (show 24 + 40 = 64 by norm_num), shiftRight_eq_div_pow]
    omega
  rw [hnum, Limbs.value, loadBlock]
  dsimp only
  rw [hb0, hb1, htop, hx2, middle_word h0, and_p44, and_p44]
  omega

/-! ## One round of the loop -/

/-- The bounds of the accumulator between two rounds. -/
structure Small (h : Limbs) : Prop where
  x0 : h.x0 < 2^44
  x1 : h.x1 < 2^45
  x2 : h.x2 < 2^42

/-- The bounds of the accumulator with a block added. -/
structure Wide (h : Limbs) : Prop where
  x0 : h.x0 < 2^45
  x1 : h.x1 < 2^46
  x2 : h.x2 < 2^43

theorem addBlock_spec (hh : Small h) (hb : b.length ≤ 16) :
    (addBlock h (loadBlock b)).value = h.value + blockNum b ∧ Wide (addBlock h (loadBlock b)) := by
  obtain ⟨hval, h0, h1, h2⟩ := loadBlock_spec hb
  obtain ⟨hx0, hx1, hx2⟩ := hh
  have e0 : (h.x0 + (loadBlock b).x0) % 2^64 = h.x0 + (loadBlock b).x0 := by omega
  have e1 : (h.x1 + (loadBlock b).x1) % 2^64 = h.x1 + (loadBlock b).x1 := by omega
  have e2 : (h.x2 + (loadBlock b).x2) % 2^64 = h.x2 + (loadBlock b).x2 := by omega
  constructor
  · rw [← hval, addBlock, Limbs.value, Limbs.value, Limbs.value, e0, e1, e2]
    ring
  · rw [addBlock, e0, e1, e2]
    constructor <;> dsimp only <;> omega

/-- The products are a product modulo the prime: `2^132` is `20` there. None of them wraps. -/
theorem mulR_spec {r : Limbs} (hh : Wide h) (hr : SmallR r) :
    (mulR h r).value ≡ h.value * r.value [MOD prime] ∧
      ((mulR h r).x0 < 2^93 ∧ (mulR h r).x1 < 2^93 ∧ (mulR h r).x2 < 2^93) ∧
      (256 ≤ h.value → r.value ≠ 0 → 5 ≤ (mulR h r).value) := by
  obtain ⟨hx0, hx1, hx2⟩ := hh
  obtain ⟨hr0, hr1, hr2⟩ := hr
  have s1 : r.x1 * 20 % 2^64 = r.x1 * 20 := by omega
  have s2 : r.x2 * 20 % 2^64 = r.x2 * 20 := by omega
  have p00 : h.x0 * r.x0 < 2^45 * 2^44 := mul_lt_mul'' hx0 hr0
  have p01 : h.x0 * r.x1 < 2^45 * 2^44 := mul_lt_mul'' hx0 hr1
  have p02 : h.x0 * r.x2 < 2^45 * 2^40 := mul_lt_mul'' hx0 hr2
  have p10 : h.x1 * r.x0 < 2^46 * 2^44 := mul_lt_mul'' hx1 hr0
  have p11 : h.x1 * r.x1 < 2^46 * 2^44 := mul_lt_mul'' hx1 hr1
  have p12 : h.x1 * (r.x2 * 20) < 2^46 * 2^45 := mul_lt_mul'' hx1 (by omega)
  have p20 : h.x2 * r.x0 < 2^43 * 2^44 := mul_lt_mul'' hx2 hr0
  have p21 : h.x2 * (r.x1 * 20) < 2^43 * 2^49 := mul_lt_mul'' hx2 (by omega)
  have p22 : h.x2 * (r.x2 * 20) < 2^43 * 2^45 := mul_lt_mul'' hx2 (by omega)
  have d0 : (h.x0 * r.x0 + h.x1 * (r.x2 * 20) + h.x2 * (r.x1 * 20)) % 2^128
      = h.x0 * r.x0 + h.x1 * (r.x2 * 20) + h.x2 * (r.x1 * 20) := by omega
  have d1 : (h.x0 * r.x1 + h.x1 * r.x0 + h.x2 * (r.x2 * 20)) % 2^128
      = h.x0 * r.x1 + h.x1 * r.x0 + h.x2 * (r.x2 * 20) := by omega
  have d2 : (h.x0 * r.x2 + h.x1 * r.x1 + h.x2 * r.x0) % 2^128
      = h.x0 * r.x2 + h.x1 * r.x1 + h.x2 * r.x0 := by omega
  have hmul : mulR h r = ⟨h.x0 * r.x0 + h.x1 * (r.x2 * 20) + h.x2 * (r.x1 * 20),
      h.x0 * r.x1 + h.x1 * r.x0 + h.x2 * (r.x2 * 20),
      h.x0 * r.x2 + h.x1 * r.x1 + h.x2 * r.x0⟩ := by
    rw [mulR, s1, s2, d0, d1, d2]
  rw [hmul]
  refine ⟨?_, ?_, ?_⟩
  · -- what the full product has from `2^132` on is folded down, which takes off a multiple of `4p`
    have hfold : h.value * r.value = (Limbs.mk (h.x0 * r.x0 + h.x1 * (r.x2 * 20) + h.x2 * (r.x1 * 20))
        (h.x0 * r.x1 + h.x1 * r.x0 + h.x2 * (r.x2 * 20))
        (h.x0 * r.x2 + h.x1 * r.x1 + h.x2 * r.x0)).value
        + prime * (4 * (h.x1 * r.x2 + h.x2 * r.x1 + h.x2 * r.x2 * 2^44)) := by
      simp only [Limbs.value]
      norm_num
      ring
    rw [hfold]
    exact (add_mul_mod_self_left _ _ _).symm
  · dsimp only
    omega
  · -- some limb of each factor is positive, and every product of two limbs counts at least once
    intro hval hne
    rw [Limbs.value] at hval hne
    have hlimb : 256 ≤ h.x0 ∨ 1 ≤ h.x1 ∨ 1 ≤ h.x2 := by omega
    have hfactor : 1 ≤ r.x0 ∨ 1 ≤ r.x1 ∨ 1 ≤ r.x2 := by omega
    simp only [Limbs.value]
    rcases hlimb with hl | hl | hl <;> rcases hfactor with hf | hf | hf <;>
      have hone := Nat.mul_le_mul hl hf <;>
      have htwenty := Nat.mul_le_mul hl (Nat.mul_le_mul_right 20 hf) <;> omega

/-- The carries keep the number modulo the prime and bring the limbs back into their bounds. What
they take off the top comes back at least five times. -/
theorem carryMul_spec {d : Limbs} (h0 : d.x0 < 2^93) (h1 : d.x1 < 2^93) (h2 : d.x2 < 2^93) :
    (carryMul d).value ≡ d.value [MOD prime] ∧ Small (carryMul d) ∧
      (5 ≤ d.value → 5 ≤ (carryMul d).value) := by
  obtain ⟨d0, d1, d2⟩ := d
  generalize hc0 : d0 / 2^44 = c0
  generalize hc1 : (d1 + c0) / 2^44 = c1
  generalize hc2 : (d2 + c1) / 2^42 = c2
  dsimp only at h0 h1 h2
  have hcarry : carryMul ⟨d0, d1, d2⟩ = ⟨(d0 % 2^44 + c2 * 5) % 2^44,
      (d1 + c0) % 2^44 + (d0 % 2^44 + c2 * 5) / 2^44, (d2 + c1) % 2^42⟩ := by
    have b0 : d0 / 2^44 % 2^64 = c0 := by omega
    have b1 : (d1 + c0) % 2^128 = d1 + c0 := by omega
    have b2 : (d1 + c0) / 2^44 % 2^64 = c1 := by omega
    have b3 : (d2 + c1) % 2^128 = d2 + c1 := by omega
    have b4 : (d2 + c1) / 2^42 % 2^64 = c2 := by omega
    have low : ∀ x, x % 2^64 % 2^44 = x % 2^44 := by omega
    have low' : (d2 + c1) % 2^64 % 2^42 = (d2 + c1) % 2^42 := by omega
    have b5 : (d0 % 2^44 + c2 * 5 % 2^64) % 2^64 = d0 % 2^44 + c2 * 5 := by omega
    have b6 : ((d1 + c0) % 2^44 + (d0 % 2^44 + c2 * 5) / 2^44) % 2^64
        = (d1 + c0) % 2^44 + (d0 % 2^44 + c2 * 5) / 2^44 := by omega
    simp only [carryMul, shiftRight_eq_div_pow, and_p44, and_p42, b0, b1, b2, b3, b4, low, low', b5, b6]
  rw [hcarry]
  have hfold : (Limbs.mk d0 d1 d2).value = (Limbs.mk ((d0 % 2^44 + c2 * 5) % 2^44)
      ((d1 + c0) % 2^44 + (d0 % 2^44 + c2 * 5) / 2^44) ((d2 + c1) % 2^42)).value
      + prime * c2 := by
    simp only [Limbs.value, prime]
    omega
  refine ⟨?_, ?_, ?_⟩
  · rw [hfold]
    exact (add_mul_mod_self_left _ _ _).symm
  · constructor <;> dsimp only <;> omega
  · intro hfive
    rcases Nat.eq_zero_or_pos c2 with hzero | hpos
    · rw [hfold, hzero, mul_zero, add_zero] at hfive
      rw [hzero]
      exact hfive
    · simp only [Limbs.value]
      omega

/-- One round: the block is added and the sum multiplied by `r`. -/
theorem round_spec {r : Limbs} (hh : Small h) (hr : SmallR r) (hb : b.length ≤ 16) :
    (carryMul (mulR (addBlock h (loadBlock b)) r)).value
        ≡ (h.value + blockNum b) * r.value [MOD prime] ∧
      Small (carryMul (mulR (addBlock h (loadBlock b)) r)) ∧
      (b ≠ [] → r.value ≠ 0 → 5 ≤ (carryMul (mulR (addBlock h (loadBlock b)) r)).value) := by
  obtain ⟨hadd, hwide⟩ := addBlock_spec hh hb
  obtain ⟨hmul, ⟨h0, h1, h2⟩, hfive⟩ := mulR_spec hwide hr
  obtain ⟨hcarry, hsmall, hkeep⟩ := carryMul_spec h0 h1 h2
  rw [hadd] at hmul hfive
  refine ⟨hcarry.trans hmul, hsmall, fun hne hr0 => hkeep (hfive ?_ hr0)⟩
  -- the appended bit stands above at least one byte
  have hpow : 256^1 ≤ 256^b.length := Nat.pow_le_pow_right (by norm_num) (length_pos_iff.mpr hne)
  rw [blockNum]
  omega

/-! ## The loop -/

theorem block_drop (msg : List UInt8) (i : ℕ) : block (msg.drop 16) i = block msg (i + 1) := by
  rw [block, block, drop_drop, mul_succ, add_comm 16]

theorem blockCount_drop (h : msg.length > 0) : blockCount msg = blockCount (msg.drop 16) + 1 := by
  rw [blockCount, blockCount, length_drop]
  omega

/-- The first block of a message takes the highest power. -/
theorem polySum_step (r : ℕ) (h : msg.length > 0) :
    polySum r msg
      = polySum r (msg.drop 16) + blockNum (msg.take 16) * r^(blockCount (msg.drop 16) + 1) := by
  rw [polySum, blockCount_drop h, Finset.sum_range_succ', polySum]
  congr 1
  apply Finset.sum_congr rfl
  intro i _
  rw [block_drop, Nat.add_sub_add_right]

/-- What the loop computes: the accumulator it starts with is one more summand. -/
theorem polyLoop_spec {r : Limbs} (hr : SmallR r) (n : ℕ) (hn : msg.length ≤ n) (hh : Small h) :
    (polyLoop r n msg h).value
        ≡ h.value * r.value^(blockCount msg) + polySum r.value msg [MOD prime] ∧
      Small (polyLoop r n msg h) ∧
      (5 ≤ h.value ∨ msg ≠ [] → r.value ≠ 0 → 5 ≤ (polyLoop r n msg h).value) := by
  induction n generalizing msg h with
  | zero =>
    have hnil : msg = [] := length_eq_zero_iff.mp (le_zero.mp hn)
    subst hnil
    refine ⟨?_, hh, fun hfive _ => hfive.resolve_right (fun hne => hne rfl)⟩
    simp [polyLoop, blockCount, polySum, Nat.ModEq]
  | succ n ih =>
    rw [polyLoop]
    split_ifs with hpos
    · obtain ⟨hround, hsmall, hfive⟩ := round_spec hh hr (length_take_le 16 msg)
      have hdrop : (msg.drop 16).length ≤ n := by
        rw [length_drop]
        omega
      obtain ⟨hloop, hsmall', hfive'⟩ := ih hdrop hsmall
      have hblock : msg.take 16 ≠ [] := by
        apply length_pos_iff.mp
        rw [length_take]
        omega
      refine ⟨hloop.trans ?_, hsmall', fun _ hr0 => hfive' (.inl (hfive hblock hr0)) hr0⟩
      rw [polySum_step _ hpos, blockCount_drop hpos]
      calc _ ≡ (h.value + blockNum (msg.take 16)) * r.value * r.value^(blockCount (msg.drop 16))
              + polySum r.value (msg.drop 16) [MOD prime] :=
            (hround.mul_right _).add_right _
        _ = _ := by ring
    · have hnil : msg = [] := length_eq_zero_iff.mp (by omega)
      subst hnil
      refine ⟨?_, hh, fun hfive _ => hfive.resolve_right (fun hne => hne rfl)⟩
      simp [blockCount, polySum, Nat.ModEq]

/-- With the multiplier zero the accumulator stays zero. -/
theorem polyLoop_zero (n : ℕ) (msg : List UInt8) : polyLoop ⟨0, 0, 0⟩ n msg ⟨0, 0, 0⟩ = ⟨0, 0, 0⟩ := by
  induction n generalizing msg with
  | zero => rfl
  | succ n ih =>
    have hround : ∀ h, carryMul (mulR h ⟨0, 0, 0⟩) = ⟨0, 0, 0⟩ := by
      intro h
      have hmul : mulR h ⟨0, 0, 0⟩ = ⟨0, 0, 0⟩ := by simp [mulR]
      rw [hmul]
      rfl
    rw [polyLoop, hround, ih, ite_self]

/-! ## The last reduction -/

/-- The bounds of the accumulator after the last carries. -/
structure Carried (h : Limbs) : Prop where
  x0 : h.x0 < 2^44
  x1 : h.x1 < 2^44
  x2 : h.x2 < 2^42

/-- The last carries keep the number modulo the prime and bring the limbs into their own bits. What
they take off the top comes back five times. -/
theorem finalCarry_spec (hh : Small h) :
    (finalCarry h).value ≡ h.value [MOD prime] ∧ Carried (finalCarry h) ∧
      (5 ≤ h.value → 5 ≤ (finalCarry h).value) := by
  obtain ⟨h0, h1, h2⟩ := h
  obtain ⟨hx0, hx1, hx2⟩ := hh
  dsimp only at hx0 hx1 hx2
  generalize hc : (h2 + h1 / 2^44) / 2^42 = c
  have hcarry : finalCarry ⟨h0, h1, h2⟩ = ⟨(h0 + c * 5) % 2^44,
      (h1 % 2^44 + (h0 + c * 5) / 2^44) % 2^44,
      (h2 + h1 / 2^44) % 2^42 + (h1 % 2^44 + (h0 + c * 5) / 2^44) / 2^44⟩ := by
    have b0 : (h2 + h1 / 2^44) % 2^64 = h2 + h1 / 2^44 := by omega
    have b1 : (h0 + c * 5 % 2^64) % 2^64 = h0 + c * 5 := by omega
    have b2 : (h1 % 2^44 + (h0 + c * 5) / 2^44) % 2^64 = h1 % 2^44 + (h0 + c * 5) / 2^44 := by omega
    simp only [finalCarry, shiftRight_eq_div_pow, and_p44, and_p42, b0, hc, b1, b2]
    congr 1
    omega
  rw [hcarry]
  have hfold : (Limbs.mk h0 h1 h2).value = (Limbs.mk ((h0 + c * 5) % 2^44)
      ((h1 % 2^44 + (h0 + c * 5) / 2^44) % 2^44)
      ((h2 + h1 / 2^44) % 2^42 + (h1 % 2^44 + (h0 + c * 5) / 2^44) / 2^44)).value
      + prime * c := by
    simp only [Limbs.value, prime]
    omega
  refine ⟨?_, ?_, ?_⟩
  · rw [hfold]
    exact (add_mul_mod_self_left _ _ _).symm
  · constructor <;> dsimp only <;> omega
  · intro hfive
    rcases Nat.eq_zero_or_pos c with hzero | hpos
    · rw [hfold, hzero, mul_zero, add_zero] at hfive
      rw [hzero]
      exact hfive
    · simp only [Limbs.value]
      omega

/-- The carried accumulator is the sum of the RFC modulo the prime, and it is at least five unless the
multiplier is zero or the message is empty. -/
theorem accumulator_spec (msg : List UInt8) (key : Mem) :
    (accumulator msg key).value ≡ polySum (rfcR key) msg [MOD prime] ∧
      Carried (accumulator msg key) ∧
      (msg ≠ [] → rfcR key ≠ 0 → 5 ≤ (accumulator msg key).value) := by
  have hstart : Small ⟨0, 0, 0⟩ := by constructor <;> norm_num
  obtain ⟨hloop, hsmall, hfive⟩ := polyLoop_spec (clampR_small key) msg.length (le_refl _) hstart
  obtain ⟨hfinal, hcarried, hkeep⟩ := finalCarry_spec hsmall
  have hzero : (Limbs.mk 0 0 0).value = 0 := rfl
  rw [hzero, zero_mul, zero_add, clampR_value] at hloop
  rw [clampR_value] at hfive
  exact ⟨hfinal.trans hloop, hcarried, fun hne hr => hkeep (hfive (.inr hne) hr)⟩

/-- With the multiplier zero, or no message, the accumulator is zero. -/
theorem accumulator_eq_zero {msg : List UInt8} {key : Mem} (h : rfcR key = 0 ∨ msg = []) :
    (accumulator msg key).value = 0 := by
  rcases h with hr | rfl
  · have hclamp : clampR key = ⟨0, 0, 0⟩ := by
      rw [← clampR_value, Limbs.value] at hr
      generalize clampR key = r at hr ⊢
      obtain ⟨r0, r1, r2⟩ := r
      congr 1 <;> dsimp only at hr <;> omega
    rw [accumulator, hclamp, polyLoop_zero]
    rfl
  · rw [accumulator, length_nil, polyLoop]
    rfl

theorem Carried.value_lt (hh : Carried h) : h.value < 2^130 := by
  obtain ⟨h0, h1, h2⟩ := hh
  rw [Limbs.value]
  omega

/-- An accumulator below the prime is kept. -/
theorem condSub_of_lt (hh : Carried h) (hlt : h.value < prime) : condSub h = h := by
  obtain ⟨h0, h1, h2⟩ := h
  obtain ⟨hx0, hx1, hx2⟩ := hh
  simp only [Limbs.value, prime] at hlt hx0 hx1 hx2
  have b0 : (h0 + 5) % 2^64 = h0 + 5 := by omega
  have b1 : (h1 + (h0 + 5) / 2^44) % 2^64 = h1 + (h0 + 5) / 2^44 := by omega
  have hsign : ¬ (h2 + (h1 + (h0 + 5) / 2^44) / 2^44 + 2^64 - 2^42) % 2^64 < 2^63 := by omega
  have hmask : ∀ x, x < 2^44 → x &&& (2^64 - 1) = x := by
    intro x hx
    rw [and_two_pow_sub_one_eq_mod]
    omega
  simp only [condSub, Nat.shiftRight_eq_div_pow, and_p44, b0, b1, signMask, if_neg hsign,
    Nat.sub_self, Nat.and_zero, Nat.or_zero, hmask h0 hx0, hmask h1 hx1]

/-- An accumulator from the prime on has the prime taken off its two low limbs only. -/
theorem condSub_of_ge (hh : Carried h) (hge : prime ≤ h.value) :
    condSub h = ⟨h.value - prime, 0, 2^42 - 1⟩ := by
  obtain ⟨h0, h1, h2⟩ := h
  obtain ⟨hx0, hx1, hx2⟩ := hh
  simp only [Limbs.value, prime] at hge hx0 hx1 hx2 ⊢
  have b0 : (h0 + 5) % 2^64 = h0 + 5 := by omega
  have b1 : (h1 + (h0 + 5) / 2^44) % 2^64 = h1 + (h0 + 5) / 2^44 := by omega
  have hsign : (h2 + (h1 + (h0 + 5) / 2^44) / 2^44 + 2^64 - 2^42) % 2^64 < 2^63 := by omega
  have hmask : ∀ x, x % 2^44 &&& (2^64 - 1) = x % 2^44 := by
    intro x
    rw [and_two_pow_sub_one_eq_mod]
    omega
  have e0 : (h0 + 5) % 2^44 = h0 + h1 * 2^44 + h2 * 2^88 - (2^130 - 5) := by omega
  have e1 : (h1 + (h0 + 5) / 2^44) % 2^44 = 0 := by omega
  have e2 : h2 = 2^42 - 1 := by omega
  simp only [condSub, shiftRight_eq_div_pow, and_p44, b0, b1, signMask, if_pos hsign,
    Nat.sub_zero, Nat.and_zero, Nat.zero_or, hmask]
  rw [e0, e1, ← e2]

/-- The tag holds the number of the limbs plus `s`, modulo `2^128`. -/
theorem packTag_eq (h0 : h.x0 < 2^44) (h1 : h.x1 < 2^44) (key : Mem) :
    packTag h key = leBytes 16 ((h.value + rfcS key) % 2^128) := by
  have f0 : h.x0 ||| (h.x1 <<< 44 % 2^64) = h.x0 + (h.x1 % 2^20) * 2^44 := or_shiftLeft_mod h0 (by norm_num)
  have f1 : (h.x1 >>> 20) ||| (h.x2 <<< 24 % 2^64) = h.x1 / 2^20 + (h.x2 % 2^40) * 2^24 := by
    have hlow : h.x1 >>> 20 < 2^24 := by
      rw [shiftRight_eq_div_pow]
      omega
    rw [or_shiftLeft_mod hlow (show 40 + 24 = 64 by norm_num), shiftRight_eq_div_pow]
  have hpad : loadLe key 16 8 ||| loadLe key 24 8 <<< 64 = rfcS key := by
    rw [or_shiftLeft (loadLe_lt key 16), rfcS, rd_sixteen, mul_comm]
  have hlow : h.x0 + (h.x1 % 2^20) * 2^44 < 2^64 := by omega
  rw [packTag, f0, f1, hpad, or_shiftLeft hlow, shiftRight_eq_div_pow]
  have hwhole : (h.x0 + (h.x1 % 2^20) * 2^44 + (h.x1 / 2^20 + (h.x2 % 2^40) * 2^24) * 2^64
      + rfcS key) % 2^128 = (h.value + rfcS key) % 2^128 := by
    rw [Limbs.value]
    omega
  have hpow : (2 : ℕ)^64 = 256^8 := by norm_num
  rw [hwhole, hpow, leBytes_mod, leBytes_append]

/-- The tag is right if the carried accumulator is below the prime. -/
theorem poly1305Mac_of_lt {key : Mem} (hlt : (accumulator msg key).value < prime) :
    poly1305Mac msg key = rfcTag msg key := by
  obtain ⟨hmod, hcarried, -⟩ := accumulator_spec msg key
  have hsum : polySum (rfcR key) msg % prime = (accumulator msg key).value % prime := hmod.symm
  rw [poly1305Mac, rfcTag, hsum, condSub_of_lt hcarried hlt,
    packTag_eq hcarried.x0 hcarried.x1, mod_eq_of_lt hlt]

/-- The tag is wrong if the carried accumulator is not below the prime. -/
theorem poly1305Mac_ne_of_ge {key : Mem} (hge' : prime ≤ (accumulator msg key).value) :
    poly1305Mac msg key ≠ rfcTag msg key := by
  obtain ⟨hmod, hcarried, -⟩ := accumulator_spec msg key
  have hsum : polySum (rfcR key) msg % prime = (accumulator msg key).value % prime := hmod.symm
  intro htag
  have hlt := hcarried.value_lt
  have hmod' : (accumulator msg key).value % prime = (accumulator msg key).value - prime := by
    rw [mod_eq_sub_mod hge', mod_eq_of_lt]
    simp only [prime] at hge' ⊢
    omega
  have hsmall : (accumulator msg key).value - prime < 2^44 := by
    simp only [prime] at hge' ⊢
    omega
  generalize hh : (⟨(accumulator msg key).value - prime, 0, 2^42 - 1⟩ : Limbs) = h
  have hx0 : h.x0 < 2^44 := by
    rw [← hh]
    exact hsmall
  have hx1 : h.x1 < 2^44 := by
    rw [← hh]
    exact Nat.two_pow_pos 44
  -- the third limb is left at its maximum, and the two numbers differ by `2^128 - 2^88`
  rw [poly1305Mac, rfcTag, hsum, condSub_of_ge hcarried hge', hh, packTag_eq hx0 hx1,
    leBytes_eq_iff, hmod', ← hh] at htag
  simp only [Limbs.value, prime] at htag hge' hlt
  omega

/-- The condition under which the tag is right: the multiplier is zero, there is no message, or the sum
of the RFC is at least five modulo the prime. -/
def TagRight (msg : List UInt8) (key : Mem) : Prop :=
  rfcR key = 0 ∨ msg = [] ∨ 5 ≤ polySum (rfcR key) msg % prime

instance (msg : List UInt8) (key : Mem) : Decidable (TagRight msg key) :=
  inferInstanceAs (Decidable (_ ∨ _))

/-- The condition says that the carried accumulator is below the prime. -/
theorem accumulator_lt_iff (msg : List UInt8) (key : Mem) :
    (accumulator msg key).value < prime ↔ TagRight msg key := by
  obtain ⟨hmod, hcarried, hfive⟩ := accumulator_spec msg key
  have hsum : polySum (rfcR key) msg % prime = (accumulator msg key).value % prime := hmod.symm
  have hlt := hcarried.value_lt
  rw [TagRight, hsum]
  constructor
  · intro hbelow
    rw [mod_eq_of_lt hbelow]
    by_cases hr : rfcR key = 0
    · exact .inl hr
    by_cases hmsg : msg = []
    · exact .inr (.inl hmsg)
    · exact .inr (.inr (hfive hmsg hr))
  · rintro (hr | hmsg | hres)
    · rw [accumulator_eq_zero (.inl hr)]
      norm_num
    · rw [accumulator_eq_zero (.inr hmsg)]
      norm_num
    · simp only [prime] at hres ⊢
      omega

/-- The tag is right under the condition. -/
theorem poly1305Mac_of_tagRight {key : Mem} (h : TagRight msg key) : poly1305Mac msg key = rfcTag msg key :=
  poly1305Mac_of_lt ((accumulator_lt_iff msg key).mpr h)

/-- For every key and every message: the tag is the one of RFC 8439 exactly when the clamped `r` is
zero, the message is empty, or the sum of the RFC is at least five modulo the prime. -/
theorem poly1305Mac_eq_iff (msg : List UInt8) (key : Mem) :
    poly1305Mac msg key = rfcTag msg key ↔
      rfcR key = 0 ∨ msg = [] ∨ 5 ≤ polySum (rfcR key) msg % prime := by
  constructor
  · intro htag
    apply (accumulator_lt_iff msg key).mp
    by_contra hge
    exact poly1305Mac_ne_of_ge (Nat.le_of_not_lt hge) htag
  · exact poly1305Mac_of_tagRight

/-- Under the key `r = 1`, `s = 0`, two blocks whose numbers add up to the prime. The sum is zero,
and so is its tag, but the code's tag keeps the bits of the third limb. -/
theorem poly1305Mac_at_prime :
    poly1305Mac (List.replicate 16 255 ++ 252 :: List.replicate 15 255) (fun i => if i = 0 then 1 else 0)
        = List.replicate 11 0 ++ List.replicate 5 255 ∧
      rfcTag (List.replicate 16 255 ++ 252 :: List.replicate 15 255) (fun i => if i = 0 then 1 else 0)
        = List.replicate 16 0 := by
  decide +kernel

end FreeAsd.Poly1305
