import FreeAsd.Net.X25519Bytes
import Mathlib.Tactic.IntervalCases

/-!
# X25519: the ladder

The ladder of the code follows that of RFC 7748 round by round: the limbs denote its field elements and stay
small enough for sums and differences to be factors (`Follows`). One round keeps this (`Follows.round`), so
the loop does (`Follows.loop`).
-/

namespace FreeAsd.X25519

open BitVec

/-! ## Swaps -/

theorem cswapLimb_zero {f g : ℤ} (hf : -2^31 ≤ f ∧ f < 2^31) (hg : -2^31 ≤ g ∧ g < 2^31) :
    cswapLimb (0 - BitVec.ofNat 32 0) f g = (f, g) := by
  have hmask : (0 - BitVec.ofNat 32 0 : BitVec 32) = 0#32 := by decide
  rw [cswapLimb, hmask, and_zero, xor_zero, xor_zero, toInt_ofInt_eq_self (by norm_num) hf.1 hf.2,
    toInt_ofInt_eq_self (by norm_num) hg.1 hg.2]

theorem cswapLimb_one {f g : ℤ} (hf : -2^31 ≤ f ∧ f < 2^31) (hg : -2^31 ≤ g ∧ g < 2^31) :
    cswapLimb (0 - BitVec.ofNat 32 1) f g = (g, f) := by
  have hmask : (0 - BitVec.ofNat 32 1 : BitVec 32) = BitVec.allOnes 32 := by decide
  have hxor : ∀ a b : BitVec 32, b ^^^ (a ^^^ b) = a := by
    intro a b
    rw [BitVec.xor_comm a b, ← BitVec.xor_assoc, BitVec.xor_self, BitVec.zero_xor]
  rw [cswapLimb, hmask, and_allOnes, hxor, ← BitVec.xor_assoc, BitVec.xor_self, BitVec.zero_xor,
    toInt_ofInt_eq_self (by norm_num) hg.1 hg.2, toInt_ofInt_eq_self (by norm_num) hf.1 hf.2]

/-- Two limbs are swapped if the flag is one. -/
theorem cswapLimb_eq {x y : ℤ} {b : ℕ} (hb : b ≤ 1) (hx : -2^26 ≤ x ∧ x ≤ 2^26) (hy : -2^26 ≤ y ∧ y ≤ 2^26) :
    cswapLimb (0 - BitVec.ofNat 32 b) x y = if b = 1 then (y, x) else (x, y) := by
  have fits : ∀ {x : ℤ}, -2^26 ≤ x ∧ x ≤ 2^26 → -2^31 ≤ x ∧ x < 2^31 := by
    intro x hx
    omega
  rcases Nat.le_one_iff_eq_zero_or_eq_one.mp hb with rfl | rfl
  · exact cswapLimb_zero (fits hx) (fits hy)
  · exact cswapLimb_one (fits hx) (fits hy)

/-- `fe_cswap` swaps if the flag is one and does nothing if it is zero. -/
theorem feCswap_eq {f g : Fe} {b : ℕ} (hf : f.Within (2^26) (2^26)) (hg : g.Within (2^26) (2^26))
    (hb : b ≤ 1) : feCswap f g b = if b = 1 then (g, f) else (f, g) := by
  obtain ⟨f0, f1, f2, f3, f4, f5, f6, f7, f8, f9⟩ := hf
  obtain ⟨g0, g1, g2, g3, g4, g5, g6, g7, g8, g9⟩ := hg
  simp only [feCswap, cswapLimb_eq hb f0 g0, cswapLimb_eq hb f1 g1, cswapLimb_eq hb f2 g2,
    cswapLimb_eq hb f3 g3, cswapLimb_eq hb f4 g4, cswapLimb_eq hb f5 g5, cswapLimb_eq hb f6 g6,
    cswapLimb_eq hb f7 g7, cswapLimb_eq hb f8 g8, cswapLimb_eq hb f9 g9]
  split_ifs <;> rfl

/-! ## One round -/

theorem Fits.left {f g : Fe} (h : Fits f g) : f.Wide := by
  obtain ⟨E, O, E', O', hf, hg, hE, hO⟩ := h
  have h0 := hg.h0
  have h1 := hg.h1
  exact hf.mono (by omega) (by omega)

theorem Fits.right {f g : Fe} (h : Fits f g) : g.Wide := by
  obtain ⟨E, O, E', O', hf, hg, hE, hO⟩ := h
  have h0 := hf.h0
  have h1 := hf.h1
  exact hg.mono (by omega) (by omega)

/-- The state of the code follows the state of the RFC. -/
structure Follows (s : Ladder Fe) (r : Ladder Field) : Prop where
  x2 : s.x2.num = r.x2
  z2 : s.z2.num = r.z2
  x3 : s.x3.num = r.x3
  z3 : s.z3.num = r.z3
  swap : s.swap = r.swap
  flag : s.swap ≤ 1
  pair2 : Fits s.x2 s.z2
  pair3 : Fits s.x3 s.z3

namespace Follows

variable {s : Ladder Fe} {r : Ladder Field} (h : Follows s r)

include h

/-- Setting the flag. -/
theorem setSwap {b : ℕ} (hb : b ≤ 1) : Follows { s with swap := b } { r with swap := b } :=
  ⟨h.x2, h.z2, h.x3, h.z3, rfl, hb, h.pair2, h.pair3⟩

theorem swapPairs : Follows (swapPairs s) (rfcSwap r) := by
  have room : ∀ {f : Fe}, f.Wide → f.Within (2^26) (2^26) := fun hf => hf.mono le_rfl (by norm_num)
  rw [X25519.swapPairs, rfcSwap, feCswap_eq (room h.pair2.left) (room h.pair3.left) h.flag,
    feCswap_eq (room h.pair2.right) (room h.pair3.right) h.flag, ← h.swap]
  split_ifs with hone
  · exact ⟨h.x3, h.z3, h.x2, h.z2, rfl, h.flag, h.pair3, h.pair2⟩
  · exact h

/-- The field operations of one round. -/
theorem step {x1 : Fe} {u : Field} (hx1 : x1.Wide) (hu : x1.num = u) :
    ∃ s', ladderStep x1 s = some s' ∧ Follows s' (rfcStep u r) := by
  obtain ⟨A, eA, nA, wA⟩ := feAdd_spec h.pair2
  obtain ⟨AA, eAA, nAA, tAA⟩ := feSq_spec wA
  obtain ⟨B, eB, nB, wB⟩ := feSub_spec h.pair2
  obtain ⟨BB, eBB, nBB, tBB⟩ := feSq_spec wB
  obtain ⟨E, eE, nE, wE⟩ := feSub_spec (fits_of_tight tAA tBB)
  obtain ⟨C, eC, nC, wC⟩ := feAdd_spec h.pair3
  obtain ⟨D, eD, nD, wD⟩ := feSub_spec h.pair3
  obtain ⟨DA, eDA, nDA, tDA⟩ := feMul_spec wD wA
  obtain ⟨CB, eCB, nCB, tCB⟩ := feMul_spec wC wB
  obtain ⟨S, eS, nS, wS⟩ := feAdd_spec (fits_of_tight tDA tCB)
  obtain ⟨x3, ex3, nx3, tx3⟩ := feSq_spec wS
  obtain ⟨T, eT, nT, wT⟩ := feSub_spec (fits_of_tight tDA tCB)
  obtain ⟨TT, eTT, nTT, tTT⟩ := feSq_spec wT
  obtain ⟨z3, ez3, nz3, tz3⟩ := feMul_spec hx1 tTT.wide
  obtain ⟨x2, ex2, nx2, tx2⟩ := feMul_spec tAA.wide tBB.wide
  obtain ⟨M, eM, nM, tM⟩ := feMul121665_spec wE
  obtain ⟨N, eN, nN, wN⟩ := feAdd_spec (fits_of_tight tM tAA)
  obtain ⟨z2, ez2, nz2, tz2⟩ := feMul_spec wE wN
  refine ⟨{ s with x2, z2, x3, z3 }, ?_, ?_, ?_, ?_, ?_, h.swap, h.flag, fits_of_tight tx2 tz2,
    fits_of_tight tx3 tz3⟩
  · rw [ladderStep, bind_of_some eA, bind_of_some eAA, bind_of_some eB, bind_of_some eBB,
      bind_of_some eE, bind_of_some eC, bind_of_some eD, bind_of_some eDA, bind_of_some eCB,
      bind_of_some eS, bind_of_some ex3, bind_of_some eT, bind_of_some eTT, bind_of_some ez3,
      bind_of_some ex2, bind_of_some eM, bind_of_some eN, bind_of_some ez2]
    rfl
  · rw [nx2, nAA, nBB, nA, nB, h.x2, h.z2]
    rfl
  · rw [nz2, nN, nM, nE, nAA, nBB, nA, nB, h.x2, h.z2, add_comm (121665 * _)]
    rfl
  · rw [nx3, nS, nDA, nCB, nC, nD, nA, nB, h.x2, h.z2, h.x3, h.z3]
    rfl
  · rw [nz3, nTT, nT, nDA, nCB, nC, nD, nA, nB, h.x2, h.z2, h.x3, h.z3, hu]
    rfl

theorem round {x1 : Fe} {u : Field} (hx1 : x1.Wide) (hu : x1.num = u) {kt : ℕ} (hkt : kt ≤ 1) :
    ∃ s', ladderRound x1 kt s = some s' ∧ Follows s' (rfcRound u kt r) := by
  have hflag : s.swap ^^^ kt ≤ 1 := Nat.lt_succ_iff.mp
    (Nat.xor_lt_two_pow (Nat.lt_succ_of_le h.flag) (Nat.lt_succ_of_le hkt) : _ < 2^1)
  have hset := h.setSwap hflag
  rw [h.swap] at hset
  rw [ladderRound, h.swap]
  exact (hset.swapPairs.setSwap hkt).step hx1 hu

end Follows

/-! ## The loop -/

/-- Thirty-two bytes, by the first, the last and those between. -/
theorem rd_ends (m : Mem) : Mem.rd m 0 32 = (m 0).toNat + 256 * Mem.rd m 1 30 + (m 31).toNat * 256^31 :=
  rd_succ_last m 0 31

/-- The clamped bytes are the number that the RFC decodes. -/
theorem rd_clampScalar (k : Mem) : Mem.rd (clampScalar k) 0 32 = decodeScalar k := by
  have hmid : Mem.rd (clampScalar k) 1 30 = Mem.rd k 1 30 := by
    apply Mem.rd_congr
    intro x hlo hhi
    rw [clampScalar, if_neg (by omega), if_neg (by omega)]
  have hfirst : ∀ b < 256, b &&& 248 = b - b % 8 := by decide +kernel
  have hlast : ∀ b < 256, (b &&& 127) ||| 64 = b % 64 + 64 := by decide +kernel
  have hbyte := (k 0).toNat_lt
  have h0 : (clampScalar k 0).toNat = (k 0).toNat - (k 0).toNat % 8 := hfirst _ hbyte
  have h31 : (clampScalar k 31).toNat = (k 31).toNat % 64 + 64 := hlast _ (k 31).toNat_lt
  have hlt : Mem.rd k 1 30 < 256^30 := Mem.rd_lt
  rw [decodeScalar, rd_ends, rd_ends k, hmid, h0, h31]
  omega

/-- The masked bytes are the number that the RFC decodes. -/
theorem rd_maskCoordinate (u : Mem) : Mem.rd (maskCoordinate u) 0 32 = Mem.rd u 0 32 % 2^255 := by
  have hlow : Mem.rd (maskCoordinate u) 0 31 = Mem.rd u 0 31 := by
    apply Mem.rd_congr
    intro x _ hhi
    rw [maskCoordinate, if_neg (by omega)]
  have h31 : (maskCoordinate u 31).toNat = (u 31).toNat % 128 := Nat.and_two_pow_sub_one_eq_mod (u 31).toNat 7
  have hlt : Mem.rd u 0 31 < 256^31 := Mem.rd_lt
  rw [rd_succ_last, rd_succ_last u, hlow, Nat.zero_add, h31]
  omega

/-- A bit of the scalar, from the byte it is in. -/
theorem scalarBit_eq (k : Mem) {t : ℕ} (ht : t < 256) :
    scalarBit (clampScalar k) t = decodeScalar k >>> t &&& 1 := by
  rw [← rd_clampScalar, scalarBit]
  generalize clampScalar k = m
  generalize hi : t / 8 = i
  generalize hj : t % 8 = j
  obtain ⟨l, hl⟩ : ∃ l, 32 = i + (l + 1) := ⟨32 - i - 1, by omega⟩
  have hpow : 2^t = 256^i * 2^j := by
    have hsum : t = 8 * i + j := by omega
    rw [hsum, Nat.pow_add, Nat.pow_mul]
  have hlow : Mem.rd m 0 i < 256^i := Mem.rd_lt
  have hdiv : Mem.rd m 0 32 / 256^i = (m i).toNat + 256 * Mem.rd m (i + 1) l := by
    rw [hl, rd_add, Nat.add_mul_div_left _ _ (Nat.pow_pos (by norm_num)), Nat.div_eq_of_lt hlow,
      Nat.zero_add, Nat.zero_add, Mem.rd]
  rw [Nat.and_one_is_mod, Nat.and_one_is_mod, Nat.shiftRight_eq_div_pow,
    Nat.shiftRight_eq_div_pow, hpow, ← Nat.div_div_eq_div_mul, hdiv]
  have hj' : j < 8 := by omega
  interval_cases j <;> omega

theorem Follows.loop {x1 : Fe} {u : Field} (hx1 : x1.Wide) (hu : x1.num = u) (k : Mem) {t : ℕ}
    (ht : t < 256) {s : Ladder Fe} {r : Ladder Field} (h : Follows s r) :
    ∃ s', ladderLoop x1 (clampScalar k) t s = some s' ∧
      Follows s' (rfcLoop u (decodeScalar k) t r) := by
  induction t generalizing s r with
  | zero => exact ⟨s, rfl, h⟩
  | succ t ih =>
    have ht' : t < 256 := by omega
    have hbit : decodeScalar k >>> t &&& 1 ≤ 1 := Nat.and_le_right
    obtain ⟨s', hs', h'⟩ := h.round hx1 hu hbit
    obtain ⟨s'', hs'', h''⟩ := ih ht' h'
    refine ⟨s'', ?_, h''⟩
    rw [ladderLoop, scalarBit_eq k ht', bind_of_some hs', hs'']

/-! ## The whole function -/

/-- The coordinate without its top bit is below `2^255`, so `fe_load` reads all of it. -/
theorem feLoad_maskCoordinate (u : Mem) : (feLoad (maskCoordinate u)).num = decodeUCoordinate u := by
  rw [Fe.num, feLoad_value, rd_maskCoordinate, Nat.mod_mod, Int.cast_natCast, decodeUCoordinate]

/-- The states at the start of the two loops. -/
theorem follows_start (u : Mem) :
    Follows ⟨Fe.one, Fe.zero, feLoad (maskCoordinate u), Fe.one, 0⟩
      ⟨1, 0, decodeUCoordinate u, 1, 0⟩ := by
  have hone : Fe.one.Within 1 0 := by constructor <;> decide
  have hzero : Fe.zero.Within 0 0 := by constructor <;> decide
  have none : Fe.one.num = 1 := Int.cast_one
  have nzero : Fe.zero.num = 0 := Int.cast_zero
  exact ⟨none, nzero, feLoad_maskCoordinate u, none, rfl, Nat.zero_le 1,
    ⟨_, _, _, _, hone, hzero, by norm_num, by norm_num⟩,
    ⟨_, _, _, _, feLoad_within _, hone, by norm_num, by norm_num⟩⟩

/-- For every scalar and every coordinate `x25519` has a result, so that no signed operation in it
overflows, and it is that of RFC 7748. The inversion raises every element within the bounds of a factor to
the power `p - 2`. -/
theorem x25519_eq (k u : Mem) :
    x25519 k u = some (rfcX25519 k u) ∧
      ∀ z : Fe, z.Wide → ∃ r, feInvert z = some r ∧ r.num = z.num^(prime - 2) := by
  constructor
  · have hx1 : (feLoad (maskCoordinate u)).Wide :=
      (feLoad_within _).mono (by norm_num) (by norm_num)
    obtain ⟨s, hs, hfollows⟩ :=
      (follows_start u).loop hx1 (feLoad_maskCoordinate u) k (show 255 < 256 by norm_num)
    have hend := hfollows.swapPairs
    obtain ⟨z, hz, hinv, htz⟩ := feInvert_spec hend.pair2.right
    obtain ⟨x, hx, hmul, htx⟩ := feMul_spec hend.pair2.left htz.wide
    rw [x25519, rfcX25519]
    rw [bind_of_some hs, bind_of_some hz, bind_of_some hx, feStore_spec htx, hmul, hinv, hend.x2, hend.z2]
  · intro z hz
    obtain ⟨r, hr, hnum, -⟩ := feInvert_spec hz
    exact ⟨r, hr, hnum⟩

/-- The public key of the scalar zero, and the inverse of the base point. -/
theorem x25519_eq_base :
    x25519 (fun _ => 0) (fun i => if i = 0 then 9 else 0)
        = some (rfcX25519 (fun _ => 0) (fun i => if i = 0 then 9 else 0)) ∧
      ∃ r, feInvert ⟨9, 0, 0, 0, 0, 0, 0, 0, 0, 0⟩ = some r ∧
        r.num = (Fe.mk 9 0 0 0 0 0 0 0 0 0).num^(prime - 2) :=
  ⟨(x25519_eq _ _).1, (x25519_eq (fun _ => 0) (fun _ => 0)).2 _ (by constructor <;> decide)⟩

end FreeAsd.X25519
