import FreeAsd.Lib.Words
import FreeAsd.Lib.Checked
import Mathlib.Data.ZMod.Basic

/-!
# X25519

The Diffie-Hellman function of `tls.c`. Every operation on a signed type goes through `sint`, so that a
function has a result only if nothing in it overflows; `c << 26` on a signed carry is multiplication, and `>>`
rounds down. The reference is the procedure of RFC 7748.
-/

namespace FreeAsd.X25519

/-- `fe`: the ten limbs, in `int32_t` or, while a product is carried, in `int64_t`. -/
structure Fe where
  h0 : ℤ
  h1 : ℤ
  h2 : ℤ
  h3 : ℤ
  h4 : ℤ
  h5 : ℤ
  h6 : ℤ
  h7 : ℤ
  h8 : ℤ
  h9 : ℤ
deriving DecidableEq, Repr

/-! ## Loading and storing -/

/-- `fe_load`. -/
def feLoad (s : Mem) : Fe :=
  let s0 := loadLe s 0 4
  let s4 := loadLe s 4 4
  let s8 := loadLe s 8 4
  let s12 := loadLe s 12 4
  let s16 := loadLe s 16 4
  let s20 := loadLe s 20 4
  let s24 := loadLe s 24 4
  let s28 := loadLe s 28 4
  { h0 := (s0 &&& 0x3FFFFFF : ℕ)
    h1 := ((s0 >>> 26 ||| (s4 <<< 6 % 2^32)) &&& 0x1FFFFFF : ℕ)
    h2 := ((s4 >>> 19 ||| (s8 <<< 13 % 2^32)) &&& 0x3FFFFFF : ℕ)
    h3 := ((s8 >>> 13 ||| (s12 <<< 19 % 2^32)) &&& 0x1FFFFFF : ℕ)
    h4 := ((s12 >>> 6 ||| (s16 <<< 26 % 2^32)) &&& 0x3FFFFFF : ℕ)
    h5 := (s16 &&& 0x1FFFFFF : ℕ)
    h6 := ((s16 >>> 25 ||| (s20 <<< 7 % 2^32)) &&& 0x3FFFFFF : ℕ)
    h7 := ((s20 >>> 19 ||| (s24 <<< 13 % 2^32)) &&& 0x1FFFFFF : ℕ)
    h8 := ((s24 >>> 12 ||| (s28 <<< 20 % 2^32)) &&& 0x3FFFFFF : ℕ)
    h9 := ((s28 >>> 6) &&& 0x1FFFFFF : ℕ) }

/-- One step of the quotient in `fe_store`: `q = (h + q) >> b`. -/
def quotStep (b : ℕ) (q h : ℤ) : Option ℤ := do
  let t ← sint 32 (h + q)
  return t / 2^b

/-- The quotient of `fe_store`. -/
def quotient (h : Fe) : Option ℤ := do
  let t ← sint 32 (19 * h.h9)
  let t ← sint 32 (t + 2^24)
  let q := t / 2^25
  let q ← quotStep 26 q h.h0
  let q ← quotStep 25 q h.h1
  let q ← quotStep 26 q h.h2
  let q ← quotStep 25 q h.h3
  let q ← quotStep 26 q h.h4
  let q ← quotStep 25 q h.h5
  let q ← quotStep 26 q h.h6
  let q ← quotStep 25 q h.h7
  let q ← quotStep 26 q h.h8
  quotStep 25 q h.h9

/-- A carry of `fe_store`: `c = h >> b; n += c; h -= c << b`. -/
def floorCarry (b : ℕ) (h n : ℤ) : Option (ℤ × ℤ) := do
  let c := h / 2^b
  let n' ← sint 32 (n + c)
  let t ← sint 32 (c * 2^b)
  let h' ← sint 32 (h - t)
  return (h', n')

/-- The carries of `fe_store`, the last of which is dropped. -/
def floorCarries (h : Fe) : Option Fe := do
  let (h0, h1) ← floorCarry 26 h.h0 h.h1
  let (h1, h2) ← floorCarry 25 h1 h.h2
  let (h2, h3) ← floorCarry 26 h2 h.h3
  let (h3, h4) ← floorCarry 25 h3 h.h4
  let (h4, h5) ← floorCarry 26 h4 h.h5
  let (h5, h6) ← floorCarry 25 h5 h.h6
  let (h6, h7) ← floorCarry 26 h6 h.h7
  let (h7, h8) ← floorCarry 25 h7 h.h8
  let (h8, h9) ← floorCarry 26 h8 h.h9
  let (h9, _) ← floorCarry 25 h9 0
  return ⟨h0, h1, h2, h3, h4, h5, h6, h7, h8, h9⟩

/-- A signed word as an unsigned one of 32 bits: `(uint32_t)h`. -/
def u32 (h : ℤ) : ℕ := (h % 2^32).toNat

/-- The words `t0` to `t7` of `fe_store`. -/
def words (h : Fe) : List ℕ :=
  [u32 h.h0 ||| (u32 h.h1 <<< 26 % 2^32),
    u32 (h.h1 / 2^6) ||| (u32 h.h2 <<< 19 % 2^32),
    u32 (h.h2 / 2^13) ||| (u32 h.h3 <<< 13 % 2^32),
    u32 (h.h3 / 2^19) ||| (u32 h.h4 <<< 6 % 2^32),
    u32 h.h5 ||| (u32 h.h6 <<< 25 % 2^32),
    u32 (h.h6 / 2^7) ||| (u32 h.h7 <<< 19 % 2^32),
    u32 (h.h7 / 2^13) ||| (u32 h.h8 <<< 12 % 2^32),
    u32 (h.h8 / 2^20) ||| (u32 h.h9 <<< 6 % 2^32)]

/-- `fe_store`: the 32 bytes it writes. -/
def feStore (h : Fe) : Option (List UInt8) := do
  let q ← quotient h
  let t ← sint 32 (19 * q)
  let h0 ← sint 32 (h.h0 + t)
  let h ← floorCarries { h with h0 := h0 }
  return (words h).flatMap (leBytes 4)

/-! ## Field operations -/

/-- An operation on every limb. -/
def feZip (op : ℤ → ℤ → ℤ) (f g : Fe) : Option Fe := do
  let h0 ← sint 32 (op f.h0 g.h0)
  let h1 ← sint 32 (op f.h1 g.h1)
  let h2 ← sint 32 (op f.h2 g.h2)
  let h3 ← sint 32 (op f.h3 g.h3)
  let h4 ← sint 32 (op f.h4 g.h4)
  let h5 ← sint 32 (op f.h5 g.h5)
  let h6 ← sint 32 (op f.h6 g.h6)
  let h7 ← sint 32 (op f.h7 g.h7)
  let h8 ← sint 32 (op f.h8 g.h8)
  let h9 ← sint 32 (op f.h9 g.h9)
  return ⟨h0, h1, h2, h3, h4, h5, h6, h7, h8, h9⟩

/-- `fe_add`. -/
def feAdd : Fe → Fe → Option Fe := feZip (· + ·)

/-- `fe_sub`. -/
def feSub : Fe → Fe → Option Fe := feZip (· - ·)

/-- One limb of `fe_cswap`, with the mask of all zeros or all ones. -/
def cswapLimb (mask : BitVec 32) (f g : ℤ) : ℤ × ℤ :=
  let t := (BitVec.ofInt 32 f ^^^ BitVec.ofInt 32 g) &&& mask
  ((BitVec.ofInt 32 f ^^^ t).toInt, (BitVec.ofInt 32 g ^^^ t).toInt)

/-- `fe_cswap`. -/
def feCswap (f g : Fe) (b : ℕ) : Fe × Fe :=
  let mask : BitVec 32 := 0 - BitVec.ofNat 32 b
  let limb (f g : ℤ) := cswapLimb mask f g
  (⟨(limb f.h0 g.h0).1, (limb f.h1 g.h1).1, (limb f.h2 g.h2).1, (limb f.h3 g.h3).1,
      (limb f.h4 g.h4).1, (limb f.h5 g.h5).1, (limb f.h6 g.h6).1, (limb f.h7 g.h7).1,
      (limb f.h8 g.h8).1, (limb f.h9 g.h9).1⟩,
    ⟨(limb f.h0 g.h0).2, (limb f.h1 g.h1).2, (limb f.h2 g.h2).2, (limb f.h3 g.h3).2,
      (limb f.h4 g.h4).2, (limb f.h5 g.h5).2, (limb f.h6 g.h6).2, (limb f.h7 g.h7).2,
      (limb f.h8 g.h8).2, (limb f.h9 g.h9).2⟩)

/-- A multiple of every limb, in `int32_t`: the `g_19` and the `f_2` of `fe_mul`. -/
def feScale (k : ℤ) (f : Fe) : Option Fe := feZip (fun _ x => k * x) f f

/-- The products that make up each column of `fe_mul`. -/
def column (f f2 g g19 : Fe) : Fin 10 → List (ℤ × ℤ)
  | 0 => [(f.h0, g.h0), (f2.h1, g19.h9), (f.h2, g19.h8), (f2.h3, g19.h7), (f.h4, g19.h6),
      (f2.h5, g19.h5), (f.h6, g19.h4), (f2.h7, g19.h3), (f.h8, g19.h2), (f2.h9, g19.h1)]
  | 1 => [(f.h0, g.h1), (f.h1, g.h0), (f.h2, g19.h9), (f.h3, g19.h8), (f.h4, g19.h7),
      (f.h5, g19.h6), (f.h6, g19.h5), (f.h7, g19.h4), (f.h8, g19.h3), (f.h9, g19.h2)]
  | 2 => [(f.h0, g.h2), (f2.h1, g.h1), (f.h2, g.h0), (f2.h3, g19.h9), (f.h4, g19.h8),
      (f2.h5, g19.h7), (f.h6, g19.h6), (f2.h7, g19.h5), (f.h8, g19.h4), (f2.h9, g19.h3)]
  | 3 => [(f.h0, g.h3), (f.h1, g.h2), (f.h2, g.h1), (f.h3, g.h0), (f.h4, g19.h9),
      (f.h5, g19.h8), (f.h6, g19.h7), (f.h7, g19.h6), (f.h8, g19.h5), (f.h9, g19.h4)]
  | 4 => [(f.h0, g.h4), (f2.h1, g.h3), (f.h2, g.h2), (f2.h3, g.h1), (f.h4, g.h0),
      (f2.h5, g19.h9), (f.h6, g19.h8), (f2.h7, g19.h7), (f.h8, g19.h6), (f2.h9, g19.h5)]
  | 5 => [(f.h0, g.h5), (f.h1, g.h4), (f.h2, g.h3), (f.h3, g.h2), (f.h4, g.h1),
      (f.h5, g.h0), (f.h6, g19.h9), (f.h7, g19.h8), (f.h8, g19.h7), (f.h9, g19.h6)]
  | 6 => [(f.h0, g.h6), (f2.h1, g.h5), (f.h2, g.h4), (f2.h3, g.h3), (f.h4, g.h2),
      (f2.h5, g.h1), (f.h6, g.h0), (f2.h7, g19.h9), (f.h8, g19.h8), (f2.h9, g19.h7)]
  | 7 => [(f.h0, g.h7), (f.h1, g.h6), (f.h2, g.h5), (f.h3, g.h4), (f.h4, g.h3),
      (f.h5, g.h2), (f.h6, g.h1), (f.h7, g.h0), (f.h8, g19.h9), (f.h9, g19.h8)]
  | 8 => [(f.h0, g.h8), (f2.h1, g.h7), (f.h2, g.h6), (f2.h3, g.h5), (f.h4, g.h4),
      (f2.h5, g.h3), (f.h6, g.h2), (f2.h7, g.h1), (f.h8, g.h0), (f2.h9, g19.h9)]
  | 9 => [(f.h0, g.h9), (f.h1, g.h8), (f.h2, g.h7), (f.h3, g.h6), (f.h4, g.h5),
      (f.h5, g.h4), (f.h6, g.h3), (f.h7, g.h2), (f.h8, g.h1), (f.h9, g.h0)]

/-- The columns of `fe_mul`, in `int64_t`. -/
def mulColumns (f f2 g g19 : Fe) : Option Fe := do
  let h0 ← dot 64 0 (column f f2 g g19 0)
  let h1 ← dot 64 0 (column f f2 g g19 1)
  let h2 ← dot 64 0 (column f f2 g g19 2)
  let h3 ← dot 64 0 (column f f2 g g19 3)
  let h4 ← dot 64 0 (column f f2 g g19 4)
  let h5 ← dot 64 0 (column f f2 g g19 5)
  let h6 ← dot 64 0 (column f f2 g g19 6)
  let h7 ← dot 64 0 (column f f2 g g19 7)
  let h8 ← dot 64 0 (column f f2 g g19 8)
  let h9 ← dot 64 0 (column f f2 g g19 9)
  return ⟨h0, h1, h2, h3, h4, h5, h6, h7, h8, h9⟩

/-- What the columns add up to if nothing overflows. -/
def columnSums (f f2 g g19 : Fe) : Fe :=
  let c k := dotValue (column f f2 g g19 k)
  ⟨c 0, c 1, c 2, c 3, c 4, c 5, c 6, c 7, c 8, c 9⟩

/-- A rounding carry: `c = (h + (1 << (b - 1))) >> b; n += c * m; h -= c * (1 << b)`. The factor `m`
is 19 where the last limb is carried into the first and 1 everywhere else. -/
def roundCarry (b : ℕ) (m h n : ℤ) : Option (ℤ × ℤ) := do
  let t ← sint 64 (h + 2^(b - 1))
  let c := t / 2^b
  let t ← sint 64 (c * m)
  let n' ← sint 64 (n + t)
  let t ← sint 64 (c * 2^b)
  let h' ← sint 64 (h - t)
  return (h', n')

/-- The carries of `fe_mul`. -/
def mulCarries (h : Fe) : Option Fe := do
  let (h0, h1) ← roundCarry 26 1 h.h0 h.h1
  let (h4, h5) ← roundCarry 26 1 h.h4 h.h5
  let (h1, h2) ← roundCarry 25 1 h1 h.h2
  let (h5, h6) ← roundCarry 25 1 h5 h.h6
  let (h2, h3) ← roundCarry 26 1 h2 h.h3
  let (h6, h7) ← roundCarry 26 1 h6 h.h7
  let (h3, h4) ← roundCarry 25 1 h3 h4
  let (h7, h8) ← roundCarry 25 1 h7 h.h8
  let (h4, h5) ← roundCarry 26 1 h4 h5
  let (h8, h9) ← roundCarry 26 1 h8 h.h9
  let (h9, h0) ← roundCarry 25 19 h9 h0
  let (h0, h1) ← roundCarry 26 1 h0 h1
  return ⟨h0, h1, h2, h3, h4, h5, h6, h7, h8, h9⟩

/-- The conversions to `int32_t` at the end of `fe_mul` and `fe_mul121665`. -/
def narrow (h : Fe) : Option Fe := feZip (fun _ x => x) h h

/-- `fe_mul`. Of the scaled factors the code computes only those its columns use. -/
def feMul (f g : Fe) : Option Fe := do
  let g19 ← feScale 19 { g with h0 := 0 }
  let f2 ← feScale 2 { f with h0 := 0, h2 := 0, h4 := 0, h6 := 0, h8 := 0 }
  let h ← mulColumns f f2 g g19
  let h ← mulCarries h
  narrow h

/-- `fe_sq`. -/
def feSq (f : Fe) : Option Fe := feMul f f

/-- `fe_sq` in place, `n` times. -/
def feSqTimes : ℕ → Fe → Option Fe
  | 0, t => some t
  | n + 1, t => do feSqTimes n (← feSq t)

/-- The first part of `fe_invert`: `z^11` and the powers `2^5 - 1`, `2^10 - 1` and `2^20 - 1`. -/
def invertLow (z1 : Fe) : Option (Fe × Fe × Fe) := do
  let z2 ← feSq z1
  let z9 ← feSq z2
  let z9 ← feSq z9
  let z9 ← feMul z9 z1
  let z11 ← feMul z9 z2
  let t ← feSq z11
  let z2_5_0 ← feMul t z9
  let t ← feSq z2_5_0
  let t ← feSqTimes 4 t
  let z2_10_0 ← feMul t z2_5_0
  let t ← feSq z2_10_0
  let t ← feSqTimes 9 t
  let z2_20_0 ← feMul t z2_10_0
  return (z11, z2_10_0, z2_20_0)

/-- The second part of `fe_invert`. -/
def invertHigh (z11 z2_10_0 z2_20_0 : Fe) : Option Fe := do
  let t ← feSq z2_20_0
  let t ← feSqTimes 19 t
  let t ← feMul t z2_20_0
  let t ← feSqTimes 10 t
  let z2_50_0 ← feMul t z2_10_0
  let t ← feSq z2_50_0
  let t ← feSqTimes 49 t
  let t ← feMul t z2_50_0
  let t2 ← feSq t
  let t2 ← feSqTimes 99 t2
  let t ← feMul t2 t
  let t ← feSqTimes 50 t
  let t ← feMul t z2_50_0
  let t ← feSqTimes 5 t
  feMul t z11

/-- `fe_invert`. -/
def feInvert (z : Fe) : Option Fe := do
  let (z11, z2_10_0, z2_20_0) ← invertLow z
  invertHigh z11 z2_10_0 z2_20_0

/-- The products of `fe_mul121665`, in `int64_t`. -/
def scaleColumns (f : Fe) : Option Fe := do
  let h0 ← sint 64 (f.h0 * 121665)
  let h1 ← sint 64 (f.h1 * 121665)
  let h2 ← sint 64 (f.h2 * 121665)
  let h3 ← sint 64 (f.h3 * 121665)
  let h4 ← sint 64 (f.h4 * 121665)
  let h5 ← sint 64 (f.h5 * 121665)
  let h6 ← sint 64 (f.h6 * 121665)
  let h7 ← sint 64 (f.h7 * 121665)
  let h8 ← sint 64 (f.h8 * 121665)
  let h9 ← sint 64 (f.h9 * 121665)
  return ⟨h0, h1, h2, h3, h4, h5, h6, h7, h8, h9⟩

/-- The carries of `fe_mul121665`. -/
def scaleCarries (h : Fe) : Option Fe := do
  let (h9, h0) ← roundCarry 25 19 h.h9 h.h0
  let (h1, h2) ← roundCarry 25 1 h.h1 h.h2
  let (h3, h4) ← roundCarry 25 1 h.h3 h.h4
  let (h5, h6) ← roundCarry 25 1 h.h5 h.h6
  let (h7, h8) ← roundCarry 25 1 h.h7 h.h8
  let (h0, h1) ← roundCarry 26 1 h0 h1
  let (h2, h3) ← roundCarry 26 1 h2 h3
  let (h4, h5) ← roundCarry 26 1 h4 h5
  let (h6, h7) ← roundCarry 26 1 h6 h7
  let (h8, h9) ← roundCarry 26 1 h8 h9
  return ⟨h0, h1, h2, h3, h4, h5, h6, h7, h8, h9⟩

/-- `fe_mul121665`. -/
def feMul121665 (f : Fe) : Option Fe := do
  let h ← scaleColumns f
  let h ← scaleCarries h
  narrow h

/-! ## The ladder -/

/-- The variables that the loop of `x25519` carries from round to round. -/
structure Ladder (α : Type) where
  x2 : α
  z2 : α
  x3 : α
  z3 : α
  swap : ℕ
deriving DecidableEq, Repr

/-- The two swaps: `fe_cswap(x2, x3, swap); fe_cswap(z2, z3, swap)`. -/
def swapPairs (s : Ladder Fe) : Ladder Fe :=
  let (x2, x3) := feCswap s.x2 s.x3 s.swap
  let (z2, z3) := feCswap s.z2 s.z3 s.swap
  { s with x2, z2, x3, z3 }

/-- The field operations of one round. -/
def ladderStep (x1 : Fe) (s : Ladder Fe) : Option (Ladder Fe) := do
  let A ← feAdd s.x2 s.z2
  let AA ← feSq A
  let B ← feSub s.x2 s.z2
  let BB ← feSq B
  let E ← feSub AA BB
  let C ← feAdd s.x3 s.z3
  let D ← feSub s.x3 s.z3
  let DA ← feMul D A
  let CB ← feMul C B
  let x3 ← feAdd DA CB
  let x3 ← feSq x3
  let z3 ← feSub DA CB
  let z3 ← feSq z3
  let z3 ← feMul x1 z3
  let x2 ← feMul AA BB
  let z2 ← feMul121665 E
  let z2 ← feAdd z2 AA
  let z2 ← feMul E z2
  return { s with x2, z2, x3, z3 }

/-- One round of the loop, for the bit `kt`. -/
def ladderRound (x1 : Fe) (kt : ℕ) (s : Ladder Fe) : Option (Ladder Fe) := do
  let s := swapPairs { s with swap := s.swap ^^^ kt }
  ladderStep x1 { s with swap := kt }

/-- The bit `t` of the scalar: `(ks[t/8] >> (t%8)) & 1`. -/
def scalarBit (ks : Mem) (t : ℕ) : ℕ := (ks (t / 8)).toNat >>> (t % 8) &&& 1

/-- The loop of `x25519`, for `t` rounds to go. -/
def ladderLoop (x1 : Fe) (ks : Mem) : ℕ → Ladder Fe → Option (Ladder Fe)
  | 0, s => some s
  | t + 1, s => do ladderLoop x1 ks t (← ladderRound x1 (scalarBit ks t) s)

/-- The clamped scalar `ks`. -/
def clampScalar (k : Mem) : Mem := fun i =>
  if i = 0 then k 0 &&& 248 else if i = 31 then (k 31 &&& 127) ||| 64 else k i

/-- The coordinate `us` without its top bit. -/
def maskCoordinate (u : Mem) : Mem := fun i => if i = 31 then u 31 &&& 127 else u i

/-- The numbers zero and one. -/
def Fe.zero : Fe := ⟨0, 0, 0, 0, 0, 0, 0, 0, 0, 0⟩

@[inherit_doc Fe.zero]
def Fe.one : Fe := ⟨1, 0, 0, 0, 0, 0, 0, 0, 0, 0⟩

/-- `x25519`: the 32 bytes it writes. -/
def x25519 (k u : Mem) : Option (List UInt8) := do
  let ks := clampScalar k
  let x1 := feLoad (maskCoordinate u)
  let s ← ladderLoop x1 ks 255 { x2 := Fe.one, z2 := Fe.zero, x3 := x1, z3 := Fe.one, swap := 0 }
  let s := swapPairs s
  let z2 ← feInvert s.z2
  let x2 ← feMul s.x2 z2
  feStore x2

/-! ## RFC 7748 -/

/-- The prime `2^255 - 19`. -/
abbrev prime : ℕ := 2^255 - 19

/-- The field of the curve. -/
abbrev Field := ZMod prime

/-- `decodeScalar25519`: the number of the bytes with its three low bits and bit 255 cleared and bit
254 set. -/
def decodeScalar (k : Mem) : ℕ :=
  let n := Mem.rd k 0 32
  n % 2^254 - n % 8 + 2^254

/-- `decodeUCoordinate`: the number of the bytes without bit 255. -/
def decodeUCoordinate (u : Mem) : Field := (Mem.rd u 0 32 % 2^255 : ℕ)

/-- `cswap` on both pairs. -/
def rfcSwap (s : Ladder Field) : Ladder Field :=
  if s.swap = 1 then { s with x2 := s.x3, z2 := s.z3, x3 := s.x2, z3 := s.z2 } else s

/-- The formulas of one round. -/
def rfcStep (x1 : Field) (s : Ladder Field) : Ladder Field :=
  let A := s.x2 + s.z2
  let AA := A^2
  let B := s.x2 - s.z2
  let BB := B^2
  let E := AA - BB
  let C := s.x3 + s.z3
  let D := s.x3 - s.z3
  let DA := D * A
  let CB := C * B
  { s with
    x3 := (DA + CB)^2
    z3 := x1 * (DA - CB)^2
    x2 := AA * BB
    z2 := E * (AA + 121665 * E) }

/-- One round, for the bit `kt`. -/
def rfcRound (x1 : Field) (kt : ℕ) (s : Ladder Field) : Ladder Field :=
  let s := rfcSwap { s with swap := s.swap ^^^ kt }
  rfcStep x1 { s with swap := kt }

/-- The loop over the bits of the scalar, from the highest. -/
def rfcLoop (x1 : Field) (k : ℕ) : ℕ → Ladder Field → Ladder Field
  | 0, s => s
  | t + 1, s => rfcLoop x1 k t (rfcRound x1 ((k >>> t) &&& 1) s)

/-- The X25519 function of RFC 7748. -/
def rfcX25519 (k u : Mem) : List UInt8 :=
  let x1 := decodeUCoordinate u
  let s := rfcSwap (rfcLoop x1 (decodeScalar k) 255
    { x2 := 1, z2 := 0, x3 := x1, z3 := 1, swap := 0 })
  leBytes 32 (ZMod.val (s.x2 * s.z2^(prime - 2)))

end FreeAsd.X25519
