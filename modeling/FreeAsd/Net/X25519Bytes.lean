import FreeAsd.Net.X25519Field

/-!
# X25519: elements and bytes

`fe_load` reads the number in 32 bytes up to its top bit (`feLoad_value`). `fe_store` finds the multiple of
the prime to take off (`quotient_spec`), drops it with the carry out of the last limb (`floorCarries_spec`),
and packs the limbs (`words_eq`), so it writes the number below the prime (`feStore_spec`).
-/

namespace FreeAsd.X25519

/-! ## Loading -/

theorem loadLe_lt_word (s : Mem) (a : ℕ) : loadLe s a 4 < 2^32 := by
  rw [loadLe_eq_rd]
  exact Mem.rd_lt

/-- The number in 32 bytes, from its eight words. -/
theorem rd_words (s : Mem) :
    Mem.rd s 0 32 = loadLe s 0 4 + 2^32 * loadLe s 4 4 + 2^64 * loadLe s 8 4
      + 2^96 * loadLe s 12 4 + 2^128 * loadLe s 16 4 + 2^160 * loadLe s 20 4
      + 2^192 * loadLe s 24 4 + 2^224 * loadLe s 28 4 := by
  simp only [loadLe_eq_rd]
  rw [rd_add s 0 4 28, rd_add s 4 4 24, rd_add s 8 4 20, rd_add s 12 4 16, rd_add s 16 4 12,
    rd_add s 20 4 8, rd_add s 24 4 4]
  ring

/-- A limb that lies across two words. -/
theorem limb_eq {a b j k : ℕ} (n : ℕ) (ha : a < 2^32) (hw : j + k = 32) (hn : n ≤ 32) :
    (a >>> k ||| (b <<< j % 2^32)) &&& (2^n - 1) = (a + 2^32 * b) / 2^k % 2^n := by
  rw [funnel_shift ha hw, Nat.and_two_pow_sub_one_eq_mod, Nat.mod_mod_of_dvd _ (pow_dvd_pow 2 hn)]

/-- `fe_load` reads the low 255 bits. -/
theorem feLoad_value (s : Mem) : (feLoad s).value = (Mem.rd s 0 32 % 2^255 : ℕ) := by
  rw [rd_words]
  have h0 := loadLe_lt_word s 0
  have h4 := loadLe_lt_word s 4
  have h8 := loadLe_lt_word s 8
  have h12 := loadLe_lt_word s 12
  have h16 := loadLe_lt_word s 16
  have h20 := loadLe_lt_word s 20
  have h24 := loadLe_lt_word s 24
  rw [feLoad, Fe.value]
  dsimp only
  generalize loadLe s 0 4 = s0 at *
  generalize loadLe s 4 4 = s4 at *
  generalize loadLe s 8 4 = s8 at *
  generalize loadLe s 12 4 = s12 at *
  generalize loadLe s 16 4 = s16 at *
  generalize loadLe s 20 4 = s20 at *
  generalize loadLe s 24 4 = s24 at *
  generalize loadLe s 28 4 = s28 at *
  have e0 : s0 &&& 0x3FFFFFF = s0 % 2^26 := Nat.and_two_pow_sub_one_eq_mod s0 26
  have e1 : (s0 >>> 26 ||| (s4 <<< 6 % 2^32)) &&& 0x1FFFFFF = (s0 + 2^32 * s4) / 2^26 % 2^25 :=
    limb_eq 25 h0 (by norm_num) (by norm_num)
  have e2 : (s4 >>> 19 ||| (s8 <<< 13 % 2^32)) &&& 0x3FFFFFF = (s4 + 2^32 * s8) / 2^19 % 2^26 :=
    limb_eq 26 h4 (by norm_num) (by norm_num)
  have e3 : (s8 >>> 13 ||| (s12 <<< 19 % 2^32)) &&& 0x1FFFFFF = (s8 + 2^32 * s12) / 2^13 % 2^25 :=
    limb_eq 25 h8 (by norm_num) (by norm_num)
  have e4 : (s12 >>> 6 ||| (s16 <<< 26 % 2^32)) &&& 0x3FFFFFF = (s12 + 2^32 * s16) / 2^6 % 2^26 :=
    limb_eq 26 h12 (by norm_num) (by norm_num)
  have e5 : s16 &&& 0x1FFFFFF = s16 % 2^25 := Nat.and_two_pow_sub_one_eq_mod s16 25
  have e6 : (s16 >>> 25 ||| (s20 <<< 7 % 2^32)) &&& 0x3FFFFFF = (s16 + 2^32 * s20) / 2^25 % 2^26 :=
    limb_eq 26 h16 (by norm_num) (by norm_num)
  have e7 : (s20 >>> 19 ||| (s24 <<< 13 % 2^32)) &&& 0x1FFFFFF = (s20 + 2^32 * s24) / 2^19 % 2^25 :=
    limb_eq 25 h20 (by norm_num) (by norm_num)
  have e8 : (s24 >>> 12 ||| (s28 <<< 20 % 2^32)) &&& 0x3FFFFFF = (s24 + 2^32 * s28) / 2^12 % 2^26 :=
    limb_eq 26 h24 (by norm_num) (by norm_num)
  have e9 : s28 >>> 6 &&& 0x1FFFFFF = s28 / 2^6 % 2^25 := by
    rw [Nat.shiftRight_eq_div_pow]
    exact Nat.and_two_pow_sub_one_eq_mod _ 25
  rw [e0, e1, e2, e3, e4, e5, e6, e7, e8, e9]
  omega

theorem feLoad_within (s : Mem) : (feLoad s).Within (2^26 - 1) (2^25 - 1) := by
  have masked : ∀ (x m : ℕ), -(m : ℤ) ≤ ((x &&& m : ℕ) : ℤ) ∧ ((x &&& m : ℕ) : ℤ) ≤ (m : ℤ) := by
    intro x m
    have hle : x &&& m ≤ m := Nat.and_le_right
    omega
  constructor <;> exact masked _ _

/-! ## The quotient -/

/-- The bounds of a carry that is on its way through `fe_store`. -/
theorem quotStep_spec {b : ℕ} {q h : ℤ} (hb : b = 25 ∨ b = 26) (hq : -2^20 ≤ q ∧ q ≤ 2^20)
    (hh : -2^25 ≤ h ∧ h ≤ 2^25) :
    ∃ q', quotStep b q h = some q' ∧ q' * 2^b ≤ h + q ∧ h + q < q' * 2^b + 2^b ∧
      (-2^20 ≤ q' ∧ q' ≤ 2^20) := by
  refine ⟨(h + q) / 2^b, ?_, ?_, ?_, ?_⟩
  · rw [quotStep, bind_sint (by norm_num; omega)]
    rfl
  · rcases hb with rfl | rfl <;> omega
  · rcases hb with rfl | rfl <;> omega
  · rcases hb with rfl | rfl <;> omega

/-- The chain of carries finds the multiple of the prime to take off. -/
theorem quotient_spec {h : Fe} (hh : h.Tight) :
    ∃ q, quotient h = some q ∧ (-2^20 ≤ q ∧ q ≤ 2^20) ∧ 0 ≤ h.value - (2^255 - 19) * q ∧
      h.value - (2^255 - 19) * q < 2^255 - 19 := by
  obtain ⟨h0, h1, h2, h3, h4, h5, h6, h7, h8, h9⟩ := hh
  generalize hq : (19 * h.h9 + 2^24) / 2^25 = q
  have bq : -2^20 ≤ q ∧ q ≤ 2^20 := by omega
  obtain ⟨q0, e0, l0, u0, b0⟩ := quotStep_spec (b := 26) (.inr rfl) bq h0
  obtain ⟨q1, e1, l1, u1, b1⟩ := quotStep_spec (b := 25) (.inl rfl) b0 (loosen (by norm_num) h1)
  obtain ⟨q2, e2, l2, u2, b2⟩ := quotStep_spec (b := 26) (.inr rfl) b1 h2
  obtain ⟨q3, e3, l3, u3, b3⟩ := quotStep_spec (b := 25) (.inl rfl) b2 (loosen (by norm_num) h3)
  obtain ⟨q4, e4, l4, u4, b4⟩ := quotStep_spec (b := 26) (.inr rfl) b3 h4
  obtain ⟨q5, e5, l5, u5, b5⟩ := quotStep_spec (b := 25) (.inl rfl) b4 (loosen (by norm_num) h5)
  obtain ⟨q6, e6, l6, u6, b6⟩ := quotStep_spec (b := 26) (.inr rfl) b5 h6
  obtain ⟨q7, e7, l7, u7, b7⟩ := quotStep_spec (b := 25) (.inl rfl) b6 (loosen (by norm_num) h7)
  obtain ⟨q8, e8, l8, u8, b8⟩ := quotStep_spec (b := 26) (.inr rfl) b7 h8
  obtain ⟨q9, e9, l9, u9, b9⟩ := quotStep_spec (b := 25) (.inl rfl) b8 (loosen (by norm_num) h9)
  have hfirst : q * 2^25 ≤ 19 * h.h9 + 2^24 ∧ 19 * h.h9 + 2^24 < q * 2^25 + 2^25 := by omega
  -- the chain rounds the whole number plus its first carry down to a multiple of `2^255`
  have hlow : q9 * 2^255 ≤ h.value + q := by
    rw [Fe.value]
    linarith
  have hhigh : h.value + q < q9 * 2^255 + 2^255 := by
    rw [Fe.value]
    linarith
  have htop : -2^230 ≤ h.value - h.h9 * 2^230 ∧ h.value - h.h9 * 2^230 ≤ 2^230 := by
    rw [Fe.value]
    constructor <;> linarith
  refine ⟨q9, ?_, b9, ?_, ?_⟩
  · rw [quotient, bind_sint (by norm_num; omega), bind_sint (by norm_num; omega)]
    rw [hq, bind_of_some e0, bind_of_some e1, bind_of_some e2, bind_of_some e3, bind_of_some e4,
      bind_of_some e5, bind_of_some e6, bind_of_some e7, bind_of_some e8, e9]
  · clear * - hlow hhigh htop hfirst bq
    omega
  · clear * - hlow hhigh htop hfirst bq
    omega

/-! ## The carries -/

theorem floorCarry_spec {b : ℕ} {h n : ℤ} (hb : b = 25 ∨ b = 26) (hh : -2^29 ≤ h ∧ h ≤ 2^29)
    (hn : -2^26 ≤ n ∧ n ≤ 2^26) :
    ∃ c h' n', floorCarry b h n = some (h', n') ∧ h' = h - c * 2^b ∧ n' = n + c ∧
      (0 ≤ h' ∧ h' < 2^b) ∧ (-2^29 ≤ n' ∧ n' ≤ 2^29) := by
  generalize hc : h / 2^b = c
  have hrest : 0 ≤ h - c * 2^b ∧ h - c * 2^b < 2^b := by
    rcases hb with rfl | rfl <;> omega
  have hpow : (2 : ℤ)^b ≤ 2^26 := by rcases hb with rfl | rfl <;> norm_num
  have hbound : -2^4 ≤ c ∧ c ≤ 2^4 := by
    rcases hb with rfl | rfl <;> omega
  refine ⟨c, h - c * 2^b, n + c, ?_, rfl, rfl, hrest, by omega⟩
  rw [floorCarry, hc, bind_sint (by norm_num; omega), bind_sint (by norm_num; omega),
    bind_sint (by norm_num; omega)]
  rfl

/-- Limbs that are digits of 26 and 25 bits. -/
structure Digits (r : Fe) : Prop where
  h0 : 0 ≤ r.h0 ∧ r.h0 < 2^26
  h1 : 0 ≤ r.h1 ∧ r.h1 < 2^25
  h2 : 0 ≤ r.h2 ∧ r.h2 < 2^26
  h3 : 0 ≤ r.h3 ∧ r.h3 < 2^25
  h4 : 0 ≤ r.h4 ∧ r.h4 < 2^26
  h5 : 0 ≤ r.h5 ∧ r.h5 < 2^25
  h6 : 0 ≤ r.h6 ∧ r.h6 < 2^26
  h7 : 0 ≤ r.h7 ∧ r.h7 < 2^25
  h8 : 0 ≤ r.h8 ∧ r.h8 < 2^26
  h9 : 0 ≤ r.h9 ∧ r.h9 < 2^25

/-- The carries of `fe_store` leave digits, and drop a multiple of `2^255`. -/
theorem floorCarries_spec {h : Fe} (hh : h.Within (2^26) (2^26)) :
    ∃ r c, floorCarries h = some r ∧ h.value = r.value + c * 2^255 ∧ Digits r := by
  obtain ⟨a0, a1, a2, a3, a4, a5, a6, a7, a8, a9⟩ := hh
  have zero : -2^26 ≤ (0 : ℤ) ∧ (0 : ℤ) ≤ 2^26 := by norm_num
  obtain ⟨c0, x0, x1, e0, l0, n0, d0, b0⟩ := floorCarry_spec (b := 26) (.inr rfl) (loosen (by norm_num) a0) a1
  obtain ⟨c1, y1, x2, e1, l1, n1, d1, b1⟩ := floorCarry_spec (b := 25) (.inl rfl) b0 a2
  obtain ⟨c2, y2, x3, e2, l2, n2, d2, b2⟩ := floorCarry_spec (b := 26) (.inr rfl) b1 a3
  obtain ⟨c3, y3, x4, e3, l3, n3, d3, b3⟩ := floorCarry_spec (b := 25) (.inl rfl) b2 a4
  obtain ⟨c4, y4, x5, e4, l4, n4, d4, b4⟩ := floorCarry_spec (b := 26) (.inr rfl) b3 a5
  obtain ⟨c5, y5, x6, e5, l5, n5, d5, b5⟩ := floorCarry_spec (b := 25) (.inl rfl) b4 a6
  obtain ⟨c6, y6, x7, e6, l6, n6, d6, b6⟩ := floorCarry_spec (b := 26) (.inr rfl) b5 a7
  obtain ⟨c7, y7, x8, e7, l7, n7, d7, b7⟩ := floorCarry_spec (b := 25) (.inl rfl) b6 a8
  obtain ⟨c8, y8, x9, e8, l8, n8, d8, b8⟩ := floorCarry_spec (b := 26) (.inr rfl) b7 a9
  obtain ⟨c9, y9, out, e9, l9, n9, d9, b9⟩ := floorCarry_spec (b := 25) (.inl rfl) b8 zero
  refine ⟨⟨x0, y1, y2, y3, y4, y5, y6, y7, y8, y9⟩, c9, ?_, ?_, ⟨d0, d1, d2, d3, d4, d5, d6, d7, d8, d9⟩⟩
  · rw [floorCarries, bind_of_some e0]
    dsimp only
    rw [bind_of_some e1]
    rw [bind_of_some e2]
    rw [bind_of_some e3]
    rw [bind_of_some e4]
    rw [bind_of_some e5]
    rw [bind_of_some e6]
    rw [bind_of_some e7]
    rw [bind_of_some e8]
    rw [bind_of_some e9]
    rfl
  · rw [Fe.value, Fe.value, l9, l8, n8, l7, n7, l6, n6, l5, n5, l4, n4, l3, n3, l2, n2, l1, n1, l0, n0]
    ring

/-! ## Packing -/

/-- The bytes of a number are those of its words. -/
theorem leBytes_words (v : ℕ) :
    leBytes 32 v = leBytes 4 v ++ (leBytes 4 (v / 2^32) ++ (leBytes 4 (v / 2^64)
      ++ (leBytes 4 (v / 2^96) ++ (leBytes 4 (v / 2^128) ++ (leBytes 4 (v / 2^160)
      ++ (leBytes 4 (v / 2^192) ++ leBytes 4 (v / 2^224))))))) := by
  have split : ∀ (k n : ℕ), leBytes 4 (v / 2^k) ++ leBytes n (v / 2^(k + 32))
      = leBytes (4 + n) (v / 2^k) := by
    intro k n
    have hpow : v / 2^(k + 32) = v / 2^k / 256^4 := by
      rw [pow_add, Nat.div_div_eq_div_mul]
      rfl
    rw [hpow, leBytes_append]
  have hfirst := split 0 28
  rw [pow_zero, Nat.div_one] at hfirst
  rw [split 192 4, split 160 8, split 128 12, split 96 16, split 64 20, split 32 24, hfirst]

/-- The words of digits are the number they make up. -/
theorem words_eq {r : Fe} (hr : Digits r) :
    ∃ v : ℕ, r.value = v ∧ (words r).flatMap (leBytes 4) = leBytes 32 v := by
  obtain ⟨h0, h1, h2, h3, h4, h5, h6, h7, h8, h9⟩ := r
  obtain ⟨d0, d1, d2, d3, d4, d5, d6, d7, d8, d9⟩ := hr
  dsimp only at d0 d1 d2 d3 d4 d5 d6 d7 d8 d9
  have digit : ∀ {x : ℤ} {k : ℕ}, 0 ≤ x ∧ x < 2^k → ∃ n : ℕ, x = n ∧ n < 2^k := by
    rintro x k ⟨h0, hlt⟩
    lift x to ℕ using h0
    exact ⟨x, rfl, by exact_mod_cast hlt⟩
  obtain ⟨n0, rfl, m0⟩ := digit d0
  obtain ⟨n1, rfl, m1⟩ := digit d1
  obtain ⟨n2, rfl, m2⟩ := digit d2
  obtain ⟨n3, rfl, m3⟩ := digit d3
  obtain ⟨n4, rfl, m4⟩ := digit d4
  obtain ⟨n5, rfl, m5⟩ := digit d5
  obtain ⟨n6, rfl, m6⟩ := digit d6
  obtain ⟨n7, rfl, m7⟩ := digit d7
  obtain ⟨n8, rfl, m8⟩ := digit d8
  obtain ⟨n9, rfl, m9⟩ := digit d9
  clear d0 d1 d2 d3 d4 d5 d6 d7 d8 d9
  have u32_nat : ∀ n : ℕ, n < 2^26 → u32 n = n := by
    intro n hn
    rw [u32]
    omega
  have u32_div : ∀ (n k : ℕ), n < 2^26 → u32 ((n : ℤ) / 2^k) = n / 2^k := by
    intro n k hn
    have hcast : (n : ℤ) / 2^k = ((n / 2^k : ℕ) : ℤ) := by
      push_cast
      rfl
    rw [hcast, u32_nat _ (lt_of_le_of_lt (Nat.div_le_self n _) hn)]
  generalize hv : n0 + n1 * 2^26 + n2 * 2^51 + n3 * 2^77 + n4 * 2^102 + n5 * 2^128
    + n6 * 2^153 + n7 * 2^179 + n8 * 2^204 + n9 * 2^230 = v
  refine ⟨v, ?_, ?_⟩
  · rw [← hv, Fe.value]
    push_cast
    ring
  have w0 : n0 ||| (n1 <<< 26 % 2^32) = n0 + n1 % 2^6 * 2^26 := or_shiftLeft_mod (by omega) (by norm_num)
  have w1 : n1 / 2^6 ||| (n2 <<< 19 % 2^32) = n1 / 2^6 + n2 % 2^13 * 2^19 :=
    or_shiftLeft_mod (by omega) (by norm_num)
  have w2 : n2 / 2^13 ||| (n3 <<< 13 % 2^32) = n2 / 2^13 + n3 % 2^19 * 2^13 :=
    or_shiftLeft_mod (by omega) (by norm_num)
  have w3 : n3 / 2^19 ||| (n4 <<< 6 % 2^32) = n3 / 2^19 + n4 % 2^26 * 2^6 :=
    or_shiftLeft_mod (by omega) (by norm_num)
  have w4 : n5 ||| (n6 <<< 25 % 2^32) = n5 + n6 % 2^7 * 2^25 := or_shiftLeft_mod (by omega) (by norm_num)
  have w5 : n6 / 2^7 ||| (n7 <<< 19 % 2^32) = n6 / 2^7 + n7 % 2^13 * 2^19 :=
    or_shiftLeft_mod (by omega) (by norm_num)
  have w6 : n7 / 2^13 ||| (n8 <<< 12 % 2^32) = n7 / 2^13 + n8 % 2^20 * 2^12 :=
    or_shiftLeft_mod (by omega) (by norm_num)
  have w7 : n8 / 2^20 ||| (n9 <<< 6 % 2^32) = n8 / 2^20 + n9 % 2^26 * 2^6 :=
    or_shiftLeft_mod (by omega) (by norm_num)
  rw [words]
  rw [u32_nat n0 m0, u32_nat n1 (by omega), u32_nat n2 m2, u32_nat n3 (by omega), u32_nat n4 m4,
    u32_nat n5 (by omega), u32_nat n6 m6, u32_nat n7 (by omega), u32_nat n8 m8, u32_nat n9 (by omega),
    u32_div n1 6 (by omega), u32_div n2 13 m2, u32_div n3 19 (by omega), u32_div n6 7 m6,
    u32_div n7 13 (by omega), u32_div n8 20 m8, w0, w1, w2, w3, w4, w5, w6, w7, leBytes_words]
  simp only [List.flatMap_cons, List.flatMap_nil, List.append_nil]
  have word : ∀ {a b : ℕ}, a = b % 2^32 → leBytes 4 a = leBytes 4 b := by
    intro a b hab
    rw [hab]
    exact leBytes_mod 4 b
  congr 1
  · exact word (by omega)
  congr 1
  · exact word (by omega)
  congr 1
  · exact word (by omega)
  congr 1
  · exact word (by omega)
  congr 1
  · exact word (by omega)
  congr 1
  · exact word (by omega)
  congr 1
  · exact word (by omega)
  · exact word (by omega)

/-- `fe_store` writes the bytes of the element's number below the prime. -/
theorem feStore_spec {h : Fe} (hh : h.Tight) : feStore h = some (leBytes 32 (ZMod.val h.num)) := by
  obtain ⟨q, hq, bq, hlow, hhigh⟩ := quotient_spec hh
  have hwithin : Fe.Within (2^26) (2^26) { h with h0 := h.h0 + 19 * q } := by
    obtain ⟨h0, h1, h2, h3, h4, h5, h6, h7, h8, h9⟩ := hh
    constructor <;> dsimp only <;> omega
  obtain ⟨r, c, hr, hvalue, hdigits⟩ := floorCarries_spec hwithin
  obtain ⟨v, hv, hwords⟩ := words_eq hdigits
  -- both the digits and the reduced number are below `2^255`, so the dropped carry is `q`
  have hsum : Fe.value { h with h0 := h.h0 + 19 * q } = h.value + 19 * q := by
    rw [Fe.value, Fe.value]
    ring
  have hlt : r.value < 2^255 := by
    obtain ⟨d0, d1, d2, d3, d4, d5, d6, d7, d8, d9⟩ := hdigits
    rw [Fe.value]
    linarith
  have hvq : (v : ℤ) = h.value - (2^255 - 19) * q := by
    clear * - hv hlt hvalue hsum hlow hhigh
    omega
  have hval : ZMod.val h.num = v := by
    have hcast : ((h.value : ℤ) : Field) = ((v : ℤ) : Field) :=
      cast_eq_of_sub (show h.value = v + (2^255 - 19) * q by rw [hvq]; ring)
    rw [Fe.num, hcast, Int.cast_natCast, ZMod.val_natCast, Nat.mod_eq_of_lt]
    clear * - hvq hhigh
    norm_num at hhigh ⊢
    omega
  rw [feStore, bind_of_some hq, bind_sint (by norm_num; omega), bind_sint (by have := hh.h0; norm_num; omega),
    bind_of_some hr, hval, ← hwords]
  rfl

end FreeAsd.X25519
