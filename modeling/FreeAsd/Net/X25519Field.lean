import FreeAsd.Net.X25519

/-!
# X25519: field operations

What each field operation computes modulo `2^255 - 19` (`Fe.num`), and which bounds on the limbs it needs and
gives back. The result of a multiplication is `Tight`; a sum or difference of two tight elements is `Wide`,
and `fe_mul` takes wide elements.
-/

namespace FreeAsd.X25519

variable {f g h : Fe}

namespace Fe

/-- The number that ten limbs make up. -/
def value (f : Fe) : ℤ :=
  f.h0 + f.h1 * 2^26 + f.h2 * 2^51 + f.h3 * 2^77 + f.h4 * 2^102 + f.h5 * 2^128 + f.h6 * 2^153
    + f.h7 * 2^179 + f.h8 * 2^204 + f.h9 * 2^230

/-- The field element that ten limbs denote. -/
def num (f : Fe) : Field := (f.value : Field)

/-- The limbs of 26 bits are at most `E` in absolute value and those of 25 bits at most `O`. -/
structure Within (E O : ℤ) (f : Fe) : Prop where
  h0 : -E ≤ f.h0 ∧ f.h0 ≤ E
  h1 : -O ≤ f.h1 ∧ f.h1 ≤ O
  h2 : -E ≤ f.h2 ∧ f.h2 ≤ E
  h3 : -O ≤ f.h3 ∧ f.h3 ≤ O
  h4 : -E ≤ f.h4 ∧ f.h4 ≤ E
  h5 : -O ≤ f.h5 ∧ f.h5 ≤ O
  h6 : -E ≤ f.h6 ∧ f.h6 ≤ E
  h7 : -O ≤ f.h7 ∧ f.h7 ≤ O
  h8 : -E ≤ f.h8 ∧ f.h8 ≤ E
  h9 : -O ≤ f.h9 ∧ f.h9 ≤ O

/-- The bounds of a product. -/
abbrev Tight : Fe → Prop := Within (2^25) (2^24 + 2^18)

/-- The bounds of a factor. -/
abbrev Wide : Fe → Prop := Within (2^26) (2^25 + 2^19)

theorem Within.mono {E E' O O' : ℤ} (h : f.Within E O) (hE : E ≤ E') (hO : O ≤ O') : f.Within E' O' := by
  obtain ⟨h0, h1, h2, h3, h4, h5, h6, h7, h8, h9⟩ := h
  constructor <;> omega

theorem Tight.wide (h : f.Tight) : f.Wide := h.mono (by norm_num) (by norm_num)

end Fe

/-- Numbers that differ by a multiple of the prime are one field element. -/
theorem cast_eq_of_sub {a b c : ℤ} (h : a = b + (2^255 - 19) * c) : (a : Field) = (b : Field) := by
  have hp : ((2^255 - 19 : ℤ) : Field) = 0 := by
    have hcast : (2^255 - 19 : ℤ) = ((prime : ℕ) : ℤ) := by norm_num
    rw [hcast]
    exact (Int.cast_natCast prime).trans (ZMod.natCast_self prime)
  rw [h, Int.cast_add, Int.cast_mul, hp, zero_mul, add_zero]

/-! ## Sums and differences -/

/-- An operation limb by limb has a result if every limb is in range. -/
theorem feZip_eq {op : ℤ → ℤ → ℤ} {E O : ℤ} (hE : E < 2^31) (hO : O < 2^31)
    (h : Fe.Within E O ⟨op f.h0 g.h0, op f.h1 g.h1, op f.h2 g.h2, op f.h3 g.h3, op f.h4 g.h4,
      op f.h5 g.h5, op f.h6 g.h6, op f.h7 g.h7, op f.h8 g.h8, op f.h9 g.h9⟩) :
    feZip op f g = some ⟨op f.h0 g.h0, op f.h1 g.h1, op f.h2 g.h2, op f.h3 g.h3, op f.h4 g.h4,
      op f.h5 g.h5, op f.h6 g.h6, op f.h7 g.h7, op f.h8 g.h8, op f.h9 g.h9⟩ := by
  have fits : ∀ {B x : ℤ}, B < 2^31 → -B ≤ x ∧ x ≤ B → sint 32 x = some x := by
    intro B x hB hx
    apply sint_of_mem <;> norm_num at hB ⊢ <;> omega
  rw [feZip, bind_of_some (fits hE h.h0), bind_of_some (fits hO h.h1), bind_of_some (fits hE h.h2),
    bind_of_some (fits hO h.h3), bind_of_some (fits hE h.h4), bind_of_some (fits hO h.h5),
    bind_of_some (fits hE h.h6), bind_of_some (fits hO h.h7), bind_of_some (fits hE h.h8),
    bind_of_some (fits hO h.h9)]
  rfl

/-- The bounds of two elements whose sum and difference are wide. -/
def Fits (f g : Fe) : Prop :=
  ∃ E O E' O', f.Within E O ∧ g.Within E' O' ∧ E + E' ≤ 2^26 ∧ O + O' ≤ 2^25 + 2^19

theorem fits_of_tight (hf : f.Tight) (hg : g.Tight) : Fits f g :=
  ⟨_, _, _, _, hf, hg, by norm_num, by norm_num⟩

theorem feAdd_spec (h : Fits f g) : ∃ r, feAdd f g = some r ∧ r.num = f.num + g.num ∧ r.Wide := by
  obtain ⟨E, O, E', O', hf, hg, hE, hO⟩ := h
  obtain ⟨f0, f1, f2, f3, f4, f5, f6, f7, f8, f9⟩ := hf
  obtain ⟨g0, g1, g2, g3, g4, g5, g6, g7, g8, g9⟩ := hg
  have hwide : Fe.Wide ⟨f.h0 + g.h0, f.h1 + g.h1, f.h2 + g.h2, f.h3 + g.h3, f.h4 + g.h4,
      f.h5 + g.h5, f.h6 + g.h6, f.h7 + g.h7, f.h8 + g.h8, f.h9 + g.h9⟩ := by
    constructor <;> dsimp only <;> omega
  refine ⟨_, feZip_eq (by norm_num) (by norm_num) hwide, ?_, hwide⟩
  rw [Fe.num, Fe.num, Fe.num, ← Int.cast_add]
  congr 1
  simp only [Fe.value]
  ring

theorem feSub_spec (h : Fits f g) : ∃ r, feSub f g = some r ∧ r.num = f.num - g.num ∧ r.Wide := by
  obtain ⟨E, O, E', O', hf, hg, hE, hO⟩ := h
  obtain ⟨f0, f1, f2, f3, f4, f5, f6, f7, f8, f9⟩ := hf
  obtain ⟨g0, g1, g2, g3, g4, g5, g6, g7, g8, g9⟩ := hg
  have hwide : Fe.Wide ⟨f.h0 - g.h0, f.h1 - g.h1, f.h2 - g.h2, f.h3 - g.h3, f.h4 - g.h4,
      f.h5 - g.h5, f.h6 - g.h6, f.h7 - g.h7, f.h8 - g.h8, f.h9 - g.h9⟩ := by
    constructor <;> dsimp only <;> omega
  refine ⟨_, feZip_eq (by norm_num) (by norm_num) hwide, ?_, hwide⟩
  rw [Fe.num, Fe.num, Fe.num, ← Int.cast_sub]
  congr 1
  simp only [Fe.value]
  ring

/-! ## Rounding carries -/

/-- A rounding carry: the limb is brought to at most half a unit, and the next limb takes up what was
carried off. -/
structure Carried (b : ℕ) (m h n c h' n' : ℤ) : Prop where
  limb : h' = h - c * 2^b
  next : n' = n + c * m
  lower : -2^(b - 1) ≤ h'
  upper : h' < 2^(b - 1)
  carry : -(2^36 + 1) ≤ c ∧ c ≤ 2^36 + 1

namespace Carried

variable {m h n c h' n' : ℤ}

theorem even (hC : Carried 26 m h n c h' n') : -2^25 ≤ h' ∧ h' ≤ 2^25 := by
  have hl := hC.lower
  have hu := hC.upper
  omega

theorem odd (hC : Carried 25 m h n c h' n') : -(2^24 + 2^18) ≤ h' ∧ h' ≤ 2^24 + 2^18 := by
  have hl := hC.lower
  have hu := hC.upper
  omega

/-- What is carried off a limb that has been carried before is small. -/
theorem carry_small (hC : Carried 26 m h n c h' n') (hh : -2^43 ≤ h ∧ h ≤ 2^43) :
    -(2^17 + 1) ≤ c ∧ c ≤ 2^17 + 1 := by
  have hlimb := hC.limb
  have hb := hC.even
  omega

theorem carry_small_odd (hC : Carried 25 m h n c h' n') (hh : -2^42 ≤ h ∧ h ≤ 2^42) :
    -(2^17 + 1) ≤ c ∧ c ≤ 2^17 + 1 := by
  have hlimb := hC.limb
  have hb := hC.odd
  omega

/-- A limb of 25 bits that is carried into once more stays tight. -/
theorem odd_add (hC : Carried 25 m h n c h' n') {d x : ℤ} (hd : -(2^17 + 1) ≤ d ∧ d ≤ 2^17 + 1)
    (hx : x = h' + d * 1) : -(2^24 + 2^18) ≤ x ∧ x ≤ 2^24 + 2^18 := by
  have hl := hC.lower
  have hu := hC.upper
  omega

/-- An even limb has taken up one small carry when it is carried itself. -/
theorem relay (hC : Carried 25 m h n c h' n') (hm : 0 ≤ m ∧ m ≤ 19) {k d x y : ℤ}
    (hD : Carried 26 1 n' k d x y) (hh : -((2^25 + 2^19) * 121665) ≤ h ∧ h ≤ (2^25 + 2^19) * 121665)
    (hn : -(2^26 * 121665) ≤ n ∧ n ≤ 2^26 * 121665) : -(2^17 + 1) ≤ d ∧ d ≤ 2^17 + 1 := by
  have hc := hC.carry_small_odd (by omega)
  have hcm : -((2^17 + 1) * 19) ≤ c * m ∧ c * m ≤ (2^17 + 1) * 19 := by
    constructor <;> nlinarith
  have hnext := hC.next
  apply hD.carry_small
  omega

end Carried

section

variable {h n : ℤ} (hh : -2^61 ≤ h ∧ h ≤ 2^61) (hn : -2^60 ≤ n ∧ n ≤ 2^60)

include hh hn

theorem roundCarry_spec {b : ℕ} {m : ℤ} (hb : b = 25 ∨ b = 26) (hm : 0 ≤ m ∧ m ≤ 19) :
    ∃ c h' n', roundCarry b m h n = some (h', n') ∧ Carried b m h n c h' n' ∧
      (-2^61 ≤ n' ∧ n' ≤ 2^61) := by
  generalize hceq : (h + 2^(b - 1)) / 2^b = c
  have hc : -(2^36 + 1) ≤ c ∧ c ≤ 2^36 + 1 := by
    rcases hb with rfl | rfl <;> norm_num at hceq ⊢ <;> omega
  have hrest : -2^(b - 1) ≤ h - c * 2^b ∧ h - c * 2^b < 2^(b - 1) := by
    rcases hb with rfl | rfl <;> norm_num at hceq ⊢ <;> omega
  have hpow : (0 : ℤ) ≤ 2^(b - 1) ∧ (2 : ℤ)^(b - 1) ≤ 2^25 := by
    rcases hb with rfl | rfl <;> norm_num
  have hcm : -((2^36 + 1) * 19) ≤ c * m ∧ c * m ≤ (2^36 + 1) * 19 := by
    constructor <;> nlinarith
  refine ⟨c, h - c * 2^b, n + c * m, ?_, ⟨rfl, rfl, hrest.1, hrest.2, hc⟩, by omega⟩
  rw [roundCarry, bind_sint (by norm_num; omega)]
  rw [hceq, bind_sint (by norm_num; omega), bind_sint (by norm_num; omega),
    bind_sint (by norm_num; omega), bind_sint (by norm_num; omega)]
  rfl

/-- The carry of a limb of 26 bits into the next one. -/
theorem roundCarry_even :
    ∃ c h' n', roundCarry 26 1 h n = some (h', n') ∧ Carried 26 1 h n c h' n' ∧
      (-2^61 ≤ n' ∧ n' ≤ 2^61) :=
  roundCarry_spec hh hn (.inr rfl) (by norm_num)

/-- The carry of a limb of 25 bits into the next one. -/
theorem roundCarry_odd :
    ∃ c h' n', roundCarry 25 1 h n = some (h', n') ∧ Carried 25 1 h n c h' n' ∧
      (-2^61 ≤ n' ∧ n' ≤ 2^61) :=
  roundCarry_spec hh hn (.inl rfl) (by norm_num)

end

theorem loosen {B B' x : ℤ} (hB : B ≤ B') (hx : -B ≤ x ∧ x ≤ B) : -B' ≤ x ∧ x ≤ B' := by
  omega

/-- The carries of `fe_mul` keep the number modulo the prime and leave tight limbs. -/
theorem mulCarries_spec (hh : h.Within (2^60) (2^60)) :
    ∃ r c, mulCarries h = some r ∧ h.value = r.value + (2^255 - 19) * c ∧ r.Tight := by
  obtain ⟨a0, a1, a2, a3, a4, a5, a6, a7, a8, a9⟩ := hh
  obtain ⟨c1, x0, x1, e1, C1, b1⟩ := roundCarry_even (loosen (by norm_num) a0) a1
  obtain ⟨c2, x4, x5, e2, C2, b2⟩ := roundCarry_even (loosen (by norm_num) a4) a5
  obtain ⟨c3, y1, x2, e3, C3, b3⟩ := roundCarry_odd b1 a2
  obtain ⟨c4, y5, x6, e4, C4, b4⟩ := roundCarry_odd b2 a6
  obtain ⟨c5, y2, x3, e5, C5, b5⟩ := roundCarry_even b3 a3
  obtain ⟨c6, y6, x7, e6, C6, b6⟩ := roundCarry_even b4 a7
  obtain ⟨c7, y3, y4, e7, C7, b7⟩ := roundCarry_odd b5 (loosen (by norm_num) C2.even)
  obtain ⟨c8, y7, x8, e8, C8, b8⟩ := roundCarry_odd b6 a8
  obtain ⟨c9, z4, z5, e9, C9, b9⟩ := roundCarry_even b7 (loosen (by norm_num) C4.odd)
  obtain ⟨c10, y8, x9, e10, C10, b10⟩ := roundCarry_even b8 a9
  obtain ⟨c11, y9, y0, e11, C11, b11⟩ :=
    roundCarry_spec (b := 25) (m := 19) b10 (loosen (by norm_num) C1.even) (.inl rfl) (by norm_num)
  obtain ⟨c12, z0, z1, e12, C12, b12⟩ := roundCarry_even b11 (loosen (by norm_num) C3.odd)
  refine ⟨⟨z0, z1, y2, y3, z4, z5, y6, y7, y8, y9⟩, c11, ?_, ?_, ?_⟩
  · rw [mulCarries, bind_of_some e1]
    dsimp only
    rw [bind_of_some e2]
    rw [bind_of_some e3]
    rw [bind_of_some e4]
    rw [bind_of_some e5]
    rw [bind_of_some e6]
    rw [bind_of_some e7]
    rw [bind_of_some e8]
    rw [bind_of_some e9]
    rw [bind_of_some e10]
    rw [bind_of_some e11]
    rw [bind_of_some e12]
    rfl
  · rw [Fe.value, Fe.value, C12.limb, C12.next, C11.limb, C11.next, C10.limb, C10.next, C9.limb,
      C9.next, C8.limb, C8.next, C7.limb, C7.next, C6.limb, C6.next, C5.limb, C5.next, C4.limb,
      C4.next, C3.limb, C3.next, C2.limb, C2.next, C1.limb, C1.next]
    ring
  · -- the second carries into `h1` and `h5` come from limbs that were carried before
    have d12 : -(2^17 + 1) ≤ c12 ∧ c12 ≤ 2^17 + 1 := by
      have hx := C1.even
      have hc := C11.carry
      have hy := C11.next
      apply C12.carry_small
      omega
    have d9 : -(2^17 + 1) ≤ c9 ∧ c9 ≤ 2^17 + 1 := by
      have hx := C2.even
      have hc := C7.carry
      have hy := C7.next
      apply C9.carry_small
      omega
    exact ⟨C12.even, C3.odd_add d12 C12.next, C5.even, C7.odd, C9.even, C4.odd_add d9 C9.next, C6.even,
      C8.odd, C10.even, C11.odd⟩

/-! ## Multiplication -/

/-- The columns of `fe_mul` do not overflow if ten products of the greatest factors fit. -/
theorem mulColumns_eq {f2 g19 : Fe} {A B : ℤ} (hA : 0 ≤ A) (hB : 0 ≤ B) (hAB : 10 * (A * B) ≤ 2^60)
    (hf : f.Within A A) (hf2 : f2.Within A A) (hg : g.Within B B) (hg19 : g19.Within B B) :
    mulColumns f f2 g g19 = some (columnSums f f2 g g19) ∧
      (columnSums f f2 g g19).Within (2^60) (2^60) := by
  obtain ⟨F0, F1, F2, F3, F4, F5, F6, F7, F8, F9⟩ := hf
  obtain ⟨D0, D1, D2, D3, D4, D5, D6, D7, D8, D9⟩ := hf2
  obtain ⟨G0, G1, G2, G3, G4, G5, G6, G7, G8, G9⟩ := hg
  obtain ⟨N0, N1, N2, N3, N4, N5, N6, N7, N8, N9⟩ := hg19
  have hcolumn : ∀ k, dot 64 0 (column f f2 g g19 k) = some (dotValue (column f f2 g g19 k)) ∧
      -2^60 ≤ dotValue (column f f2 g g19 k) ∧ dotValue (column f f2 g g19 k) ≤ 2^60 := by
    intro k
    have hfactors : Factors A B (column f f2 g g19 k) := by
      fin_cases k <;> simp [column, *]
    have hlen : (column f f2 g g19 k).length = 10 := by
      fin_cases k <;> rfl
    apply dot_zero_spec hA hB hfactors _ (by norm_num)
    rw [hlen]
    exact hAB
  constructor
  · rw [mulColumns, bind_of_some (hcolumn 0).1, bind_of_some (hcolumn 1).1,
      bind_of_some (hcolumn 2).1, bind_of_some (hcolumn 3).1, bind_of_some (hcolumn 4).1,
      bind_of_some (hcolumn 5).1, bind_of_some (hcolumn 6).1, bind_of_some (hcolumn 7).1,
      bind_of_some (hcolumn 8).1, bind_of_some (hcolumn 9).1]
    rfl
  · exact ⟨(hcolumn 0).2, (hcolumn 1).2, (hcolumn 2).2, (hcolumn 3).2, (hcolumn 4).2, (hcolumn 5).2,
      (hcolumn 6).2, (hcolumn 7).2, (hcolumn 8).2, (hcolumn 9).2⟩

/-- The factors of the columns that are scaled before. -/
def scaled19 (g : Fe) : Fe :=
  ⟨19 * 0, 19 * g.h1, 19 * g.h2, 19 * g.h3, 19 * g.h4, 19 * g.h5, 19 * g.h6, 19 * g.h7, 19 * g.h8,
    19 * g.h9⟩

@[inherit_doc scaled19]
def scaled2 (f : Fe) : Fe :=
  ⟨2 * 0, 2 * f.h1, 2 * 0, 2 * f.h3, 2 * 0, 2 * f.h5, 2 * 0, 2 * f.h7, 2 * 0, 2 * f.h9⟩

/-- What the columns leave out of the product of two elements, as a multiple of `2^255 - 19`. -/
def overflow (f g : Fe) : ℤ :=
  (f.h1 * g.h9 * 2 + f.h2 * g.h8 + f.h3 * g.h7 * 2 + f.h4 * g.h6 + f.h5 * g.h5 * 2 + f.h6 * g.h4
      + f.h7 * g.h3 * 2 + f.h8 * g.h2 + f.h9 * g.h1 * 2)
    + (f.h2 * g.h9 + f.h3 * g.h8 + f.h4 * g.h7 + f.h5 * g.h6 + f.h6 * g.h5 + f.h7 * g.h4
      + f.h8 * g.h3 + f.h9 * g.h2) * 2^26
    + (f.h3 * g.h9 * 2 + f.h4 * g.h8 + f.h5 * g.h7 * 2 + f.h6 * g.h6 + f.h7 * g.h5 * 2
      + f.h8 * g.h4 + f.h9 * g.h3 * 2) * 2^51
    + (f.h4 * g.h9 + f.h5 * g.h8 + f.h6 * g.h7 + f.h7 * g.h6 + f.h8 * g.h5 + f.h9 * g.h4) * 2^77
    + (f.h5 * g.h9 * 2 + f.h6 * g.h8 + f.h7 * g.h7 * 2 + f.h8 * g.h6 + f.h9 * g.h5 * 2) * 2^102
    + (f.h6 * g.h9 + f.h7 * g.h8 + f.h8 * g.h7 + f.h9 * g.h6) * 2^128
    + (f.h7 * g.h9 * 2 + f.h8 * g.h8 + f.h9 * g.h7 * 2) * 2^153
    + (f.h8 * g.h9 + f.h9 * g.h8) * 2^179
    + f.h9 * g.h9 * 2 * 2^204

/-- The columns make up the product modulo the prime: a power of two from `2^255` on comes back with
a factor of 19. -/
theorem column_value (f g : Fe) :
    f.value * g.value =
      (columnSums f (scaled2 f) g (scaled19 g)).value + (2^255 - 19) * overflow f g := by
  simp only [Fe.value, columnSums, dotValue, column, scaled2, scaled19, List.map_cons, List.map_nil,
    List.sum_cons, List.sum_nil, overflow]
  ring

theorem narrow_eq (hh : h.Tight) : narrow h = some h := feZip_eq (by norm_num) (by norm_num) hh

/-- `fe_mul` multiplies. -/
theorem feMul_spec (hf : f.Wide) (hg : g.Wide) : ∃ r, feMul f g = some r ∧ r.num = f.num * g.num ∧ r.Tight := by
  have hg19 : (scaled19 g).Within (19 * 2^26) (19 * 2^26) := by
    obtain ⟨g0, g1, g2, g3, g4, g5, g6, g7, g8, g9⟩ := hg
    constructor <;> dsimp only [scaled19] <;> omega
  have hf2 : (scaled2 f).Within (2^26 + 2^20) (2^26 + 2^20) := by
    obtain ⟨f0, f1, f2, f3, f4, f5, f6, f7, f8, f9⟩ := hf
    constructor <;> dsimp only [scaled2] <;> omega
  have e19 : feScale 19 { g with h0 := 0 } = some (scaled19 g) := feZip_eq (by norm_num) (by norm_num) hg19
  have e2 : feScale 2 { f with h0 := 0, h2 := 0, h4 := 0, h6 := 0, h8 := 0 } = some (scaled2 f) :=
    feZip_eq (by norm_num) (by norm_num) hf2
  have hfA : f.Within (2^26 + 2^20) (2^26 + 2^20) := hf.mono (by norm_num) (by norm_num)
  have hgB : g.Within (19 * 2^26) (19 * 2^26) := hg.mono (by norm_num) (by norm_num)
  obtain ⟨ecol, hr⟩ := mulColumns_eq (by norm_num) (by norm_num) (by norm_num) hfA hf2 hgB hg19
  obtain ⟨t, c, ecarry, hvalue, htight⟩ := mulCarries_spec hr
  refine ⟨t, ?_, ?_, htight⟩
  · rw [feMul, bind_of_some e19, bind_of_some e2, bind_of_some ecol, bind_of_some ecarry, narrow_eq htight]
  have hprod : f.value * g.value = t.value + (2^255 - 19) * (c + overflow f g) := by
    rw [column_value, hvalue]
    ring
  rw [Fe.num, Fe.num, Fe.num, ← Int.cast_mul]
  exact (cast_eq_of_sub hprod).symm

theorem feSq_spec (hf : f.Wide) : ∃ r, feSq f = some r ∧ r.num = f.num^2 ∧ r.Tight := by
  obtain ⟨r, hr, hnum, htight⟩ := feMul_spec hf hf
  exact ⟨r, hr, by rw [hnum, sq], htight⟩

/-! ## Multiplication by 121665 -/

theorem scaleColumns_eq (hf : f.Wide) :
    ∃ r, scaleColumns f = some r ∧ r.Within (2^26 * 121665) ((2^25 + 2^19) * 121665) ∧
      r.value = f.value * 121665 := by
  obtain ⟨f0, f1, f2, f3, f4, f5, f6, f7, f8, f9⟩ := hf
  have fits : ∀ {B x : ℤ}, B ≤ 2^26 → -B ≤ x ∧ x ≤ B → sint 64 (x * 121665) = some (x * 121665) := by
    intro B x hB hx
    apply sint_of_mem <;> norm_num at hB ⊢ <;> omega
  have hO : (2 : ℤ)^25 + 2^19 ≤ 2^26 := by norm_num
  refine ⟨⟨f.h0 * 121665, f.h1 * 121665, f.h2 * 121665, f.h3 * 121665, f.h4 * 121665, f.h5 * 121665,
    f.h6 * 121665, f.h7 * 121665, f.h8 * 121665, f.h9 * 121665⟩, ?_, ?_, ?_⟩
  · rw [scaleColumns, bind_of_some (fits le_rfl f0), bind_of_some (fits hO f1),
      bind_of_some (fits le_rfl f2), bind_of_some (fits hO f3), bind_of_some (fits le_rfl f4),
      bind_of_some (fits hO f5), bind_of_some (fits le_rfl f6), bind_of_some (fits hO f7),
      bind_of_some (fits le_rfl f8), bind_of_some (fits hO f9)]
    rfl
  · constructor <;> dsimp only <;> omega
  · simp only [Fe.value]
    ring

/-- The carries of `fe_mul121665` keep the number modulo the prime and leave tight limbs. -/
theorem scaleCarries_spec (hh : h.Within (2^26 * 121665) ((2^25 + 2^19) * 121665)) :
    ∃ r c, scaleCarries h = some r ∧ h.value = r.value + (2^255 - 19) * c ∧ r.Tight := by
  obtain ⟨a0, a1, a2, a3, a4, a5, a6, a7, a8, a9⟩ := hh
  obtain ⟨c1, x9, x0, e1, C1, b1⟩ := roundCarry_spec (b := 25) (m := 19)
    (loosen (by norm_num) a9) (loosen (by norm_num) a0) (.inl rfl) (by norm_num)
  obtain ⟨c2, x1, x2, e2, C2, b2⟩ := roundCarry_odd (loosen (by norm_num) a1) (loosen (by norm_num) a2)
  obtain ⟨c3, x3, x4, e3, C3, b3⟩ := roundCarry_odd (loosen (by norm_num) a3) (loosen (by norm_num) a4)
  obtain ⟨c4, x5, x6, e4, C4, b4⟩ := roundCarry_odd (loosen (by norm_num) a5) (loosen (by norm_num) a6)
  obtain ⟨c5, x7, x8, e5, C5, b5⟩ := roundCarry_odd (loosen (by norm_num) a7) (loosen (by norm_num) a8)
  obtain ⟨c6, y0, y1, e6, C6, -⟩ := roundCarry_even b1 (loosen (by norm_num) C2.odd)
  obtain ⟨c7, y2, y3, e7, C7, -⟩ := roundCarry_even b2 (loosen (by norm_num) C3.odd)
  obtain ⟨c8, y4, y5, e8, C8, -⟩ := roundCarry_even b3 (loosen (by norm_num) C4.odd)
  obtain ⟨c9, y6, y7, e9, C9, -⟩ := roundCarry_even b4 (loosen (by norm_num) C5.odd)
  obtain ⟨c10, y8, y9, e10, C10, -⟩ := roundCarry_even b5 (loosen (by norm_num) C1.odd)
  refine ⟨⟨y0, y1, y2, y3, y4, y5, y6, y7, y8, y9⟩, c1, ?_, ?_, ?_⟩
  · rw [scaleCarries, bind_of_some e1]
    dsimp only
    rw [bind_of_some e2]
    rw [bind_of_some e3]
    rw [bind_of_some e4]
    rw [bind_of_some e5]
    rw [bind_of_some e6]
    rw [bind_of_some e7]
    rw [bind_of_some e8]
    rw [bind_of_some e9]
    rw [bind_of_some e10]
    rfl
  · rw [Fe.value, Fe.value, C10.limb, C10.next, C9.limb, C9.next, C8.limb, C8.next, C7.limb, C7.next, C6.limb,
      C6.next, C5.limb, C5.next, C4.limb, C4.next, C3.limb, C3.next, C2.limb, C2.next, C1.limb, C1.next]
    ring
  · have d6 := C1.relay (by norm_num) C6 a9 a0
    have d7 := C2.relay (by norm_num) C7 a1 a2
    have d8 := C3.relay (by norm_num) C8 a3 a4
    have d9 := C4.relay (by norm_num) C9 a5 a6
    have d10 := C5.relay (by norm_num) C10 a7 a8
    exact ⟨C6.even, C2.odd_add d6 C6.next, C7.even, C3.odd_add d7 C7.next, C8.even,
      C4.odd_add d8 C8.next, C9.even, C5.odd_add d9 C9.next, C10.even, C1.odd_add d10 C10.next⟩

/-- `fe_mul121665` multiplies by 121665. -/
theorem feMul121665_spec (hf : f.Wide) : ∃ r, feMul121665 f = some r ∧ r.num = 121665 * f.num ∧ r.Tight := by
  obtain ⟨r, ecol, hr, hcol⟩ := scaleColumns_eq hf
  obtain ⟨t, c, ecarry, hvalue, htight⟩ := scaleCarries_spec hr
  refine ⟨t, ?_, ?_, htight⟩
  · rw [feMul121665, bind_of_some ecol, bind_of_some ecarry, narrow_eq htight]
  have hprod : 121665 * f.value = t.value + (2^255 - 19) * c := by
    rw [← hvalue, hcol]
    ring
  have hcast : ((121665 * f.value : ℤ) : Field) = 121665 * f.num := by
    rw [Int.cast_mul]
    rfl
  rw [← hcast]
  exact (cast_eq_of_sub hprod).symm

/-! ## Inversion -/

/-- A product of two powers of one element. -/
theorem feMul_pow {z : Field} {a b : ℕ} (hf : f.Wide) (hg : g.Wide) (ha : f.num = z^a)
    (hb : g.num = z^b) : ∃ r, feMul f g = some r ∧ r.num = z^(a + b) ∧ r.Tight := by
  obtain ⟨r, hr, hnum, htight⟩ := feMul_spec hf hg
  exact ⟨r, hr, by rw [hnum, ha, hb, pow_add], htight⟩

theorem feSq_pow {z : Field} {a : ℕ} (hf : f.Wide) (ha : f.num = z^a) :
    ∃ r, feSq f = some r ∧ r.num = z^(2 * a) ∧ r.Tight := by
  obtain ⟨r, hr, hnum, htight⟩ := feMul_pow hf hf ha ha
  exact ⟨r, hr, by rw [hnum, two_mul], htight⟩

/-- Squaring `n` times raises to the power `2^n`. -/
theorem feSqTimes_pow (n : ℕ) {z : Field} {a : ℕ} (hf : f.Tight) (ha : f.num = z^a) :
    ∃ r, feSqTimes n f = some r ∧ r.num = z^(a * 2^n) ∧ r.Tight := by
  induction n generalizing f a with
  | zero => exact ⟨f, rfl, by rw [pow_zero, mul_one, ha], hf⟩
  | succ n ih =>
    obtain ⟨s, hs, hnum, htight⟩ := feSq_pow hf.wide ha
    obtain ⟨r, hr, hnum', htight'⟩ := ih htight hnum
    refine ⟨r, ?_, ?_, htight'⟩
    · rw [feSqTimes, bind_of_some hs, hr]
    · rw [hnum', Nat.pow_succ', mul_left_comm, mul_assoc]

theorem invertLow_spec {z : Fe} (hz : z.Wide) :
    ∃ z11 z10 z20, invertLow z = some (z11, z10, z20) ∧
      (z11.num = z.num^11 ∧ z11.Tight) ∧ (z10.num = z.num^(2^10 - 1) ∧ z10.Tight) ∧
      (z20.num = z.num^(2^20 - 1) ∧ z20.Tight) := by
  have h1 : z.num = z.num^1 := (pow_one _).symm
  obtain ⟨z2, e2, n2, t2⟩ := feSq_pow hz h1
  obtain ⟨z4, e4, n4, t4⟩ := feSq_pow t2.wide n2
  obtain ⟨z8, e8, n8, t8⟩ := feSq_pow t4.wide n4
  obtain ⟨z9, e9, n9, t9⟩ := feMul_pow t8.wide hz n8 h1
  obtain ⟨z11, e11, n11, t11⟩ := feMul_pow t9.wide t2.wide n9 n2
  obtain ⟨z22, e22, n22, t22⟩ := feSq_pow t11.wide n11
  obtain ⟨z5, e5, n5, t5⟩ := feMul_pow t22.wide t9.wide n22 n9
  obtain ⟨s5, f5, m5, u5⟩ := feSq_pow t5.wide n5
  obtain ⟨s9, f9, m9, u9⟩ := feSqTimes_pow 4 u5 m5
  obtain ⟨z10, e10, n10, t10⟩ := feMul_pow u9.wide t5.wide m9 n5
  obtain ⟨s10, f10, m10, u10⟩ := feSq_pow t10.wide n10
  obtain ⟨s19, f19, m19, u19⟩ := feSqTimes_pow 9 u10 m10
  obtain ⟨z20, e20, n20, t20⟩ := feMul_pow u19.wide t10.wide m19 n10
  refine ⟨z11, z10, z20, ?_, ⟨n11, t11⟩, ⟨n10, t10⟩, ⟨n20, t20⟩⟩
  rw [invertLow, bind_of_some e2, bind_of_some e4, bind_of_some e8, bind_of_some e9,
    bind_of_some e11, bind_of_some e22, bind_of_some e5, bind_of_some f5, bind_of_some f9,
    bind_of_some e10, bind_of_some f10, bind_of_some f19, bind_of_some e20]
  rfl

theorem invertHigh_spec {z11 z10 z20 : Fe} {z : Field} (h11 : z11.num = z^11 ∧ z11.Tight)
    (h10 : z10.num = z^(2^10 - 1) ∧ z10.Tight) (h20 : z20.num = z^(2^20 - 1) ∧ z20.Tight) :
    ∃ r, invertHigh z11 z10 z20 = some r ∧ r.num = z^(prime - 2) ∧ r.Tight := by
  obtain ⟨n11, t11⟩ := h11
  obtain ⟨n10, t10⟩ := h10
  obtain ⟨n20, t20⟩ := h20
  obtain ⟨a1, e1, m1, u1⟩ := feSq_pow t20.wide n20
  obtain ⟨a2, e2, m2, u2⟩ := feSqTimes_pow 19 u1 m1
  obtain ⟨a3, e3, m3, u3⟩ := feMul_pow u2.wide t20.wide m2 n20
  obtain ⟨a4, e4, m4, u4⟩ := feSqTimes_pow 10 u3 m3
  obtain ⟨z50, e50, n50, t50⟩ := feMul_pow u4.wide t10.wide m4 n10
  obtain ⟨a5, e5, m5, u5⟩ := feSq_pow t50.wide n50
  obtain ⟨a6, e6, m6, u6⟩ := feSqTimes_pow 49 u5 m5
  obtain ⟨a7, e7, m7, u7⟩ := feMul_pow u6.wide t50.wide m6 n50
  obtain ⟨a8, e8, m8, u8⟩ := feSq_pow u7.wide m7
  obtain ⟨a9, e9, m9, u9⟩ := feSqTimes_pow 99 u8 m8
  obtain ⟨a10, e10, m10, u10⟩ := feMul_pow u9.wide u7.wide m9 m7
  obtain ⟨a11, e11, m11, u11⟩ := feSqTimes_pow 50 u10 m10
  obtain ⟨a12, e12, m12, u12⟩ := feMul_pow u11.wide t50.wide m11 n50
  obtain ⟨a13, e13, m13, u13⟩ := feSqTimes_pow 5 u12 m12
  obtain ⟨r, e, m, u⟩ := feMul_pow u13.wide t11.wide m13 n11
  refine ⟨r, ?_, ?_, u⟩
  · rw [invertHigh, bind_of_some e1, bind_of_some e2, bind_of_some e3, bind_of_some e4,
      bind_of_some e50, bind_of_some e5, bind_of_some e6, bind_of_some e7, bind_of_some e8,
      bind_of_some e9, bind_of_some e10, bind_of_some e11, bind_of_some e12, bind_of_some e13, e]
  · rw [m]
    congr 1

/-- `fe_invert` raises to the power `p - 2`. -/
theorem feInvert_spec {z : Fe} (hz : z.Wide) :
    ∃ r, feInvert z = some r ∧ r.num = z.num^(prime - 2) ∧ r.Tight := by
  obtain ⟨z11, z10, z20, hlow, h11, h10, h20⟩ := invertLow_spec hz
  obtain ⟨r, hhigh, hnum, htight⟩ := invertHigh_spec h11 h10 h20
  refine ⟨r, ?_, hnum, htight⟩
  rw [feInvert, bind_of_some hlow]
  exact hhigh

end FreeAsd.X25519
