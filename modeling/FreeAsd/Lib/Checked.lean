import Mathlib.Algebra.Order.Ring.Abs
import Mathlib.Tactic.Linarith
import Mathlib.Tactic.Ring

/-!
# Signed arithmetic that may overflow

`sint w x` is `x` if a signed word of `w` bits holds it, and nothing otherwise, so a computation with `sint` at
every operation has a result only if nothing in it overflows. `dot` is a checked sum of products (`dot_spec`).
-/

namespace FreeAsd

/-- A value of a signed type of `w` bits, or nothing if it overflows. -/
def sint (w : ℕ) (x : ℤ) : Option ℤ := if -2^(w - 1) ≤ x ∧ x < 2^(w - 1) then some x else none

theorem sint_of_mem {w : ℕ} {x : ℤ} (h : -2^(w - 1) ≤ x) (h' : x < 2^(w - 1)) : sint w x = some x :=
  if_pos ⟨h, h'⟩

/-- Peel the first of two computations. -/
theorem bind_of_some {α β : Type} {o : Option α} {a : α} (h : o = some a) (f : α → Option β) :
    (o >>= f) = f a := by
  rw [h]
  rfl

theorem bind_sint {β : Type} {w : ℕ} {x : ℤ} (h : -2^(w - 1) ≤ x ∧ x < 2^(w - 1)) (f : ℤ → Option β) :
    (sint w x >>= f) = f x :=
  bind_of_some (sint_of_mem h.1 h.2) f

/-- A sum of products, left to right. -/
def dot (w : ℕ) : ℤ → List (ℤ × ℤ) → Option ℤ
  | acc, [] => some acc
  | acc, (a, b) :: l => do
    let product ← sint w (a * b)
    let sum ← sint w (acc + product)
    dot w sum l

/-- The value of a sum of products. -/
def dotValue (l : List (ℤ × ℤ)) : ℤ := (l.map fun p => p.1 * p.2).sum

/-- The factors of a sum of products are at most `A` and at most `B`. -/
def Factors (A B : ℤ) (l : List (ℤ × ℤ)) : Prop :=
  ∀ p ∈ l, (-A ≤ p.1 ∧ p.1 ≤ A) ∧ (-B ≤ p.2 ∧ p.2 ≤ B)

@[simp] theorem factors_nil {A B : ℤ} : Factors A B [] := nofun

@[simp] theorem factors_cons {A B a b : ℤ} {l : List (ℤ × ℤ)} :
    Factors A B ((a, b) :: l) ↔ ((-A ≤ a ∧ a ≤ A) ∧ (-B ≤ b ∧ b ≤ B)) ∧ Factors A B l :=
  List.forall_mem_cons

/-- A sum of products does not overflow if the number of its summands times the greatest product is
in range. -/
theorem dot_spec {w : ℕ} {A B : ℤ} {l : List (ℤ × ℤ)} {acc : ℤ} (hA : 0 ≤ A) (hB : 0 ≤ B)
    (hl : Factors A B l) (hacc : |acc| + l.length * (A * B) < 2^(w - 1)) :
    dot w acc l = some (acc + dotValue l) ∧
      |acc + dotValue l| ≤ |acc| + l.length * (A * B) := by
  induction l generalizing acc with
  | nil => simp [dot, dotValue]
  | cons p l ih =>
    obtain ⟨a, b⟩ := p
    obtain ⟨⟨ha, hb⟩, hl⟩ := factors_cons.mp hl
    have hAB : 0 ≤ A * B := mul_nonneg hA hB
    have hlen : ((((a, b) :: l).length : ℕ) : ℤ) * (A * B) = l.length * (A * B) + A * B := by
      rw [List.length_cons]
      push_cast
      ring
    have hrest : 0 ≤ (l.length : ℤ) * (A * B) := mul_nonneg (Int.natCast_nonneg _) hAB
    rw [hlen] at hacc ⊢
    have hprod : |a * b| ≤ A * B := by
      rw [abs_mul]
      exact mul_le_mul (abs_le.mpr ha) (abs_le.mpr hb) (abs_nonneg b) hA
    have hsum : |acc + a * b| ≤ |acc| + A * B := (abs_add_le _ _).trans (by linarith)
    have hacc0 := abs_nonneg acc
    obtain ⟨hp, hp'⟩ := abs_le.mp hprod
    obtain ⟨hs, hs'⟩ := abs_le.mp hsum
    have hstep : dot w acc ((a, b) :: l) = dot w (acc + a * b) l := by
      rw [dot, bind_sint ⟨by linarith, by linarith⟩, bind_sint ⟨by linarith, by linarith⟩]
    have hval : acc + dotValue ((a, b) :: l) = acc + a * b + dotValue l := by
      rw [dotValue, List.map_cons, List.sum_cons, dotValue, add_assoc]
    obtain ⟨hdot, hbound⟩ := ih hl (by linarith)
    rw [hstep, hval]
    exact ⟨hdot, by linarith⟩

/-- `dot_spec` from zero, with a bound on the sum. -/
theorem dot_zero_spec {w : ℕ} {A B N : ℤ} {l : List (ℤ × ℤ)} (hA : 0 ≤ A) (hB : 0 ≤ B)
    (hl : Factors A B l) (hlen : l.length * (A * B) ≤ N) (hN : N < 2^(w - 1)) :
    dot w 0 l = some (dotValue l) ∧ -N ≤ dotValue l ∧ dotValue l ≤ N := by
  obtain ⟨hdot, hbound⟩ := @dot_spec w A B l 0 hA hB hl (by rw [abs_zero]; linarith)
  rw [zero_add] at hdot hbound
  rw [abs_zero, zero_add] at hbound
  exact ⟨hdot, abs_le.mp (hbound.trans hlen)⟩

end FreeAsd
