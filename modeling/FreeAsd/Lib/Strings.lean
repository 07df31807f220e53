import FreeAsd.Lib.Bytes

/-!
# Strings in memory

`Spells m a s` says that the bytes of `m` from `a` on are those of `s`, and `StrAt m a s` that they are those
of a C string. `scanWhile` is the loop `while (p(*x)) x++`, which stops at the first byte that fails the test
(`scanWhile_eq`).
-/

namespace FreeAsd

open Nat List

/-- The bytes from `a` on are those of a list. -/
def Spells (m : Mem) (a : ℕ) : List UInt8 → Prop
  | [] => True
  | x :: s => m a = x ∧ Spells m (a + 1) s

/-- A C string at `a`. -/
def StrAt (m : Mem) (a : ℕ) (s : CStr) : Prop := Spells m a s ∧ m (a + s.length) = 0 ∧ 0 ∉ s

/-- The loop `while (p(*x)) x++`. -/
def scanWhile (p : UInt8 → Bool) (m : Mem) : ℕ → ℕ → ℕ
  | 0, x => x
  | fuel + 1, x => if p (m x) then scanWhile p m fuel (x + 1) else x

/-- `strlen`. -/
def strlenAt (m : Mem) (fuel a : ℕ) : ℕ := scanWhile (· ≠ 0) m fuel a - a

variable {m m' src : Mem} {a b x : ℕ} {s t : List UInt8}

theorem spells_append : Spells m a (s ++ t) ↔ Spells m a s ∧ Spells m (a + s.length) t := by
  induction s generalizing a with
  | nil => simp [Spells]
  | cons y s ih =>
    rw [cons_append, Spells, Spells, ih, length_cons, and_assoc, add_assoc, add_comm 1]

/-- The bytes of a list depend on the bytes of its place only. -/
theorem Spells.congr (h : Spells m a s) (heq : ∀ x, a ≤ x → x < a + s.length → m' x = m x) : Spells m' a s := by
  induction s generalizing a with
  | nil => trivial
  | cons y s ih =>
    rw [length_cons] at heq
    exact ⟨(heq a le_rfl (by omega)).trans h.1, ih h.2 fun x hx hx' => heq x (by omega) (by omega)⟩

/-- What is spelt at a place is determined by the length. -/
theorem Spells.unique (hs : Spells m a s) (ht : Spells m a t) (hlen : s.length = t.length) : s = t := by
  induction s generalizing a t with
  | nil => exact (length_eq_zero_iff.mp hlen.symm).symm
  | cons y s ih =>
    cases t with
    | nil => exact absurd hlen (succ_ne_zero _)
    | cons z t =>
      obtain rfl : y = z := hs.1.symm.trans ht.1
      rw [ih hs.2 ht.2 (succ.inj hlen)]

theorem Spells.getD (h : Spells m a s) {i : ℕ} (hi : i < s.length) : m (a + i) = s.getD i 0 := by
  induction s generalizing a i with
  | nil => exact absurd hi (not_lt_zero i)
  | cons y s ih =>
    cases i with
    | zero => exact h.1
    | succ i =>
      rw [show a + (i + 1) = a + 1 + i by omega]
      exact ih h.2 (lt_of_succ_lt_succ hi)

theorem spells_of_getD (h : ∀ i < s.length, m (a + i) = s.getD i 0) : Spells m a s := by
  induction s generalizing a with
  | nil => trivial
  | cons y s ih =>
    refine ⟨h 0 (succ_pos _), ih fun i hi => ?_⟩
    rw [show a + 1 + i = a + (i + 1) by omega]
    exact h (i + 1) (succ_lt_succ hi)

/-- A `memcpy` takes the bytes of its source with it. -/
theorem Spells.copy (h : Spells src b s) : Spells (m.copy a src b s.length) a s := by
  apply spells_of_getD
  intro i hi
  rw [Mem.copy_of_mem hi, h.getD hi]

theorem StrAt.congr (h : StrAt m a s) (heq : ∀ x, a ≤ x → x ≤ a + s.length → m' x = m x) : StrAt m' a s :=
  ⟨h.1.congr fun x hx hx' => heq x hx hx'.le, (heq _ (by omega) le_rfl).trans h.2.1, h.2.2⟩

/-- The loop stops behind the bytes that pass the test. -/
theorem scanWhile_eq {p : UInt8 → Bool} {fuel : ℕ} (hs : Spells m a s) (hall : ∀ c ∈ s, p c)
    (hstop : p (m (a + s.length)) = false) (hfuel : s.length < fuel) :
    scanWhile p m fuel a = a + s.length := by
  induction s generalizing a fuel with
  | nil =>
    obtain ⟨fuel, rfl⟩ := exists_eq_succ_of_ne_zero (pos_iff_ne_zero.mp hfuel)
    rw [scanWhile, if_neg (by simpa using hstop)]
    rfl
  | cons y s ih =>
    obtain ⟨fuel, rfl⟩ := exists_eq_succ_of_ne_zero (ne_zero_of_lt hfuel)
    have hy : p (m a) = true := by
      rw [hs.1]
      exact hall y mem_cons_self
    rw [length_cons, show a + (s.length + 1) = a + 1 + s.length by omega] at hstop ⊢
    rw [scanWhile, if_pos hy]
    exact ih hs.2 (forall_mem_cons.mp hall).2 hstop (lt_of_succ_lt_succ hfuel)

theorem strlenAt_eq {fuel : ℕ} (h : StrAt m a s) (hfuel : s.length < fuel) : strlenAt m fuel a = s.length := by
  have hscan := scanWhile_eq (p := (· ≠ 0)) h.1 (decide_ne_of_notMem h.2.2) (by rw [h.2.1]; rfl) hfuel
  rw [strlenAt, hscan, Nat.add_sub_cancel_left]

/-- Strings at one place are equal. -/
theorem StrAt.unique (hs : StrAt m a s) (ht : StrAt m a t) : s = t := by
  apply hs.1.unique ht.1
  have hs' := strlenAt_eq hs (show s.length < s.length + t.length + 1 by omega)
  have ht' := strlenAt_eq ht (show t.length < s.length + t.length + 1 by omega)
  exact hs'.symm.trans ht'

end FreeAsd
