import Mathlib.Data.Nat.Notation

/-!
# Lists that grow at the end
-/

namespace FreeAsd

open List

variable {α : Type*} {l : List α} {a x : α} {i : ℕ}

theorem getElem?_concat_eq_some : (l ++ [a])[i]? = some x ↔ l[i]? = some x ∨ i = l.length ∧ x = a := by
  rcases Nat.lt_or_ge i l.length with hlt | hge
  · simp [getElem?_append_left hlt, Nat.ne_of_lt hlt]
  · rw [getElem?_append_right hge, getElem?_eq_none hge, getElem?_singleton]
    grind

end FreeAsd
