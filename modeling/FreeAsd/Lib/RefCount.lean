import Mathlib.Algebra.BigOperators.Ring.Finset
import Mathlib.Tactic.Ring

/-!
# Reference counts

Finitely many holders each hold at most one object. `refs` is the number of holders of an object, and
`refs_update` says how it changes when one holder lets go of what it has and takes something else.
-/

namespace FreeAsd

open Function Finset

variable {H O : Type*} [Fintype H] [DecidableEq O]

/-- The number of holders of an object. -/
def refs (held : H → Option O) (o : O) : ℕ := (Finset.univ.filter (held · = some o)).card

variable {held : H → Option O} {h : H} {o : O}

/-- One holder changes: its old object loses a reference and its new one gains one. -/
theorem refs_update [DecidableEq H] (held : H → Option O) (h : H) (v : Option O) (o : O) :
    refs (update held h v) o + (if held h = some o then 1 else 0) =
      refs held o + (if v = some o then 1 else 0) := by
  have hrest : ∑ h' ∈ univ.erase h, (if update held h v h' = some o then 1 else 0) =
      ∑ h' ∈ univ.erase h, if held h' = some o then 1 else 0 := by
    apply sum_congr rfl
    intro h' hh'
    rw [update_of_ne (ne_of_mem_erase hh')]
  rw [refs, refs, card_filter, card_filter, ← add_sum_erase _ _ (mem_univ h), hrest,
    update_self, ← add_sum_erase _ _ (mem_univ h)]
  ring

theorem refs_pos (hh : held h = some o) : 0 < refs held o := card_pos.mpr ⟨h, mem_filter.mpr ⟨mem_univ h, hh⟩⟩

theorem refs_eq_zero (hh : ∀ h, held h ≠ some o) : refs held o = 0 :=
  card_eq_zero.mpr (filter_eq_empty_iff.mpr fun h _ => hh h)

theorem refs_le (held : H → Option O) (o : O) : refs held o ≤ Fintype.card H := card_le_univ _

end FreeAsd
