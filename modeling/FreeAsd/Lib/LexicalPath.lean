import Mathlib.Algebra.GroupWithZero.Nat
import Mathlib.Data.List.Infix

/-!
# Lexical paths

Paths over any alphabet with a separator and a dot, read as lists of components. `lexNormal` drops empty
components and those of one dot, and lets one of two dots take the previous one away. The normal form
consists of proper components (`mem_lexNormal`), and `render` writes an absolute path from it.
-/

namespace FreeAsd

open List

variable {α : Type}

/-- A component that names something. -/
structure Proper (dot : α) (seg : List α) : Prop where
  ne_nil : seg ≠ []
  ne_dot : seg ≠ [dot]
  ne_dots : seg ≠ [dot, dot]

/-- One component after those of `stk`. -/
def lexStep [DecidableEq α] (dot : α) (stk : List (List α)) (seg : List α) : List (List α) :=
  if seg = [] ∨ seg = [dot] then stk
  else if seg = [dot, dot] then stk.dropLast
  else stk ++ [seg]

/-- The components that are left of a path. -/
def lexNormal [DecidableEq α] (dot : α) (segs : List (List α)) : List (List α) :=
  segs.foldl (lexStep dot) []

/-- The absolute path of some components. -/
def render (sep : α) : List (List α) → List α
  | [] => [sep]
  | seg :: segs => (seg :: segs).flatMap (sep :: ·)

/-- The number of characters of some components, with a separator before each. -/
def rendered (segs : List (List α)) : ℕ := (segs.map fun seg => seg.length + 1).sum

variable {sep dot : α} {seg : List α} {stk segs : List (List α)}

theorem rendered_append (stk segs : List (List α)) : rendered (stk ++ segs) = rendered stk + rendered segs := by
  rw [rendered, map_append, sum_append]
  rfl

theorem rendered_cons (seg : List α) (segs : List (List α)) :
    rendered (seg :: segs) = seg.length + 1 + rendered segs := rfl

theorem rendered_singleton (seg : List α) : rendered [seg] = seg.length + 1 := rfl

theorem rendered_le_of_sublist (h : stk.Sublist segs) : rendered stk ≤ rendered segs := by
  induction h with
  | slnil => exact le_rfl
  | cons seg _ ih =>
    rw [rendered_cons]
    omega
  | cons_cons seg _ ih =>
    rw [rendered_cons, rendered_cons]
    omega

theorem two_mul_length_le_rendered (h : ∀ seg ∈ segs, seg ≠ []) : 2 * segs.length ≤ rendered segs := by
  induction segs with
  | nil => exact Nat.zero_le _
  | cons seg segs ih =>
    have hpos : 0 < seg.length := length_pos_iff.mpr (h seg mem_cons_self)
    have hrest := ih (forall_mem_cons.mp h).2
    rw [rendered_cons, length_cons]
    omega

theorem flatMap_eq_intercalate (h : segs ≠ []) : segs.flatMap (sep :: ·) = sep :: [sep].intercalate segs := by
  induction segs with
  | nil => exact absurd rfl h
  | cons seg segs ih =>
    cases segs with
    | nil => simp
    | cons next segs =>
      rw [flatMap_cons, ih (cons_ne_nil next segs)]
      simp

variable [DecidableEq α]

theorem lexStep_of_proper (h : Proper dot seg) : lexStep dot stk seg = stk ++ [seg] := by
  rw [lexStep, if_neg (not_or.mpr ⟨h.ne_nil, h.ne_dot⟩), if_neg h.ne_dots]

@[simp] theorem lexStep_nil : lexStep dot stk [] = stk := if_pos (.inl rfl)

/-- What a step can do. -/
theorem lexStep_cases (dot : α) (stk : List (List α)) (seg : List α) :
    lexStep dot stk seg = stk ∨ lexStep dot stk seg = stk.dropLast ∨
      Proper dot seg ∧ lexStep dot stk seg = stk ++ [seg] := by
  unfold lexStep
  split_ifs with hskip hdots
  · exact .inl rfl
  · exact .inr (.inl rfl)
  · obtain ⟨hnil, hdot⟩ := not_or.mp hskip
    exact .inr (.inr ⟨⟨hnil, hdot, hdots⟩, rfl⟩)

/-- A component on the stack is proper, and it was there or is the one that comes. -/
theorem mem_lexStep {x : List α} (h : x ∈ lexStep dot stk seg) : x ∈ stk ∨ x = seg ∧ Proper dot seg := by
  rcases lexStep_cases dot stk seg with e | e | ⟨hproper, e⟩
  · exact .inl (e ▸ h)
  · exact .inl (mem_of_mem_dropLast (e ▸ h))
  · rw [e, mem_append, mem_singleton] at h
    exact h.imp id fun hx => ⟨hx, hproper⟩

theorem mem_foldl_lexStep {x : List α} (h : x ∈ segs.foldl (lexStep dot) stk) :
    x ∈ stk ∨ x ∈ segs ∧ Proper dot x := by
  induction segs generalizing stk with
  | nil => exact .inl h
  | cons seg segs ih =>
    rcases ih h with hstk | ⟨hmem, hproper⟩
    · rcases mem_lexStep hstk with hx | ⟨rfl, hproper⟩
      · exact .inl hx
      · exact .inr ⟨mem_cons_self, hproper⟩
    · exact .inr ⟨mem_cons_of_mem seg hmem, hproper⟩

theorem mem_lexNormal {x : List α} (h : x ∈ lexNormal dot segs) : x ∈ segs ∧ Proper dot x :=
  (mem_foldl_lexStep h).resolve_left not_mem_nil

theorem foldl_lexStep_of_proper (h : ∀ seg ∈ segs, Proper dot seg) :
    segs.foldl (lexStep dot) stk = stk ++ segs := by
  induction segs generalizing stk with
  | nil => exact (append_nil stk).symm
  | cons seg segs ih =>
    rw [foldl_cons, lexStep_of_proper (h seg mem_cons_self),
      ih (forall_mem_cons.mp h).2, append_assoc, singleton_append]

theorem rendered_lexStep_le :
    rendered (lexStep dot stk seg) ≤ rendered stk + if seg = [] then 0 else seg.length + 1 := by
  rcases lexStep_cases dot stk seg with e | e | ⟨hproper, e⟩
  · rw [e]
    exact Nat.le_add_right _ _
  · rw [e]
    exact (rendered_le_of_sublist (dropLast_sublist stk)).trans (Nat.le_add_right _ _)
  · rw [e, rendered_append, if_neg hproper.ne_nil, rendered_singleton]

/-- A normal form is not longer than the components that it is made from. -/
theorem rendered_foldl_le :
    rendered (segs.foldl (lexStep dot) stk) ≤ rendered stk + rendered (segs.filter (· ≠ [])) := by
  induction segs generalizing stk with
  | nil => exact Nat.le_add_right _ _
  | cons seg segs ih =>
    have hstep : rendered (lexStep dot stk seg) ≤ _ := rendered_lexStep_le
    refine ih.trans ?_
    by_cases hnil : seg = []
    · rw [if_pos hnil] at hstep
      rw [filter_cons_of_neg (by simpa using hnil)]
      omega
    · rw [if_neg hnil] at hstep
      rw [filter_cons_of_pos (by simpa using hnil), rendered_cons]
      omega

/-! ## Reading and writing -/

/-- A part of a path is made from its characters other than the separator. -/
theorem mem_splitOn_imp {path : List α} (h : seg ∈ path.splitOn sep) : sep ∉ seg ∧ ∀ x ∈ seg, x ∈ path := by
  induction path generalizing seg with
  | nil =>
    rw [splitOn_nil, mem_singleton] at h
    rw [h]
    exact ⟨not_mem_nil, fun _ hx => hx⟩
  | cons c path ih =>
    obtain ⟨first, rest, hsplit⟩ := exists_cons_of_ne_nil (splitOn_ne_nil sep path)
    rw [splitOn_cons_eq_if_modifyHead, hsplit] at h
    rw [hsplit] at ih
    split_ifs at h with hc
    · grind
    · rw [modifyHead_cons] at h
      grind

/-- A separator in front starts with an empty component. -/
theorem splitOn_cons_self (path : List α) : (sep :: path).splitOn sep = [] :: path.splitOn sep := by
  rw [splitOn_cons_eq_if_modifyHead, if_pos (beq_self_eq_true sep)]

theorem splitOn_flatMap (hsep : ∀ seg ∈ segs, sep ∉ seg) :
    (segs.flatMap (sep :: ·)).splitOn sep = [] :: segs := by
  by_cases h : segs = []
  · rw [h]
    exact splitOn_nil sep
  · rw [flatMap_eq_intercalate h, splitOn_cons_self, splitOn_intercalate sep hsep h]

/-- A path is determined by its parts. -/
theorem splitOn_injective {path path' : List α} (h : path.splitOn sep = path'.splitOn sep) : path = path' :=
  calc path = [sep].intercalate (path.splitOn sep) := (List.intercalate_splitOn sep).symm
    _ = [sep].intercalate (path'.splitOn sep) := by rw [h]
    _ = path' := intercalate_splitOn sep

/-- Writing the parts with a separator before each. -/
theorem flatMap_splitOn (path : List α) : (path.splitOn sep).flatMap (sep :: ·) = sep :: path := by
  rw [flatMap_eq_intercalate (splitOn_ne_nil sep path), intercalate_splitOn]

/-- The parts of a path between separators are as long as the path. -/
theorem rendered_splitOn (path : List α) : rendered (path.splitOn sep) = path.length + 1 := by
  rw [← length_cons (a := sep), ← flatMap_splitOn, length_flatMap]
  rfl

/-- The parts of a path are the first ones of another path exactly if the paths are equal or the other
one goes on with a separator. -/
theorem splitOn_isPrefix_iff {path path' : List α} :
    path.splitOn sep <+: path'.splitOn sep ↔
      path' = path ∨ ∃ rest, path' = path ++ sep :: rest := by
  constructor
  · rintro ⟨q, hq⟩
    cases q with
    | nil =>
      rw [append_nil] at hq
      exact .inl (splitOn_injective hq).symm
    | cons seg q =>
      have hsep : ∀ x ∈ seg :: q, sep ∉ x := fun x hx =>
        (mem_splitOn_imp (hq ▸ mem_append_right _ hx)).1
      have hsplit : path'.splitOn sep = (path ++ sep :: [sep].intercalate (seg :: q)).splitOn sep := by
        rw [splitOn_append_cons_self, splitOn_intercalate sep hsep (cons_ne_nil seg q), hq]
      exact .inr ⟨_, splitOn_injective hsplit⟩
  · rintro (rfl | ⟨rest, rfl⟩)
    · exact prefix_rfl
    · rw [splitOn_append_cons_self]
      exact prefix_append _ _

end FreeAsd
