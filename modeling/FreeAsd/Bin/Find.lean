import FreeAsd.Lib.Bytes
import Mathlib.Computability.Language

/-!
# Patterns of `find`

`smatch` of `userland/bin/find.c` against the language of a pattern, in which `*` stands for any string.
Whatever it accepts is in the language. But after a star that is not the last byte it tries only suffixes
that are not empty, so with two stars at the end a name can be lost (`smatch_iff`).
-/

namespace FreeAsd.Find

open List

variable {name pat : CStr}

/-- The loop of `smatch` after a star. -/
def starLoop (smatch : CStr → Bool) : CStr → Bool
  | [] => false
  | c :: name => smatch (c :: name) || starLoop smatch name

/-- `smatch`. -/
def smatch : CStr → CStr → Bool
  | name, [] => name = []
  | name, c :: pat =>
    if c = 42 then
      if pat = [] then true else starLoop (smatch · pat) name
    else
      match name with
      | [] => false
      | n :: name => if n ≠ c then false else smatch name pat

/-- What a pattern stands for. -/
def patLanguage (pat : CStr) : Language UInt8 := (pat.map fun c => if c = 42 then ⊤ else {[c]}).prod

/-! ## Stars and other bytes -/

theorem starLoop_iff {f : CStr → Bool} : starLoop f name = true ↔ ∃ t, t <:+ name ∧ t ≠ [] ∧ f t = true := by
  induction name with
  | nil => simp [starLoop]
  | cons c name ih =>
    rw [starLoop, Bool.or_eq_true, ih]
    constructor
    · rintro (h | ⟨t, ht, hne, h⟩)
      · exact ⟨c :: name, suffix_refl _, cons_ne_nil c name, h⟩
      · exact ⟨t, ht.trans (suffix_cons c name), hne, h⟩
    · rintro ⟨t, ht, hne, h⟩
      rcases suffix_cons_iff.mp ht with rfl | ht
      · exact .inl h
      · exact .inr ⟨t, ht, hne, h⟩

theorem mem_patLanguage_star : name ∈ patLanguage (42 :: pat) ↔ ∃ t, t <:+ name ∧ t ∈ patLanguage pat := by
  rw [patLanguage, map_cons, if_pos rfl, prod_cons, Language.mem_mul]
  constructor
  · rintro ⟨a, -, t, ht, rfl⟩
    exact ⟨t, suffix_append a t, ht⟩
  · rintro ⟨t, ⟨a, rfl⟩, ht⟩
    exact ⟨a, trivial, t, ht, rfl⟩

theorem mem_patLanguage_byte {c : UInt8} (hc : c ≠ 42) :
    name ∈ patLanguage (c :: pat) ↔ ∃ t ∈ patLanguage pat, name = c :: t := by
  rw [patLanguage, map_cons, if_neg hc, prod_cons, Language.mem_mul]
  constructor
  · rintro ⟨a, rfl, t, ht, rfl⟩
    exact ⟨t, ht, rfl⟩
  · rintro ⟨t, ht, rfl⟩
    exact ⟨[c], rfl, t, ht, rfl⟩

theorem smatch_star (hpat : pat ≠ []) :
    smatch name (42 :: pat) = true ↔ ∃ t, t <:+ name ∧ t ≠ [] ∧ smatch t pat = true := by
  rw [smatch.eq_def]
  dsimp only
  rw [if_pos rfl, if_neg hpat, starLoop_iff]

theorem smatch_byte {c : UInt8} (hc : c ≠ 42) :
    smatch name (c :: pat) = true ↔ ∃ t, smatch t pat = true ∧ name = c :: t := by
  rw [smatch.eq_def]
  dsimp only
  rw [if_neg hc]
  cases name with
  | nil => simp
  | cons n name => by_cases hn : n = c <;> simp [hn]

/-! ## The language -/

theorem mem_patLanguage_of_smatch (h : smatch name pat = true) : name ∈ patLanguage pat := by
  induction pat generalizing name with
  | nil =>
    have hname : name = [] := by simpa [smatch] using h
    exact hname
  | cons c pat ih =>
    by_cases hc : c = 42
    · subst hc
      rw [mem_patLanguage_star]
      by_cases hpat : pat = []
      · subst hpat
        exact ⟨[], nil_suffix, rfl⟩
      obtain ⟨t, ht, -, hmatch⟩ := (smatch_star hpat).mp h
      exact ⟨t, ht, ih hmatch⟩
    · obtain ⟨t, hmatch, rfl⟩ := (smatch_byte hc).mp h
      exact (mem_patLanguage_byte hc).mpr ⟨t, ih hmatch, rfl⟩

/-- A pattern that stands for the empty string has stars only. -/
theorem eq_star_of_nil_mem (h : [] ∈ patLanguage pat) : ∀ c ∈ pat, c = 42 := by
  induction pat with
  | nil => exact fun c hc => absurd hc not_mem_nil
  | cons c pat ih =>
    by_cases hc : c = 42
    · subst hc
      obtain ⟨t, ht, hmem⟩ := mem_patLanguage_star.mp h
      rw [suffix_nil.mp ht] at hmem
      exact forall_mem_cons.mpr ⟨rfl, ih hmem⟩
    · obtain ⟨t, -, heq⟩ := (mem_patLanguage_byte hc).mp h
      cases heq

theorem smatch_of_mem (hpat : ¬[42, 42] <:+ pat) (h : name ∈ patLanguage pat) : smatch name pat = true := by
  induction pat generalizing name with
  | nil =>
    have hname : name = [] := h
    simp [smatch, hname]
  | cons c pat ih =>
    have hrest : ¬[42, 42] <:+ pat := fun hs => hpat (hs.trans (suffix_cons c pat))
    by_cases hc : c = 42
    · subst hc
      by_cases hnil : pat = []
      · simp [smatch, hnil]
      obtain ⟨t, ht, hmem⟩ := mem_patLanguage_star.mp h
      refine (smatch_star hnil).mpr ⟨t, ht, ?_, ih hrest hmem⟩
      -- Otherwise there are stars up to the end, and this one is not the last.
      rintro rfl
      obtain ⟨front, last, rfl⟩ := eq_nil_or_concat pat |>.resolve_left hnil
      have hstars := eq_star_of_nil_mem hmem
      obtain rfl : last = 42 := hstars last (by simp)
      rcases eq_nil_or_concat front with rfl | ⟨front, c, rfl⟩
      · exact hpat (suffix_refl _)
      · obtain rfl : c = 42 := hstars c (by simp)
        exact hpat ⟨42 :: front, by simp⟩
    · obtain ⟨t, hmem, rfl⟩ := (mem_patLanguage_byte hc).mp h
      exact (smatch_byte hc).mpr ⟨t, ih hrest hmem, rfl⟩

/-! ## Two stars at the end -/

theorem mem_two_stars (name : CStr) : name ∈ patLanguage [42, 42] :=
  mem_patLanguage_star.mpr ⟨[], nil_suffix, mem_patLanguage_star.mpr ⟨[], nil_suffix, rfl⟩⟩

/-- The last star of two at the end takes a byte. -/
theorem smatch_two_stars (hpat : [42, 42] <:+ pat) :
    smatch name pat = true ↔ ∃ a c, name = a ++ [c] ∧ a ∈ patLanguage pat := by
  induction pat generalizing name with
  | nil => exact absurd (suffix_nil.mp hpat) (cons_ne_nil _ _)
  | cons p pat ih =>
    rcases suffix_cons_iff.mp hpat with heq | hrest
    · cases heq
      rw [smatch_star (cons_ne_nil _ _)]
      constructor
      · rintro ⟨t, ht, hne, -⟩
        have hname : name ≠ [] := fun hnil => hne (suffix_nil.mp (hnil ▸ ht))
        exact ⟨_, _, (dropLast_concat_getLast hname).symm, mem_two_stars _⟩
      · rintro ⟨a, c, rfl, -⟩
        exact ⟨a ++ [c], suffix_refl _, by simp, by simp [smatch]⟩
    by_cases hp : p = 42
    · subst hp
      have hnil : pat ≠ [] := fun e => by simp [e] at hrest
      rw [smatch_star hnil]
      constructor
      · rintro ⟨t, ⟨b, rfl⟩, -, hmatch⟩
        obtain ⟨a, c, rfl, ha⟩ := (ih hrest).mp hmatch
        exact ⟨b ++ a, c, by rw [append_assoc], mem_patLanguage_star.mpr ⟨a, suffix_append b a, ha⟩⟩
      · rintro ⟨a, c, rfl, ha⟩
        obtain ⟨u, ⟨b, rfl⟩, hu⟩ := mem_patLanguage_star.mp ha
        exact ⟨u ++ [c], ⟨b, by rw [append_assoc]⟩, by simp, (ih hrest).mpr ⟨u, c, rfl, hu⟩⟩
    · rw [smatch_byte hp]
      constructor
      · rintro ⟨t, hmatch, rfl⟩
        obtain ⟨a, c, rfl, ha⟩ := (ih hrest).mp hmatch
        exact ⟨p :: a, c, rfl, (mem_patLanguage_byte hp).mpr ⟨a, ha, rfl⟩⟩
      · rintro ⟨a, c, rfl, ha⟩
        obtain ⟨u, hu, rfl⟩ := (mem_patLanguage_byte hp).mp ha
        exact ⟨u ++ [c], (ih hrest).mpr ⟨u, c, rfl, hu⟩, rfl⟩

/-- `smatch` accepts names of the language of the pattern only. It accepts them all, except those that
without their last byte are not in the language, if the pattern ends with two stars. -/
theorem smatch_iff (name pat : CStr) :
    (smatch name pat = true → name ∈ patLanguage pat) ∧
      ((smatch name pat = true ↔ name ∈ patLanguage pat) ↔
        ([42, 42] <:+ pat → name ∈ patLanguage pat → ∃ a c, name = a ++ [c] ∧ a ∈ patLanguage pat)) := by
  refine ⟨mem_patLanguage_of_smatch, ?_⟩
  by_cases hpat : [42, 42] <:+ pat
  · rw [forall_prop_of_true hpat, ← smatch_two_stars hpat]
    exact ⟨Iff.mpr, fun h => ⟨mem_patLanguage_of_smatch, h⟩⟩
  · exact iff_of_true ⟨mem_patLanguage_of_smatch, smatch_of_mem hpat⟩ fun h => absurd h hpat

/-- The name `a` is in the language of `a**`, and `smatch` does not accept it. -/
theorem two_stars_lost : smatch (cstr "a") (cstr "a**") = false ∧ cstr "a" ∈ patLanguage (cstr "a**") := by
  refine ⟨by decide, ?_⟩
  exact (mem_patLanguage_byte (c := 97) (by decide)).mpr ⟨[], mem_two_stars [], rfl⟩

end FreeAsd.Find
