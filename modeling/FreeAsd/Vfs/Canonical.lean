import FreeAsd.Lib.LexicalPath
import FreeAsd.Lib.Strings
import FreeAsd.Vfs.Path
import Mathlib.Data.List.Forall2

/-!
# Canonical paths

`vfs_canonicalize` on bytes (`Buffer.vfsCanonicalize`) computes the function on lists that the other modules
use (`Buffer.vfsCanonicalize_rel`). That gives the lexical normal form (`vfsCanonicalize_eq_some`), unless the
path, the stack or the result is too long.
-/

namespace FreeAsd.Vfs

open Nat Function List Option

/-! ## On bytes -/

namespace Buffer

/-- The end of a component: `while (*p && *p != '/') p++`. -/
def segEnd (work : Mem) (p : ℕ) : ℕ := scanWhile (fun c => c ≠ 0 ∧ c ≠ slash) work vfsPathMax p

/-- The main loop of `vfs_canonicalize`: the buffer and the stack after it. Every round takes a byte of
the path at least. -/
def scan : ℕ → Mem → ℕ → List ℕ → Option (Mem × List ℕ)
  | 0, _, _, _ => none
  | fuel + 1, work, p, stk =>
    if work p = 0 then some (work, stk)
    else
      let seg := p
      let p := segEnd work p
      let cut := work p = slash
      let work := if cut then Function.update work p 0 else work
      let p := if cut then p + 1 else p
      if work seg = 0 ∨ (work seg = dot ∧ work (seg + 1) = 0) then scan fuel work p stk
      else if work seg = dot ∧ work (seg + 1) = dot ∧ work (seg + 2) = 0 then
        scan fuel work p stk.dropLast
      else if stk.length ≥ vfsPathMax / 2 - 1 then none
      else scan fuel work p (stk ++ [seg])

/-- The loop that writes the components at `pos`; `first` if none is written yet. -/
def rebuild (work : Mem) (out_sz : ℕ) : Bool → Mem → ℕ → List ℕ → Bool × Mem × ℕ
  | _, out, pos, [] => (true, out, pos)
  | first, out, pos, seg :: stk =>
    let slen := strlenAt work vfsPathMax seg
    if pos + slen + 2 > out_sz then (false, out, pos)
    else
      let out := if first then out else Function.update out pos slash
      let pos := if first then pos else pos + 1
      rebuild work out_sz false (out.copy pos work seg slen) (pos + slen) stk

/-- `vfs_canonicalize`: whether it returns 0, and the caller's buffer. `work` is what the static buffer
holds before. -/
def vfsCanonicalize (work : Mem) (path : CStr) (out : Mem) (out_sz : ℕ) : Bool × Mem :=
  if out_sz = 0 then (false, out)
  else if path.length ≥ vfsPathMax then (false, out)
  else
    let work := work.copy 0 (fun i => path.getD i 0) 0 (path.length + 1)
    let p := scanWhile (· = slash) work vfsPathMax 0
    match scan vfsPathMax work p [] with
    | none => (false, out)
    | some (work, stk) =>
      let r := rebuild work out_sz true (Function.update out 0 slash) 1 stk
      (r.1, if r.1 then Function.update r.2.1 r.2.2 0 else r.2.1)

end Buffer

/-! ## On lists -/

section

variable {stk segs : List CStr} {seg out path c : CStr} {out_sz : ℕ}

/-- A step that is made is the lexical one. -/
theorem canonicalizeStep_eq_some {r : List CStr} (h : canonicalizeStep stk seg = some r) :
    r = lexStep dot stk seg ∧ (stk.length < vfsPathMax / 2 → r.length < vfsPathMax / 2) := by
  unfold canonicalizeStep at h
  unfold lexStep
  split_ifs at h ⊢
  · cases h
    exact ⟨rfl, id⟩
  · cases h
    exact ⟨rfl, fun hlt => lt_of_le_of_lt (dropLast_sublist stk).length_le hlt⟩
  · cases h
    refine ⟨rfl, fun _ => ?_⟩
    rw [length_append, length_singleton]
    omega

/-- It is made if there is room for one component more. -/
theorem canonicalizeStep_of_lt (h : seg = [] ∨ stk.length + 1 < vfsPathMax / 2) :
    canonicalizeStep stk seg = some (lexStep dot stk seg) := by
  unfold canonicalizeStep lexStep
  split_ifs with hskip hdots hfull
  · rfl
  · rfl
  · exact absurd (h.resolve_left fun e => hskip (.inl e)) (by omega)
  · rfl

theorem foldlM_eq_some {r : List CStr} (h : segs.foldlM canonicalizeStep stk = some r) :
    r = segs.foldl (lexStep dot) stk ∧ (stk.length < vfsPathMax / 2 → r.length < vfsPathMax / 2) := by
  induction segs generalizing stk with
  | nil =>
    cases h
    exact ⟨rfl, id⟩
  | cons seg segs ih =>
    rw [foldlM_cons, bind_eq_bind, bind_eq_some_iff] at h
    obtain ⟨stk', hstep, hrest⟩ := h
    obtain ⟨rfl, hlen⟩ := canonicalizeStep_eq_some hstep
    obtain ⟨hr, hlen'⟩ := ih hrest
    exact ⟨hr, fun hlt => hlen' (hlen hlt)⟩

theorem length_lexStep_le : (lexStep dot stk seg).length ≤ stk.length + if seg = [] then 0 else 1 := by
  rcases lexStep_cases dot stk seg with e | e | ⟨hproper, e⟩
  · rw [e]
    exact le_add_right _ _
  · rw [e]
    exact (dropLast_sublist stk).length_le.trans (le_add_right _ _)
  · rw [e, length_append, if_neg hproper.ne_nil, length_singleton]

/-- The stack has room for as many components as there can be in 253 bytes. -/
theorem foldlM_of_lt (h : stk.length + (segs.filter (· ≠ [])).length < vfsPathMax / 2) :
    segs.foldlM canonicalizeStep stk = some (segs.foldl (lexStep dot) stk) := by
  induction segs generalizing stk with
  | nil => rfl
  | cons seg segs ih =>
    have hle : (lexStep dot stk seg).length ≤ _ := length_lexStep_le
    by_cases hnil : seg = []
    · rw [filter_cons_of_neg (by simpa using hnil)] at h
      rw [if_pos hnil] at hle
      rw [foldlM_cons, canonicalizeStep_of_lt (.inl hnil), foldl_cons]
      exact ih (by omega)
    · rw [filter_cons_of_pos (by simpa using hnil), length_cons] at h
      rw [if_neg hnil] at hle
      rw [foldlM_cons, canonicalizeStep_of_lt (.inr (by omega)), foldl_cons]
      exact ih (by omega)

/-- After the first component, each is written with a separator before it. -/
theorem joinComponents_eq (hout : 1 < out.length) (hroom : out.length < out_sz) :
    joinComponents out_sz out segs =
      if out.length + rendered segs < out_sz then some (out ++ segs.flatMap (slash :: ·)) else none := by
  induction segs generalizing out with
  | nil =>
    rw [joinComponents, flatMap_nil, append_nil]
    exact (if_pos hroom).symm
  | cons seg segs ih =>
    have hlen : (out ++ slash :: seg).length = out.length + seg.length + 1 := by
      rw [length_append, length_cons]
      omega
    rw [joinComponents, if_pos hout, append_assoc, singleton_append, rendered_cons]
    by_cases hfits : out.length + seg.length + 2 > out_sz
    · rw [if_pos hfits, if_neg (by omega)]
    · rw [if_neg hfits, ih (by omega) (by omega), append_assoc, flatMap_cons]
      exact if_congr (by omega) rfl rfl

/-- What is written is the absolute path of the components. -/
theorem joinComponents_slash_cons (hseg : seg ≠ []) :
    joinComponents out_sz [slash] (seg :: segs) =
      if seg.length + 3 ≤ out_sz ∧ rendered (seg :: segs) < out_sz then some (render slash (seg :: segs))
      else none := by
  have hpos : 0 < seg.length := length_pos_iff.mpr hseg
  have hlen : (slash :: seg).length = seg.length + 1 := rfl
  have hsep : [slash] ++ (if [slash].length > 1 then [slash] else []) ++ seg = slash :: seg := rfl
  rw [joinComponents, hsep, length_singleton]
  by_cases hfits : 1 + seg.length + 2 > out_sz
  · rw [if_pos hfits, if_neg (by omega)]
  · rw [if_neg hfits, joinComponents_eq (by omega) (by omega)]
    exact if_congr (by rw [rendered_cons]; omega) rfl rfl

theorem joinComponents_slash_eq_some (hsegs : ∀ seg ∈ segs, seg ≠ [])
    (h : joinComponents out_sz [slash] segs = some c) :
    c = render slash segs ∧ (1 < out_sz → c.length < out_sz) := by
  cases segs with
  | nil =>
    cases h
    exact ⟨rfl, id⟩
  | cons seg segs =>
    rw [joinComponents_slash_cons (hsegs seg mem_cons_self)] at h
    split_ifs at h with hfits
    cases h
    refine ⟨rfl, fun _ => ?_⟩
    rw [render, length_flatMap]
    exact hfits.2

theorem joinComponents_slash_of_fits (hsegs : ∀ seg ∈ segs, seg ≠ []) (h : rendered segs + 1 < out_sz) :
    joinComponents out_sz [slash] segs = some (render slash segs) := by
  cases segs with
  | nil => rfl
  | cons seg segs =>
    rw [joinComponents_slash_cons (hsegs seg mem_cons_self), if_pos]
    rw [rendered_cons] at h ⊢
    omega

theorem mem_of_mem_render {x : UInt8} (h : x ∈ render slash segs) : x = slash ∨ ∃ seg ∈ segs, x ∈ seg := by
  cases segs with
  | nil => exact .inl (mem_singleton.mp h)
  | cons seg segs =>
    obtain ⟨y, hy, hx⟩ := mem_flatMap.mp h
    rcases mem_cons.mp hx with hx | hx
    · exact .inl hx
    · exact .inr ⟨y, hy, hx⟩

/-! ## The normal form -/

/-- The lexical normal form of a path: an empty component and `.` are dropped, `..` takes the component
before it away, and there is nothing above the root. -/
def normalForm (path : CStr) : CStr := render slash (lexNormal dot (path.splitOn slash))

/-- An absolute path with no component that is empty, `.` or `..`; the root is the only one that ends
with a separator. -/
structure IsCanonical (path : CStr) : Prop where
  absolute : path.head? = some slash
  proper : path ≠ [slash] → ∀ seg ∈ path.tail.splitOn slash, Proper dot seg
  trailing : path ≠ [slash] → path.getLast? ≠ some slash

theorem components_ok (path : CStr) (seg : CStr)
    (h : seg ∈ lexNormal dot (path.splitOn slash)) : Proper dot seg ∧ slash ∉ seg :=
  ⟨(mem_lexNormal h).2, (mem_splitOn_imp (mem_lexNormal h).1).1⟩

/-- An absolute path of proper components is canonical. -/
theorem isCanonical_render (h : ∀ seg ∈ segs, Proper dot seg ∧ slash ∉ seg) :
    IsCanonical (render slash segs) := by
  cases segs with
  | nil => exact ⟨rfl, fun hne => absurd rfl hne, fun hne => absurd rfl hne⟩
  | cons seg segs =>
    have hsplit := splitOn_flatMap fun x hx => (h x hx).2
    rw [flatMap_cons, cons_append, splitOn_cons_self, cons_inj_right] at hsplit
    refine ⟨rfl, fun _ x hx => ?_, fun _ hlast => ?_⟩
    · rw [render, flatMap_cons, cons_append, tail_cons, hsplit] at hx
      exact (h x hx).1
    -- The last character is the last one of the last component.
    obtain ⟨init, last, hinit⟩ : ∃ init last, seg :: segs = init ++ [last] :=
      ⟨_, _, (dropLast_append_getLast (cons_ne_nil seg segs)).symm⟩
    have hmem : last ∈ seg :: segs := by
      rw [hinit]
      exact mem_append_right init mem_cons_self
    obtain ⟨front, z, hz⟩ : ∃ front z, last = front ++ [z] :=
      ⟨_, _, (dropLast_append_getLast (h last hmem).1.ne_nil).symm⟩
    have hrender : render slash (seg :: segs) = init.flatMap (slash :: ·) ++ slash :: front ++ [z] := by
      rw [render, hinit, flatMap_append, flatMap_singleton, hz]
      simp only [append_assoc, cons_append]
    rw [hrender, getLast?_append, getLast?_singleton, some_or, some.injEq] at hlast
    refine (h last hmem).2 ?_
    rw [hz, ← hlast]
    exact mem_append_right front mem_cons_self

/-- A path that is accepted gives its normal form, and the stack and the buffer have had room for it. -/
theorem vfsCanonicalize_eq_some (h : vfsCanonicalize path vfsPathMax = some c) :
    c = normalForm path ∧ path.length < vfsPathMax ∧ c.length < vfsPathMax ∧
      (lexNormal dot (path.splitOn slash)).length < vfsPathMax / 2 ∧
      joinComponents vfsPathMax [slash] (lexNormal dot (path.splitOn slash)) = some c := by
  unfold vfsCanonicalize at h
  by_cases hlong : path.length ≥ vfsPathMax
  · rw [if_pos hlong] at h
    cases h
  rw [if_neg hlong] at h
  obtain ⟨stk, hstk, hjoin⟩ := bind_eq_some_iff.mp h
  obtain ⟨rfl, hlen⟩ := foldlM_eq_some hstk
  obtain ⟨hc, hlt⟩ := joinComponents_slash_eq_some
    (fun seg hseg => (components_ok path seg hseg).1.ne_nil) hjoin
  exact ⟨hc, by omega, hlt (by decide), hlen (by decide), hjoin⟩

/-- A path of up to 255 bytes goes through the stack and is written from it. -/
theorem vfsCanonicalize_eq (hlong : path.length < vfsPathMax) :
    vfsCanonicalize path out_sz =
      ((path.splitOn slash).foldlM canonicalizeStep []).bind (joinComponents out_sz [slash]) := by
  unfold vfsCanonicalize
  rw [if_neg (not_le.mpr hlong)]
  rfl

/-- A path whose components fit the stack is accepted if its normal form can be written. -/
theorem vfsCanonicalize_of_foldlM (hlong : path.length < vfsPathMax)
    (hstk : (path.splitOn slash).foldlM canonicalizeStep [] = some stk)
    (hjoin : joinComponents out_sz [slash] stk = some c) : vfsCanonicalize path out_sz = some c := by
  rw [vfsCanonicalize_eq hlong, hstk]
  exact hjoin

/-- The components of an absolute path come back onto the stack. -/
theorem foldlM_render (h : ∀ seg ∈ segs, Proper dot seg ∧ slash ∉ seg) (hlen : segs.length < vfsPathMax / 2) :
    ((render slash segs).splitOn slash).foldlM canonicalizeStep [] = some segs := by
  cases segs with
  | nil => rfl
  | cons seg rest =>
    have hroom : ([] : List CStr).length + (([] :: seg :: rest).filter (· ≠ [])).length <
        vfsPathMax / 2 := by
      rw [filter_cons_of_neg (by simp), length_nil, zero_add]
      exact lt_of_le_of_lt (length_filter_le _ _) hlen
    rw [render, splitOn_flatMap fun x hx => (h x hx).2, foldlM_of_lt hroom, foldl_cons,
      lexStep_nil, foldl_lexStep_of_proper fun x hx => (h x hx).1, nil_append]

/-- Canonicalising a second time changes nothing. -/
theorem vfsCanonicalize_idem (h : vfsCanonicalize path vfsPathMax = some c) :
    vfsCanonicalize c vfsPathMax = some c := by
  obtain ⟨hc, -, hlt, hlen, hjoin⟩ := vfsCanonicalize_eq_some h
  have hstk : (c.splitOn slash).foldlM canonicalizeStep [] = some (lexNormal dot (path.splitOn slash)) := by
    rw [hc]
    exact foldlM_render (components_ok path) hlen
  exact vfsCanonicalize_of_foldlM hlt hstk hjoin

/-- 253 bytes are always accepted: they have at most 127 components. -/
theorem vfsCanonicalize_of_le (h : path.length ≤ 253) :
    vfsCanonicalize path vfsPathMax = some (normalForm path) := by
  generalize hnamed : (path.splitOn slash).filter (· ≠ []) = named
  have hsize : rendered named ≤ 254 := by
    have hle := rendered_le_of_sublist
      (filter_sublist (p := fun seg => decide (seg ≠ [])) (l := path.splitOn slash))
    rw [hnamed, rendered_splitOn] at hle
    omega
  have hcount : 2 * named.length ≤ rendered named :=
    two_mul_length_le_rendered fun seg hseg => by
      rw [← hnamed] at hseg
      simpa using of_mem_filter hseg
  have hnormal : rendered (lexNormal dot (path.splitOn slash)) ≤ rendered named := by
    have hle : rendered ((path.splitOn slash).foldl (lexStep dot) []) ≤ _ := rendered_foldl_le
    rw [hnamed] at hle
    exact hle.trans_eq (zero_add _)
  have hroom : ([] : List CStr).length + ((path.splitOn slash).filter (· ≠ [])).length <
      vfsPathMax / 2 := by
    rw [hnamed, length_nil]
    simp only [vfsPathMax]
    omega
  apply vfsCanonicalize_of_foldlM _ (foldlM_of_lt hroom)
  · apply joinComponents_slash_of_fits fun seg hseg => (components_ok path seg hseg).1.ne_nil
    exact lt_of_le_of_lt (succ_le_succ (hnormal.trans hsize)) (by decide)
  · exact lt_of_le_of_lt h (by decide)

end

/-! ## The bytes follow the lists -/

namespace Buffer

/-- A pointer of the stack: a component, which ends before the part of the path that is still to be
read. -/
structure Pointed (work : Mem) (p a : ℕ) (seg : CStr) : Prop where
  str : StrAt work a seg
  le : a + seg.length ≤ p

variable {work : Mem} {a p e fuel : ℕ} {seg rest : CStr} {stk : List ℕ} {segs : List CStr}

/-- The test for an empty component. -/
theorem byte_eq_zero_iff (h : StrAt work a seg) : work a = 0 ↔ seg = [] := by
  cases seg with
  | nil => exact ⟨fun _ => rfl, fun _ => h.2.1⟩
  | cons c seg =>
    have hc : c ≠ 0 := fun e => h.2.2 (e ▸ mem_cons_self)
    rw [h.1.1]
    exact ⟨fun e => absurd e hc, fun e => absurd e (cons_ne_nil c seg)⟩

theorem strAt_tail {c : UInt8} (h : StrAt work a (c :: seg)) : StrAt work (a + 1) seg := by
  refine ⟨h.1.2, ?_, fun hmem => h.2.2 (mem_cons_of_mem c hmem)⟩
  rw [add_assoc, add_comm 1]
  exact h.2.1

/-- The test of the first byte of a component. -/
theorem byte_eq_iff {c : UInt8} (hc : c ≠ 0) (h : StrAt work a seg) (q : Prop) :
    work a = c ∧ q ↔ ∃ tl, seg = c :: tl ∧ StrAt work (a + 1) tl ∧ q := by
  constructor
  · rintro ⟨hbyte, hq⟩
    cases seg with
    | nil => exact absurd (hbyte.symm.trans h.2.1) hc
    | cons d tl =>
      obtain rfl : d = c := h.1.1.symm.trans hbyte
      exact ⟨tl, rfl, strAt_tail h, hq⟩
  · rintro ⟨tl, rfl, -, hq⟩
    exact ⟨h.1.1, hq⟩

theorem dot_iff (h : StrAt work a seg) : work a = dot ∧ work (a + 1) = 0 ↔ seg = [dot] := by
  rw [byte_eq_iff (by decide) h]
  constructor
  · rintro ⟨tl, rfl, htl, hzero⟩
    rw [(byte_eq_zero_iff htl).mp hzero]
  · rintro rfl
    exact ⟨[], rfl, strAt_tail h, (strAt_tail h).2.1⟩

theorem dots_iff (h : StrAt work a seg) :
    work a = dot ∧ work (a + 1) = dot ∧ work (a + 2) = 0 ↔ seg = [dot, dot] := by
  rw [byte_eq_iff (by decide) h]
  constructor
  · rintro ⟨tl, rfl, htl, hrest⟩
    rw [(dot_iff htl).mp hrest]
  · rintro rfl
    exact ⟨[dot], rfl, strAt_tail h, (dot_iff (strAt_tail h)).mpr rfl⟩

/-- What the loop has found so far does not change if it goes on with a later part of the path. -/
theorem pointed_congr {work' : Mem} {p' : ℕ} (hstk : List.Forall₂ (Pointed work p) stk segs)
    (hp : p ≤ p') (heq : ∀ x, x < p → work' x = work x) (hend : ∀ x ≤ p, work x = 0 → x < p) :
    List.Forall₂ (Pointed work' p') stk segs := by
  refine hstk.imp fun a seg h => ⟨h.str.congr fun x _ hx => heq x ?_, h.le.trans hp⟩
  exact lt_of_le_of_lt hx (hend _ h.le h.str.2.1)

/-- What the loop ends with, against the components. -/
abbrev ScanRel (e : ℕ) : Option (Mem × List ℕ) → Option (List CStr) → Prop :=
  Rel fun r segs => List.Forall₂ (Pointed r.1 e) r.2 segs

/-- The tests of one round are those of `canonicalizeStep`. -/
theorem scan_tests {next : List CStr → Option (List CStr)} (hseg : StrAt work a seg)
    (hle : a + seg.length ≤ p) (hstk : List.Forall₂ (Pointed work p) stk segs)
    (hnext : ∀ stk segs, List.Forall₂ (Pointed work p) stk segs →
      ScanRel e (scan fuel work p stk) (next segs)) :
    ScanRel e
      (if work a = 0 ∨ (work a = dot ∧ work (a + 1) = 0) then scan fuel work p stk
        else if work a = dot ∧ work (a + 1) = dot ∧ work (a + 2) = 0 then
          scan fuel work p stk.dropLast
        else if stk.length ≥ vfsPathMax / 2 - 1 then none
        else scan fuel work p (stk ++ [a]))
      ((canonicalizeStep segs seg).bind next) := by
  simp only [byte_eq_zero_iff hseg, dot_iff hseg, dots_iff hseg, hstk.length_eq, canonicalizeStep]
  split_ifs
  · exact hnext stk segs hstk
  · rw [dropLast_eq_take, hstk.length_eq]
    have hdrop := hnext _ _ (forall₂_take (segs.length - 1) hstk)
    rwa [← dropLast_eq_take (l := segs)] at hdrop
  · exact .none
  · exact hnext _ _ (rel_append hstk (.cons ⟨hseg, hle⟩ .nil))

/-- The end of a component is the separator or the terminator after it. -/
theorem segEnd_eq (hseg : Spells work p seg) (hslash : slash ∉ seg) (hzero : 0 ∉ seg)
    (hstop : work (p + seg.length) = 0 ∨ work (p + seg.length) = slash)
    (hlt : seg.length < vfsPathMax) : segEnd work p = p + seg.length := by
  apply scanWhile_eq hseg _ _ hlt
  · intro c hc
    exact decide_eq_true ⟨ne_of_mem_of_not_mem hc hzero, ne_of_mem_of_not_mem hc hslash⟩
  · rcases hstop with h | h <;> rw [h] <;> decide

/-- The loop computes the fold over the components of the rest of the path. -/
theorem scan_rel (hrest : StrAt work p rest) (he : p + rest.length = e) (hlt : e < vfsPathMax)
    (hfuel : rest.length < fuel) (hstk : List.Forall₂ (Pointed work p) stk segs) :
    ScanRel e (scan fuel work p stk) ((rest.splitOn slash).foldlM canonicalizeStep segs) := by
  induction fuel generalizing work p rest stk segs with
  | zero => exact absurd hfuel (not_lt_zero _)
  | succ fuel ih =>
    by_cases hnil : rest = []
    · subst hnil
      rw [scan, if_pos ((byte_eq_zero_iff hrest).mpr rfl), splitOn_nil, ← he]
      exact .some hstk
    have hne : work p ≠ 0 := fun h => hnil ((byte_eq_zero_iff hrest).mp h)
    have hpos : 0 < rest.length := length_pos_iff.mpr hnil
    -- Terminators found so far are before `p`, which is not one.
    have hend : ∀ x ≤ p, work x = 0 → x < p := fun x hx hzero =>
      lt_of_le_of_ne hx fun e => hne (e ▸ hzero)
    rw [scan, if_neg hne]
    by_cases hslash : slash ∈ rest
    · -- The component ends at a separator, which becomes its terminator.
      obtain ⟨seg, tail, rfl, hseg⟩ := eq_append_cons_of_mem hslash
      have hzero : (0 : UInt8) ∉ seg ∧ (0 : UInt8) ∉ tail := by
        have h := hrest.2.2
        rw [mem_append, mem_cons] at h
        tauto
      obtain ⟨hspell, hsep, htail⟩ := (spells_append.mp hrest.1 : _ ∧ _ ∧ _)
      rw [length_append, length_cons] at he hfuel
      have hsegEnd := segEnd_eq hspell hseg hzero.1 (.inr hsep) (by omega)
      simp only [hsegEnd, hsep, if_true]
      have hother : ∀ x, x ≠ p + seg.length → update work (p + seg.length) 0 x = work x :=
        fun x hx => update_of_ne hx _ _
      have hsegStr : StrAt (update work (p + seg.length) 0) p seg :=
        ⟨hspell.congr fun x _ hx => hother x (by omega), update_self _ _ _, hzero.1⟩
      have htailStr : StrAt (update work (p + seg.length) 0) (p + seg.length + 1) tail := by
        refine ⟨htail.congr fun x hx _ => hother x (by omega), ?_, hzero.2⟩
        rw [hother _ (by omega), ← hrest.2.1, length_append, length_cons]
        congr 1
        omega
      rw [splitOn_append_cons_self_of_not_mem hseg]
      apply scan_tests hsegStr (by omega)
      · exact pointed_congr hstk (by omega) (fun x hx => hother x (by omega)) hend
      · intro stk segs hstk
        exact ih htailStr (by omega) (by omega) hstk
    · -- The last component ends at the terminator of the path, and an empty rest is left.
      have hsegEnd := segEnd_eq hrest.1 hslash hrest.2.2 (.inl hrest.2.1) (by omega)
      have hcut : ¬ work (p + rest.length) = slash := by
        rw [hrest.2.1]
        decide
      have hnilStr : StrAt work (p + rest.length) [] := ⟨trivial, hrest.2.1, not_mem_nil⟩
      simp only [hsegEnd, hcut, if_false]
      rw [splitOn_eq_singleton hslash]
      apply scan_tests hrest le_rfl
      · exact pointed_congr hstk (le_add_right _ _) (fun _ _ => rfl) hend
      · intro stk segs hstk
        have hempty := ih hnilStr he (by rw [length_nil]; omega) hstk
        rwa [splitOn_nil] at hempty

/-- What the second loop ends with, against the path. -/
def Rebuilt (r : Bool × Mem × ℕ) : Option CStr → Prop
  | none => r.1 = false
  | some c => r.1 = true ∧ r.2.2 = c.length ∧ Spells r.2.1 0 c

/-- The second loop writes the components. -/
theorem rebuild_rel {out_sz : ℕ} {first : Bool} {out : Mem} {c : CStr}
    (hstk : List.Forall₂ (Pointed work e) stk segs) (hlt : e < vfsPathMax)
    (hsegs : ∀ seg ∈ segs, seg ≠ []) (hc : Spells out 0 c) (hpos : 0 < c.length)
    (hfirst : first = true ↔ ¬ c.length > 1) :
    Rebuilt (rebuild work out_sz first out c.length stk) (joinComponents out_sz c segs) := by
  induction hstk generalizing first out c with
  | nil => exact ⟨rfl, rfl, hc⟩
  | @cons a seg stk segs hseg hstk ih =>
    have hlen : strlenAt work vfsPathMax a = seg.length := strlenAt_eq hseg.str (by have := hseg.le; omega)
    rw [rebuild, joinComponents]
    dsimp only
    rw [hlen]
    by_cases hfits : c.length + seg.length + 2 > out_sz
    · rw [if_pos hfits, if_pos hfits]
      rfl
    rw [if_neg hfits, if_neg hfits]
    -- The separator, which is left out before the first component.
    obtain ⟨out', hout'⟩ : ∃ o, (if first then out else update out c.length slash) = o := ⟨_, rfl⟩
    obtain ⟨c', hc'⟩ : ∃ c', c ++ (if c.length > 1 then [slash] else []) = c' := ⟨_, rfl⟩
    have hsep : (if first then c.length else c.length + 1) = c'.length ∧ Spells out' 0 c' := by
      by_cases hone : c.length > 1
      · have hf : ¬ first = true := fun h => hfirst.mp h hone
        rw [if_neg hf] at hout'
        rw [if_pos hone] at hc'
        rw [if_neg hf, ← hc', ← hout', length_append, spells_append]
        refine ⟨rfl, hc.congr fun x _ hx => update_of_ne (by omega) _ _, ?_, trivial⟩
        rw [zero_add, update_self]
      · rw [if_pos (hfirst.mpr hone)] at hout' ⊢
        rw [if_neg hone, append_nil] at hc'
        rw [← hc', ← hout']
        exact ⟨rfl, hc⟩
    have hnext : Spells (out'.copy c'.length work a seg.length) 0 (c' ++ seg) := by
      rw [spells_append, zero_add]
      exact ⟨hsep.2.congr fun x _ hx => Mem.copy_of_notMem (by omega), hseg.str.1.copy⟩
    have hsegPos : 0 < seg.length := length_pos_iff.mpr (hsegs seg mem_cons_self)
    have hcLen : c.length ≤ c'.length := by
      rw [← hc', length_append]
      exact le_add_right _ _
    have hlong : (c' ++ seg).length > 1 := by
      rw [length_append]
      omega
    rw [hout', hsep.1, hc', ← length_append]
    exact ih (forall_mem_cons.mp hsegs).2 hnext (zero_lt_of_lt hlong)
      ⟨fun h => absurd h Bool.false_ne_true, fun h => absurd hlong h⟩

/-- Leading separators do not matter. -/
theorem skip_slashes (path : CStr) : ∃ k rest, path = List.replicate k slash ++ rest ∧
    rest.head? ≠ some slash ∧ ∀ segs, (path.splitOn slash).foldlM canonicalizeStep segs =
      (rest.splitOn slash).foldlM canonicalizeStep segs := by
  induction path with
  | nil => exact ⟨0, [], rfl, by simp, fun _ => rfl⟩
  | cons c path ih =>
    by_cases hc : c = slash
    · obtain ⟨k, rest, rfl, hhead, hfold⟩ := ih
      refine ⟨k + 1, rest, by rw [hc]; rfl, hhead, fun segs => ?_⟩
      rw [hc, splitOn_cons_self]
      exact hfold segs
    · exact ⟨0, c :: path, rfl, by simpa using hc, fun _ => rfl⟩

/-- The working copy. -/
theorem strAt_work (work : Mem) {path : CStr} (hpath : 0 ∉ path) :
    StrAt (work.copy 0 (fun i => path.getD i 0) 0 (path.length + 1)) 0 path := by
  have hbyte : ∀ i ≤ path.length,
      work.copy 0 (fun i => path.getD i 0) 0 (path.length + 1) (0 + i) = path.getD (0 + i) 0 :=
    fun i hi => Mem.copy_of_mem (lt_succ_of_le hi)
  refine ⟨spells_of_getD fun i hi => ?_, ?_, hpath⟩
  · rw [hbyte i hi.le, zero_add]
  · rw [hbyte _ le_rfl, zero_add, getD_eq_getElem?_getD, getElem?_eq_none_iff.mpr le_rfl, getD_none]

/-- The first loop and the main one. -/
theorem scan_path {w : Mem} {path : CStr} (hpath : StrAt w 0 path) (hlt : path.length < vfsPathMax) :
    ScanRel path.length (scan vfsPathMax w (scanWhile (· = slash) w vfsPathMax 0) [])
      ((path.splitOn slash).foldlM canonicalizeStep []) := by
  obtain ⟨k, rest, hsplit, hhead, hfold⟩ := skip_slashes path
  have hlen : k + rest.length = path.length := by
    rw [hsplit, length_append, length_replicate]
  obtain ⟨hspell, hterm, hzero⟩ := hpath
  rw [zero_add, ← hlen] at hterm
  rw [hsplit, spells_append, length_replicate, zero_add] at hspell
  rw [hsplit, mem_append, not_or] at hzero
  have hstop : w k ≠ slash := by
    cases rest with
    | nil =>
      rw [length_nil, add_zero] at hterm
      rw [hterm]
      decide
    | cons c rest =>
      rw [hspell.2.1]
      exact fun h => hhead (congrArg some h)
  have hskip : scanWhile (· = slash) w vfsPathMax 0 = k := by
    have hend : 0 + (List.replicate k slash).length = k := by
      rw [length_replicate, zero_add]
    rw [scanWhile_eq hspell.1 (fun c hc => decide_eq_true (eq_of_mem_replicate hc)), hend]
    · rw [hend]
      exact decide_eq_false hstop
    · rw [length_replicate]
      omega
  rw [hskip, hfold]
  exact scan_rel ⟨hspell.2, hterm, hzero.2⟩ hlen hlt (by omega) .nil

/-- `vfs_canonicalize` computes the function on lists: it returns 0 exactly if that has a result, and
then the caller's buffer has it. -/
theorem vfsCanonicalize_rel (work out : Mem) {path : CStr} {out_sz : ℕ} (hpath : 0 ∉ path) (hsz : out_sz ≠ 0) :
    let r := vfsCanonicalize work path out out_sz
    match Vfs.vfsCanonicalize path out_sz with
    | none => r.1 = false
    | some c => r.1 = true ∧ StrAt r.2 0 c := by
  intro r
  simp only [r]
  unfold vfsCanonicalize
  by_cases hlong : path.length ≥ vfsPathMax
  · have hlist : Vfs.vfsCanonicalize path out_sz = none := by
      unfold Vfs.vfsCanonicalize
      rw [if_pos hlong]
      rfl
    rw [hlist, if_neg hsz, if_pos hlong]
  have hlt : path.length < vfsPathMax := Nat.lt_of_not_le hlong
  have hscan := scan_path (strAt_work work hpath) hlt
  rw [if_neg hsz, if_neg hlong, Vfs.vfsCanonicalize_eq hlt]
  dsimp only
  generalize hfold : (path.splitOn slash).foldlM canonicalizeStep [] = fold at hscan ⊢
  generalize scan _ _ _ _ = res at hscan ⊢
  cases hscan with
  | none => rfl
  | @some r segs hstk =>
    obtain ⟨rfl, -⟩ := foldlM_eq_some hfold
    obtain ⟨w, stk⟩ := r
    have hnil : ∀ seg ∈ lexNormal dot (path.splitOn slash), seg ≠ [] := fun seg hseg =>
      (components_ok path seg hseg).1.ne_nil
    have hrebuilt : Rebuilt (rebuild w out_sz true (update out 0 slash) 1 stk)
        (joinComponents out_sz [slash] (lexNormal dot (path.splitOn slash))) :=
      rebuild_rel hstk hlt hnil ⟨update_self _ _ _, trivial⟩ (by decide) (by decide)
    rw [bind_some]
    change match joinComponents out_sz [slash] (lexNormal dot (path.splitOn slash)) with
      | none => _
      | some c => _
    cases hjoin : joinComponents out_sz [slash] (lexNormal dot (path.splitOn slash)) with
    | none =>
      rw [hjoin] at hrebuilt
      exact hrebuilt
    | some c =>
      rw [hjoin] at hrebuilt
      obtain ⟨hok, hpos, hspell⟩ := hrebuilt
      have hzero : 0 ∉ c := by
        intro hmem
        rw [(joinComponents_slash_eq_some hnil hjoin).1] at hmem
        obtain ⟨seg, hseg, hmem⟩ := (mem_of_mem_render hmem).resolve_left (by decide)
        exact hpath ((mem_splitOn_imp (mem_lexNormal hseg).1).2 0 hmem)
      dsimp only
      rw [hok, if_pos rfl, hpos]
      refine ⟨rfl, hspell.congr fun x _ hx => update_of_ne (by omega) _ _, ?_, hzero⟩
      rw [zero_add, update_self]

end Buffer

/-- If `vfs_canonicalize` returns 0, the buffer of 256 bytes has the lexical normal form of the path,
which comes back unchanged; it returns 0 for every path of at most 253 bytes. -/
theorem canonicalize_spec (work : Mem) (path : CStr) (hpath : 0 ∉ path) (out : Mem) :
    ((Buffer.vfsCanonicalize work path out vfsPathMax).1 = true →
      StrAt (Buffer.vfsCanonicalize work path out vfsPathMax).2 0 (normalForm path) ∧
        IsCanonical (normalForm path) ∧
        ∀ work' out', (Buffer.vfsCanonicalize work' (normalForm path) out' vfsPathMax).1 = true ∧
          StrAt (Buffer.vfsCanonicalize work' (normalForm path) out' vfsPathMax).2 0
            (normalForm path)) ∧
      (path.length ≤ 253 → (Buffer.vfsCanonicalize work path out vfsPathMax).1 = true) := by
  have hrel := Buffer.vfsCanonicalize_rel work out hpath (show vfsPathMax ≠ 0 by decide)
  constructor
  · intro hok
    cases hcanon : vfsCanonicalize path vfsPathMax with
    | none =>
      rw [hcanon] at hrel
      cases hok.symm.trans hrel
    | some c =>
      rw [hcanon] at hrel
      obtain ⟨rfl, -⟩ := vfsCanonicalize_eq_some hcanon
      refine ⟨hrel.2, isCanonical_render (components_ok path), fun work' out' => ?_⟩
      have hagain := Buffer.vfsCanonicalize_rel work' out' hrel.2.2.2 (show vfsPathMax ≠ 0 by decide)
      rwa [vfsCanonicalize_idem hcanon] at hagain
  · intro hle
    rw [vfsCanonicalize_of_le hle] at hrel
    exact hrel.1

/-- A path with every kind of component. -/
theorem canonicalize_spec_passwd :
    (0 : UInt8) ∉ cstr "/boot//./x/../../etc/passwd" ∧
      normalForm (cstr "/boot//./x/../../etc/passwd") = cstr "/etc/passwd" ∧
      (cstr "/boot//./x/../../etc/passwd").length ≤ 253 ∧
      (Buffer.vfsCanonicalize (fun _ => 0) (cstr "/boot//./x/../../etc/passwd") (fun _ => 0)
        vfsPathMax).1 = true :=
  ⟨by decide, by decide, by decide,
    (canonicalize_spec (fun _ => 0) (cstr "/boot//./x/../../etc/passwd") (by decide) fun _ => 0).2
      (by decide)⟩

end FreeAsd.Vfs
