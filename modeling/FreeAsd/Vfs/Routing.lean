import FreeAsd.Lib.LastBest
import FreeAsd.Vfs.Canonical
import FreeAsd.Vfs.PathCalls

/-!
# What a path names

A canonical path goes to the backend with the longest mount point that is a prefix of it, and of several to the
one mounted last (`routes_of_canonical`). `vfs_readdir` alone does not make a path canonical first, so it
agrees with the other calls exactly if `find_backend` cannot tell the two apart (`agree_iff`).
-/

namespace FreeAsd.Vfs

open List Mounted Option

/-- The mount points after some calls of `vfs_mount`, in the order of the calls. -/
def mountPoints (l : List CStr) (i : Fin maxBackends) : Option CStr :=
  (((l.filter (· ≠ [])).take maxBackends)[i.val]?).map fun mp => mp.take (vfsPathMax - 1)

/-- The components of a path: the root has only the empty one in front of the first separator. -/
def parts (path : CStr) : List CStr := if path = [slash] then [[]] else path.splitOn slash

theorem parts_root : parts [slash] = [[]] := if_pos rfl

theorem parts_of_ne {path : CStr} (h : path ≠ [slash]) : parts path = path.splitOn slash := if_neg h

/-- One path is a prefix of the other, component by component. -/
def ComponentPrefix (mp path : CStr) : Prop := parts mp <+: parts path

/-- The backend with the longest mount point that is a prefix of a path, the last one of several, and
the rest of the path as an absolute path. -/
structure Routes (points : Fin maxBackends → Option CStr) (path : CStr) (i : Fin maxBackends)
    (rel_path : CStr) : Prop where
  mounted : ∃ mp, points i = some mp ∧ ComponentPrefix mp path ∧
    rel_path = render slash ((parts path).drop (parts mp).length) ∧
    ∀ j mp', points j = some mp' → ComponentPrefix mp' path →
      mp'.length ≤ mp.length ∧ (mp'.length = mp.length → j ≤ i)

/-! ## Mounting -/

section

variable {σ β : Type}

/-- The table after some calls of `vfs_mount`. -/
def mountAll (l : List (Mount σ β)) : MountTable σ β := l.foldl (fun g m => (vfsMount g m).2) fun _ => none

theorem find_free {n : ℕ} (hn : n ≤ maxBackends) :
    (List.finRange maxBackends).find? (fun i => decide (n ≤ i.val)) =
      if h : n < maxBackends then some ⟨n, h⟩ else none := by
  have hall : ∀ n : Fin (maxBackends + 1),
      (List.finRange maxBackends).find? (fun i => decide (n.val ≤ i.val)) =
        if h : n.val < maxBackends then some ⟨n.val, h⟩ else none := by decide
  exact hall ⟨n, Nat.lt_succ_of_le hn⟩

theorem mountPoints_apply (l : List CStr) (i : Fin maxBackends) :
    mountPoints l i = ((l.filter (· ≠ []))[i.val]?).map fun mp => mp.take (vfsPathMax - 1) := by
  rw [mountPoints, getElem?_take_of_lt i.isLt]

/-- No mount point is empty. -/
theorem mountPoints_ne_nil (l : List CStr) (i : Fin maxBackends) : mountPoints l i ≠ some [] := by
  rw [mountPoints_apply]
  intro h
  obtain ⟨mp, hmp, htake⟩ := map_eq_some_iff.mp h
  rcases take_eq_nil_iff.mp htake with hzero | hnil
  · exact absurd hzero (by decide)
  · have hne := (mem_filter.mp (mem_of_getElem? hmp)).2
    exact of_decide_eq_true hne hnil

/-- Places are taken in the order of the calls. -/
theorem mountAll_points (l : List (Mount σ β)) : (mountAll l).points = mountPoints (l.map (·.mount_pt)) := by
  induction l using reverseRecOn with
  | nil => rfl
  | append_singleton l m ih =>
    generalize hg : mountAll l = g
    generalize hnamed : (l.map (·.mount_pt)).filter (· ≠ []) = named
    have hpoints : ∀ i, g.points i = (named[i.val]?).map fun mp => mp.take (vfsPathMax - 1) := by
      intro i
      rw [← hg, ih, mountPoints_apply, hnamed]
    have hstep : mountAll (l ++ [m]) = (vfsMount g m).2 := by
      rw [mountAll, foldl_append, ← hg]
      rfl
    funext i
    rw [hstep, mountPoints_apply, map_append, map_singleton, filter_append, hnamed, vfsMount]
    split_ifs with hempty
    · rw [filter_cons_of_neg (by simpa using hempty), filter_nil, append_nil, hpoints]
    rw [filter_cons_of_pos (by simpa using hempty), filter_nil]
    -- A place is free exactly if it is behind those of the mounts so far.
    have hfree : (fun i => (g i).isNone) =
        fun i : Fin maxBackends => decide (min named.length maxBackends ≤ i.val) := by
      funext i
      have hi : (g i).isNone = (named[i.val]?).isNone := by
        rw [← isNone_map (f := fun m : Mount σ β => m.mount_pt), ← MountTable.points, hpoints, isNone_map]
      have hlt := i.isLt
      rw [hi, Bool.eq_iff_iff, isNone_iff_eq_none, getElem?_eq_none_iff, decide_eq_true_eq]
      omega
    rw [hfree, find_free (min_le_right _ _)]
    split_ifs with hroom
    · have hlen : min named.length maxBackends = named.length := by omega
      simp only [hlen]
      by_cases hi : i.val = named.length
      · have hi' : i = ⟨named.length, hlen ▸ hroom⟩ := Fin.ext hi
        rw [MountTable.points, hi', Function.update_self, getElem?_concat_length]
        rfl
      have hi' : i ≠ ⟨named.length, hlen ▸ hroom⟩ := fun e => hi (congrArg Fin.val e)
      rw [MountTable.points, Function.update_of_ne hi', ← MountTable.points, hpoints, getElem?_append]
      split_ifs with hlt
      · rfl
      · rw [getElem?_eq_none_iff.mpr (by omega), getElem?_eq_none_iff.mpr]
        rw [length_singleton]
        omega
    · have := i.isLt
      rw [hpoints, getElem?_append_left (by omega)]

end

/-! ## Canonical paths -/

section

variable {points : Fin maxBackends → Option CStr} {mp path : CStr} {i : Fin maxBackends}

theorem mountMatches_iff (hmp : mp ≠ [slash]) :
    mountMatches mp path = true ↔ path = mp ∨ ∃ rest, path = mp ++ slash :: rest := by
  rw [mountMatches, if_neg hmp, decide_eq_true_eq, isPrefixOf_iff_prefix]
  constructor
  · rintro ⟨⟨rest, rfl⟩, hrest⟩
    rw [drop_left] at hrest
    rcases hrest with rfl | hrest
    · exact .inl (append_nil mp)
    · obtain ⟨rest, rfl⟩ := head?_eq_some_iff.mp hrest
      exact .inr ⟨rest, rfl⟩
  · rintro (rfl | ⟨rest, rfl⟩)
    · exact ⟨prefix_rfl, .inl (drop_length)⟩
    · exact ⟨prefix_append _ _, .inr (by rw [drop_left]; rfl)⟩

/-- On absolute paths the comparison of strings is the comparison of components. -/
theorem mountMatches_iff_componentPrefix (habs : path.head? = some slash) :
    mountMatches mp path = true ↔ ComponentPrefix mp path := by
  obtain ⟨rest, rfl⟩ := head?_eq_some_iff.mp habs
  unfold ComponentPrefix
  by_cases hmp : mp = [slash]
  · -- The root matches every absolute path.
    have hmatch : mountMatches mp (slash :: rest) = true := by
      rw [mountMatches, if_pos hmp]
      rfl
    have hparts : parts mp <+: parts (slash :: rest) := by
      rw [hmp, parts_root, parts]
      split_ifs
      · exact prefix_rfl
      · rw [splitOn_cons_self]
        exact ⟨_, rfl⟩
    exact ⟨fun _ => hparts, fun _ => hmatch⟩
  rw [mountMatches_iff hmp, parts_of_ne hmp]
  by_cases hroot : slash :: rest = [slash]
  · rw [hroot, parts_root]
    constructor
    · rintro (h | ⟨tail, h⟩)
      · exact absurd h.symm hmp
      obtain ⟨rfl, -⟩ : mp = [] ∧ tail = [] := by
        have hlen := congrArg List.length h
        simp only [length_append, length_cons, length_nil] at hlen
        exact ⟨length_eq_zero_iff.mp (by omega), length_eq_zero_iff.mp (by omega)⟩
      exact prefix_rfl
    · intro h
      have hone : (mp.splitOn slash).length = [[]].length :=
        le_antisymm h.length_le (length_pos_iff.mpr (splitOn_ne_nil slash mp))
      have hnil : mp.splitOn slash = ([] : CStr).splitOn slash := h.eq_of_length hone
      rw [splitOn_injective hnil]
      exact .inr ⟨[], rfl⟩
  · rw [parts_of_ne hroot, splitOn_isPrefix_iff]

theorem render_splitOn (rest : CStr) : render slash (rest.splitOn slash) = slash :: rest := by
  rw [← flatMap_splitOn]
  cases hsplit : rest.splitOn slash with
  | nil => exact absurd hsplit (splitOn_ne_nil slash rest)
  | cons seg segs => rfl

/-- What is left of a path behind a mount point. -/
theorem rel_path_eq (habs : path.head? = some slash) (hmatch : mountMatches mp path = true) :
    (if mp = [slash] then path
      else if path.drop mp.length = [] then [slash] else path.drop mp.length) =
      render slash ((parts path).drop (parts mp).length) := by
  obtain ⟨rest, rfl⟩ := head?_eq_some_iff.mp habs
  by_cases hroot : slash :: rest = [slash]
  · -- Below the root there is nothing left.
    have hone : 1 ≤ (parts mp).length := by
      unfold parts
      split_ifs
      · exact le_rfl
      · exact length_pos_iff.mpr (splitOn_ne_nil slash mp)
    have hdrop : (parts (slash :: rest)).drop (parts mp).length = [] := by
      rw [hroot, parts_root, drop_eq_nil_iff]
      exact hone
    rw [hdrop, hroot]
    by_cases hmp : mp = [slash]
    · rw [if_pos hmp, render]
    rw [if_neg hmp, render]
    split_ifs with hnil
    · rfl
    · cases mp with
      | nil => rfl
      | cons c mp => exact absurd (by simp) hnil
  by_cases hmp : mp = [slash]
  · rw [if_pos hmp, hmp, parts_of_ne hroot, splitOn_cons_self, parts_root]
    exact (render_splitOn rest).symm
  rw [if_neg hmp, parts_of_ne hroot, parts_of_ne hmp]
  rcases (mountMatches_iff hmp).mp hmatch with h | ⟨tail, h⟩
  · rw [h, drop_length, drop_length, if_pos rfl, render]
  · rw [h, drop_left, if_neg (cons_ne_nil slash tail), splitOn_append_cons_self, drop_left, render_splitOn]

/-- What the search of `find_backend` compares. -/
def matchKey (points : Fin maxBackends → Option CStr) (path : CStr) (i : Fin maxBackends) : Option ℕ :=
  (points i).bind fun mp => if mountMatches mp path then some mp.length else none

theorem matchKey_eq_some {k : ℕ} (h : matchKey points path i = some k) :
    ∃ mp, points i = some mp ∧ mountMatches mp path = true ∧ k = mp.length := by
  obtain ⟨mp, hmp, hk⟩ := bind_eq_some_iff.mp h
  split_ifs at hk with hmatch
  exact ⟨mp, hmp, hmatch, (some.inj hk).symm⟩

theorem matchKey_of_matches (hmp : points i = some mp) (hmatch : mountMatches mp path = true) :
    matchKey points path i = some mp.length := by
  rw [matchKey, hmp, bind_some, if_pos hmatch]

section

variable (points path)

theorem findBackendStep_eq : findBackendStep points path = bestStep (matchKey points path) := by
  funext best i
  unfold findBackendStep bestStep matchKey
  cases points i with
  | none => rfl
  | some mp =>
    rw [bind_some]
    by_cases hmatch : mountMatches mp path = true
    · simp only [hmatch, true_and, if_true]
    · simp only [hmatch, false_and, if_false, Bool.false_eq_true]

/-- `find_backend` takes the last of the best. -/
theorem findBackend_eq : let best := lastBest (matchKey points path) (List.finRange maxBackends)
    findBackend points path = best.1.map fun i =>
      if points i = some [slash] then (i, path)
      else (i, if path.drop best.2 = [] then [slash] else path.drop best.2) := by
  rw [findBackend, findBackendStep_eq]
  rfl

end

/-- It finds nothing exactly if no mount point matches. -/
theorem findBackend_eq_none : findBackend points path = none ↔
    ∀ i mp, points i = some mp → mountMatches mp path = false := by
  have hbest := lastBest_spec (matchKey points path) (List.finRange maxBackends)
  rw [findBackend_eq, map_eq_none_iff]
  generalize lastBest (matchKey points path) (List.finRange maxBackends) = best at hbest
  obtain ⟨best, len⟩ := best
  cases best with
  | none =>
    refine ⟨fun _ i mp hmp => ?_, fun _ => rfl⟩
    rw [← Bool.not_eq_true]
    intro hmatch
    have hnone := hbest.2 i (mem_finRange i)
    rw [matchKey_of_matches hmp hmatch] at hnone
    cases hnone
  | some i =>
    obtain ⟨mp, hmp, hmatch, -⟩ := matchKey_eq_some hbest.1
    refine ⟨nofun, fun h => ?_⟩
    rw [h i mp hmp] at hmatch
    cases hmatch

/-- It finds the longest mount point that matches, the last one of several, and what is behind it. -/
theorem findBackend_some {rel_path : CStr} (h : findBackend points path = some (i, rel_path)) :
    ∃ mp, points i = some mp ∧ mountMatches mp path = true ∧
      rel_path = (if mp = [slash] then path
        else if path.drop mp.length = [] then [slash] else path.drop mp.length) ∧
      ∀ j mp', points j = some mp' → mountMatches mp' path = true →
        mp'.length ≤ mp.length ∧ (mp'.length = mp.length → j ≤ i) := by
  have hbest := lastBest_spec (matchKey points path) (List.finRange maxBackends)
  rw [findBackend_eq] at h
  generalize lastBest (matchKey points path) (List.finRange maxBackends) = best at hbest h
  obtain ⟨best, len⟩ := best
  obtain ⟨j, rfl, hroute⟩ := map_eq_some_iff.mp h
  obtain rfl : j = i := by
    split_ifs at hroute <;> exact congrArg Prod.fst hroute
  obtain ⟨hkey, before, after, hsplit, hbefore, hafter⟩ := hbest
  obtain ⟨mp, hmp, hmatch, hlen⟩ := matchKey_eq_some hkey
  obtain rfl : len = mp.length := hlen
  refine ⟨mp, hmp, hmatch, ?_, fun k mp' hmp' hmatch' => ?_⟩
  · rw [hmp] at hroute
    simp only [some.injEq] at hroute
    split_ifs at hroute ⊢ <;> exact (congrArg Prod.snd hroute).symm
  have hkey' := matchKey_of_matches hmp' hmatch'
  -- Places before that of the best one are smaller, and what is behind it is shorter.
  have hsorted := pairwise_lt_finRange maxBackends
  rw [hsplit, pairwise_append] at hsorted
  have hk : k ∈ before ++ j :: after := hsplit ▸ mem_finRange k
  rcases mem_append.mp hk with hk | hk
  · exact ⟨hbefore k hk _ hkey', fun _ => (hsorted.2.2 k hk j mem_cons_self).le⟩
  rcases mem_cons.mp hk with rfl | hk
  · obtain rfl := some.inj (hmp'.symm.trans hmp)
    exact ⟨le_rfl, fun _ => le_rfl⟩
  · have hlt := hafter k hk _ hkey'
    exact ⟨hlt.le, fun e => absurd e hlt.ne⟩

/-- A canonical path goes to the backend with the longest mount point that is a prefix of it, the last
one of several, with the rest as an absolute path; it has no backend only if there is no such mount
point. -/
theorem routes_of_canonical (points : Fin maxBackends → Option CStr) (hcanon : IsCanonical path) :
    match findBackend points path with
    | none => ∀ i mp, points i = some mp → ¬ ComponentPrefix mp path
    | some (i, rel_path) => Routes points path i rel_path := by
  have hiff (mp : CStr) : mountMatches mp path = true ↔ ComponentPrefix mp path :=
    mountMatches_iff_componentPrefix hcanon.absolute
  cases hfind : findBackend points path with
  | none =>
    intro i mp hmp hpre
    have hfalse := findBackend_eq_none.mp hfind i mp hmp
    rw [(hiff mp).mpr hpre] at hfalse
    cases hfalse
  | some route =>
    obtain ⟨mp, hmp, hmatch, hrel, hmax⟩ := findBackend_some hfind
    rw [rel_path_eq hcanon.absolute hmatch] at hrel
    exact ⟨mp, hmp, (hiff mp).mp hmatch, hrel, fun j mp' hmp' hpre' => hmax j mp' hmp' ((hiff mp').mpr hpre')⟩

/-- Where `find_backend` cannot tell a path from a canonical one: the path is the same, or it is that of a
mount point with a separator behind it, or no mount point matches any of the two. -/
def SameRoute (points : Fin maxBackends → Option CStr) (p c : CStr) : Prop :=
  p = c ∨
  (p = c ++ [slash] ∧ c ≠ [slash] ∧ (∃ i, points i = some c) ∧ ∀ i, points i ≠ some p) ∨
  ∀ i mp, points i = some mp → mountMatches mp p = false ∧ mountMatches mp c = false

section

variable {p c : CStr} (hcanon : IsCanonical c)

include hcanon

/-- A mount point with a separator behind it goes where the mount point goes. -/
theorem findBackend_trailing (hroot : c ≠ [slash]) (hmount : ∃ i, points i = some c)
    (hfree : ∀ i, points i ≠ some (c ++ [slash])) :
    findBackend points (c ++ [slash]) = findBackend points c := by
  obtain ⟨k, hk⟩ := hmount
  have hmatch : mountMatches c c = true := (mountMatches_iff hroot).mpr (.inl rfl)
  have hmatch' : mountMatches c (c ++ [slash]) = true := (mountMatches_iff hroot).mpr (.inr ⟨[], rfl⟩)
  -- Both searches end at a place where `c` itself is mounted.
  have hself {i : Fin maxBackends} {mp path : CStr} (hmp : points i = some mp)
      (hpath : path = c ∨ path = c ++ [slash]) (hm : mountMatches mp path = true)
      (hlen : c.length ≤ mp.length) : mp = c := by
    by_cases hmp' : mp = [slash]
    · obtain ⟨rest, hrest⟩ := head?_eq_some_iff.mp hcanon.absolute
      rw [hmp', hrest] at hlen
      have hnil : rest = [] := length_eq_zero_iff.mp (by simpa using hlen)
      exact absurd (hrest.trans (by rw [hnil])) hroot
    rcases (mountMatches_iff hmp').mp hm with heq | ⟨rest, heq⟩
    · rcases hpath with rfl | rfl
      · exact heq.symm
      · exact absurd (heq ▸ hmp) (hfree i)
    · rcases hpath with rfl | rfl
      · rw [heq, length_append, length_cons] at hlen
        omega
      · have hrest := congrArg List.length heq
        simp only [length_append, length_cons, length_nil] at hrest
        exact (append_inj_left heq (by omega)).symm
  cases hfind : findBackend points c with
  | none =>
    rw [findBackend_eq_none.mp hfind k c hk] at hmatch
    cases hmatch
  | some route =>
    cases hfind' : findBackend points (c ++ [slash]) with
    | none =>
      rw [findBackend_eq_none.mp hfind' k c hk] at hmatch'
      cases hmatch'
    | some route' =>
      obtain ⟨mp, hmp, hm, hrel, hmax⟩ := findBackend_some hfind
      obtain ⟨mp', hmp', hm', hrel', hmax'⟩ := findBackend_some hfind'
      obtain rfl := hself hmp (.inl rfl) hm (hmax k c hk hmatch).1
      obtain rfl := hself hmp' (.inr rfl) hm' (hmax' k _ hk hmatch').1
      have hplace : route'.1 = route.1 :=
        le_antisymm ((hmax _ _ hmp' hmatch).2 rfl) ((hmax' _ _ hmp hmatch').2 rfl)
      rw [if_neg hroot, drop_length, if_pos rfl] at hrel
      rw [if_neg hroot, drop_left, if_neg (cons_ne_nil _ _)] at hrel'
      exact congrArg some (Prod.ext hplace (hrel'.trans hrel.symm))

/-- The search finds the same for a path and a canonical one exactly in the cases of `SameRoute`. -/
theorem findBackend_eq_iff (hnamed : ∀ i, points i ≠ some []) :
    findBackend points p = findBackend points c ↔ SameRoute points p c := by
  have hne {i : Fin maxBackends} {mp : CStr} (hmp : points i = some mp) : mp ++ [slash] ≠ [slash] := by
    intro heq
    obtain rfl : mp = [] := append_cancel_right (heq.trans (nil_append _).symm)
    exact hnamed i hmp
  constructor
  · intro h
    cases hfind : findBackend points c with
    | none =>
      have hnone := findBackend_eq_none.mp (h.trans hfind)
      exact .inr (.inr fun i mp hmp => ⟨hnone i mp hmp, findBackend_eq_none.mp hfind i mp hmp⟩)
    | some route =>
      obtain ⟨mp, hmp, hm, hrel, -⟩ := findBackend_some hfind
      obtain ⟨mp', hmp', hm', hrel', hmax'⟩ := findBackend_some (h.trans hfind)
      obtain rfl := some.inj (hmp.symm.trans hmp')
      rw [hrel'] at hrel
      by_cases hroot : mp = [slash]
      · rw [if_pos hroot, if_pos hroot] at hrel
        exact .inl hrel
      rw [if_neg hroot, if_neg hroot] at hrel
      rcases (mountMatches_iff hroot).mp hm with rfl | ⟨rest, rfl⟩
      · rcases (mountMatches_iff hroot).mp hm' with rfl | ⟨rest', rfl⟩
        · exact .inl rfl
        rw [drop_left, if_neg (cons_ne_nil _ _), drop_length, if_pos rfl] at hrel
        obtain rfl : rest' = [] := (cons.inj hrel).2
        refine .inr (.inl ⟨rfl, hroot, ⟨_, hmp⟩, fun j hj => ?_⟩)
        have hlen := (hmax' j _ hj ((mountMatches_iff (hne hmp)).mpr (.inl rfl))).1
        rw [length_append, length_singleton] at hlen
        omega
      · rw [drop_left, if_neg (cons_ne_nil _ _)] at hrel
        rcases (mountMatches_iff hroot).mp hm' with rfl | ⟨rest', rfl⟩
        · -- The canonical path would end with a separator.
          rw [drop_length, if_pos rfl] at hrel
          obtain rfl : [] = rest := (cons.inj hrel).2
          exact absurd getLast?_concat (hcanon.trailing (hne hmp))
        · rw [drop_left, if_neg (cons_ne_nil _ _)] at hrel
          exact .inl (by rw [hrel])
  · rintro (rfl | ⟨rfl, hroot, hmount, hfree⟩ | hnone)
    · rfl
    · exact findBackend_trailing hcanon hroot hmount hfree
    · rw [findBackend_eq_none.mpr fun i mp hmp => (hnone i mp hmp).1,
        findBackend_eq_none.mpr fun i mp hmp => (hnone i mp hmp).2]

end

end

/-! ## Agreement of the calls -/

section

variable {σ β : Type} {p c : CStr}

/-- All calls on `p` behave as on `c`, whatever is behind the mount points. -/
def Agree (points : Fin maxBackends → Option CStr) (p c : CStr) : Prop :=
  ∀ (σ β : Type) (s : Mounted σ β), s.mounts.points = points →
    ∀ call : PathCall, call.vfs p s = call.vfs c s

section

variable (hc : vfsCanonicalize p vfsPathMax = some c)

include hc

theorem canonical_ne_nil : c ≠ [] := by
  obtain ⟨rfl, -⟩ := vfsCanonicalize_eq_some hc
  intro h
  have habs := (isCanonical_render (components_ok p)).absolute
  rw [← normalForm, h] at habs
  cases habs

/-- The calls that bring a path into canonical form first. -/
theorem canonicalized_eq (s : Mounted σ β) (act : CStr → Mounted σ β → Reply × Mounted σ β) :
    s.canonicalized p act = s.canonicalized c act := by
  rw [canonicalized, canonicalized, hc, vfsCanonicalize_idem hc]

/-- They all agree on a path that is not empty. -/
theorem agree_of_routes (hp : p ≠ []) (s : Mounted σ β)
    (hroute : findBackend s.mounts.points p = findBackend s.mounts.points c) (call : PathCall) :
    call.vfs p s = call.vfs c s := by
  have hcne := canonical_ne_nil hc
  cases call with
  | «open» flags caller =>
    rw [PathCall.vfs, PathCall.vfs, vfsOpen, vfsOpen, if_neg hp, if_neg hcne, canonicalized_eq hc]
  | stat => exact canonicalized_eq hc s _
  | unlink =>
    rw [PathCall.vfs, PathCall.vfs, vfsUnlink, vfsUnlink, if_neg hp, if_neg hcne, canonicalized_eq hc]
  | mkdir =>
    rw [PathCall.vfs, PathCall.vfs, vfsMkdir, vfsMkdir, if_neg hp, if_neg hcne, canonicalized_eq hc]
  | readdir cap =>
    rw [PathCall.vfs, PathCall.vfs, vfsReaddir, vfsReaddir, routed, routed, hroute]

end

/-- `vfs_init`, with a table of backends. -/
def State.vfsInit (g_backends : Fin maxBackends → Option (Backend σ β)) (fs : σ) : State σ β where
  g_nodes _ := .zero
  g_next_node_id := 1
  g_backends := g_backends
  fd_table _ _ := none
  rings _ := ⟨0, 0, 0, 0, fun _ => 0⟩
  fs := fs
  live := ∅
  pseudo := ∅
  opened := []
  closed := []

/-- A backend that has directories only, each with one entry: its own path, and its place for a size. -/
def taggedOps (i : Fin maxBackends) : VfsOps Unit CStr where
  «open» := some fun path _ fs => (some path, fs)
  close := some fun _ fs => fs
  read := none
  write := none
  seek := none
  readdir := some fun path _ fs => ((0, [⟨path, vfsNodeDir, i.val⟩]), fs)
  stat := none
  unlink := none
  mkdir := none
  dirs _ := ⟨rfl, rfl⟩

/-- Such backends at some mount points. -/
def tagged (points : Fin maxBackends → Option CStr) : Mounted Unit CStr :=
  let mounts : MountTable Unit CStr := fun i => (points i).map fun mp => ⟨mp, taggedOps i⟩
  { mounts := mounts
    vfs := .vfsInit (fun i => (mounts i).map fun m => ⟨m.mount_pt, m.ops.fileOps⟩) ()
    backends := rfl }

variable (points : Fin maxBackends → Option CStr)

theorem tagged_points : (tagged points).mounts.points = points := by
  funext i
  change ((points i).map _).map _ = points i
  cases points i <;> rfl

/-- What such a backend lists is where `find_backend` has sent the path. -/
theorem vfsReaddir_tagged (path : CStr) (cap : ℕ) :
    ((tagged points).vfsReaddir path cap).1.entries =
      match findBackend points path with
      | none => []
      | some (i, rel_path) => [⟨rel_path, vfsNodeDir, i.val⟩] := by
  rw [vfsReaddir, routed, tagged_points]
  cases hfind : findBackend points path with
  | none => rfl
  | some route =>
    obtain ⟨mp, hmp, -⟩ := findBackend_some hfind
    have hmount : (tagged points).mounts route.1 = some ⟨mp, taggedOps route.1⟩ := by
      change (points route.1).map _ = _
      rw [hmp]
      rfl
    dsimp only
    rw [hmount]
    rfl

/-- They have no files to remove. -/
theorem unlinkAt_tagged (path : CStr) : ((tagged points).unlinkAt path).1.code = VfsError.enodev.code := by
  rw [unlinkAt, routed, tagged_points]
  cases hfind : findBackend points path with
  | none => rfl
  | some route =>
    have hmount : ((tagged points).mounts route.1).bind (fun m => m.ops.unlink) = none := by
      change ((points route.1).map _).bind _ = _
      cases points route.1 <;> rfl
    dsimp only
    rw [hmount]
    rfl

/-- The calls agree on a path and its canonical form exactly if the path is not empty and `find_backend`
finds the same for it. -/
theorem agree_iff (hc : vfsCanonicalize p vfsPathMax = some c) :
    Agree points p c ↔ p ≠ [] ∧ findBackend points p = findBackend points c := by
  constructor
  · intro h
    have hcalls := h Unit CStr (tagged points) (tagged_points points)
    constructor
    · -- The empty path is refused by some calls before it is looked at, and the root is not.
      rintro rfl
      have hunlink := congrArg (fun r => r.1.code) (hcalls .unlink)
      dsimp only [PathCall.vfs, vfsUnlink] at hunlink
      rw [if_pos rfl, if_neg (canonical_ne_nil hc), canonicalized, vfsCanonicalize_idem hc] at hunlink
      exact absurd (show VfsError.einval.code = VfsError.enodev.code from
        hunlink.trans (unlinkAt_tagged points c)) (by decide)
    · have hreaddir := congrArg (fun r => r.1.entries) (hcalls (.readdir 0))
      dsimp only [PathCall.vfs] at hreaddir
      rw [vfsReaddir_tagged, vfsReaddir_tagged] at hreaddir
      cases hfind : findBackend points p with
      | none =>
        cases hfind' : findBackend points c with
        | none => rfl
        | some route =>
          rw [hfind, hfind'] at hreaddir
          cases hreaddir
      | some route =>
        cases hfind' : findBackend points c with
        | none =>
          rw [hfind, hfind'] at hreaddir
          cases hreaddir
        | some route' =>
          rw [hfind, hfind'] at hreaddir
          simp only [List.cons.injEq, Dirent.mk.injEq, Nat.cast_inj, and_true, true_and] at hreaddir
          exact congrArg some (Prod.ext (Fin.ext hreaddir.2) hreaddir.1)
  · rintro ⟨hp, hroute⟩ σ β s rfl call
    exact agree_of_routes hc hp s hroute call

end

/-- For every sequence of mounts and every path that `vfs_canonicalize` accepts: all calls agree on the
path and on its canonical form exactly if the path is not empty and `find_backend` finds the same for
both, which is so exactly in the cases of `SameRoute`; and the canonical form goes to the backend with the
longest mount point that is a prefix of it, the last of several, with the rest as an absolute path. -/
theorem paths_agree_iff (l : List CStr) (p c : CStr) (hc : vfsCanonicalize p vfsPathMax = some c) :
    (Agree (mountPoints l) p c ↔
      p ≠ [] ∧ findBackend (mountPoints l) p = findBackend (mountPoints l) c) ∧
      (findBackend (mountPoints l) p = findBackend (mountPoints l) c ↔ SameRoute (mountPoints l) p c) ∧
      match findBackend (mountPoints l) c with
      | none => ∀ i mp, mountPoints l i = some mp → ¬ ComponentPrefix mp c
      | some (i, rel_path) => Routes (mountPoints l) c i rel_path := by
  have hcanon : IsCanonical c := by
    obtain ⟨rfl, -⟩ := vfsCanonicalize_eq_some hc
    exact isCanonical_render (components_ok p)
  exact ⟨agree_iff (mountPoints l) hc, findBackend_eq_iff hcanon (mountPoints_ne_nil l),
    routes_of_canonical (mountPoints l) hcanon⟩

/-- A trailing separator after a mount point is harmless. -/
theorem paths_agree_iff_trailing :
    vfsCanonicalize (cstr "/mnt/") vfsPathMax = some (cstr "/mnt") ∧
      Agree (mountPoints [cstr "/", cstr "/mnt"]) (cstr "/mnt/") (cstr "/mnt") :=
  ⟨by decide, (paths_agree_iff [cstr "/", cstr "/mnt"] (cstr "/mnt/") (cstr "/mnt") (by decide)).1.mpr
    ⟨by decide, by decide⟩⟩

/-- With backends at `/a` and `/b`, a listing of `/a/../b` is asked from the one at `/a`, and a listing of
its canonical form from the one at `/b`. -/
theorem readdir_not_canonical :
    vfsCanonicalize (cstr "/a/../b") vfsPathMax = some (cstr "/b") ∧
      ((tagged (mountPoints [cstr "/a", cstr "/b"])).vfsReaddir (cstr "/a/../b") 1).1.entries =
        [⟨cstr "/../b", vfsNodeDir, 0⟩] ∧
      ((tagged (mountPoints [cstr "/a", cstr "/b"])).vfsReaddir (cstr "/b") 1).1.entries =
        [⟨cstr "/", vfsNodeDir, 1⟩] ∧
      ¬ Agree (mountPoints [cstr "/a", cstr "/b"]) (cstr "/a/../b") (cstr "/b") := by
  have hfirst : findBackend (mountPoints [cstr "/a", cstr "/b"]) (cstr "/a/../b") =
      some (0, cstr "/../b") := by decide
  have hsecond : findBackend (mountPoints [cstr "/a", cstr "/b"]) (cstr "/b") = some (1, cstr "/") := by
    decide
  have hcanon : vfsCanonicalize (cstr "/a/../b") vfsPathMax = some (cstr "/b") := by decide
  refine ⟨hcanon, ?_, ?_, ?_⟩
  · rw [vfsReaddir_tagged, hfirst]
    rfl
  · rw [vfsReaddir_tagged, hsecond]
    rfl
  · rw [agree_iff _ hcanon, hfirst, hsecond]
    decide

end FreeAsd.Vfs
