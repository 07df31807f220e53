import FreeAsd.Sched.RbInsert

/-!
# Removal from a run-queue tree

Links that show a red-black tree are taken by `rb_remove_node` to links that show one without the given node
(`rbRemoveNode_spec`). A colour is then missing above some subtree (`Missing`); a round of the fixup moves the
place up, or repairs the tree (`deleteFixupBlack_spec`).
-/

namespace FreeAsd.Sched

open LinkedTree List FreeAsd.Tree Context

variable {ι : Type*} [DecidableEq ι] {s : LinkedTree ι} {ctx : Context ι} {d : Side} {l r t u v : Tree ι}
  {x y z p w : ι} {c cy cz : Color} {fuel : ℕ}

/-! ## The leftmost node -/

omit [DecidableEq ι] in
/-- The pointers to the left lead to the first node of a subtree. -/
theorem leftEnd_spec (hfuel : t.toList.length < fuel) (h : Shows s (plug ctx t)) (hx : t.root = some x) :
    ∃ y ctx' c r, leftEnd fuel s x = some y ∧ t = plug ctx' (join .left c .leaf y r) ∧
      ∀ f ∈ ctx', f.side = .left := by
  induction fuel generalizing ctx t x with
  | zero => exact absurd hfuel (Nat.not_lt_zero _)
  | succ fuel ih =>
    obtain ⟨c, l, r, rfl⟩ := exists_join .left hx
    have hl := h.node.2.1
    unfold leftEnd
    cases hroot : l.root with
    | none =>
      obtain rfl := eq_leaf_of_root hroot
      rw [hl, hroot]
      exact ⟨x, [], c, r, rfl, rfl, nofun⟩
    | some x' =>
      rw [hl, hroot]
      have hlen : l.toList.length < fuel := by
        simp only [join, toList, length_append, length_cons] at hfuel
        omega
      have hsub : Shows s (plug (⟨.left, c, x, r⟩ :: ctx) l) := h
      obtain ⟨y, ctx', c', r', hy, e, hleft⟩ := ih hlen hsub hroot
      refine ⟨y, ctx' ++ [⟨.left, c, x, r⟩], c', r', hy, ?_, fun f hf => ?_⟩
      · rw [plug_append, ← e]
        rfl
      · rcases mem_append.mp hf with hf | hf
        · exact hleft f hf
        · rw [mem_singleton.mp hf]

omit [DecidableEq ι] in
/-- `rb_leftmost` returns the first node. -/
theorem rbLeftmost_spec (hfuel : t.toList.length < fuel) (h : Shows s t) :
    rbLeftmost fuel s = some t.toList.head? := by
  unfold rbLeftmost
  rw [h.root]
  cases hroot : t.root with
  | none =>
    obtain rfl := eq_leaf_of_root hroot
    rfl
  | some x =>
    have ht : Shows s (plug [] t) := h
    obtain ⟨y, ctx', c, r, hy, rfl, hleft⟩ := leftEnd_spec hfuel ht hroot
    dsimp only
    rw [hy, toList_plug, before_eq_nil hleft]
    rfl

/-! ## Taking a node out -/

/-- `rb_transplant` hangs the subtree `v` in the place of `z`. -/
theorem rbTransplant_spec {q : Option ι} (ha : Around s ctx (some z)) (hz : s.parent z = ctx.top)
    (hzctx : z ∉ ctx.items) (hv : Holds s.toLinks q v) (hnodup : (v.toList ++ ctx.items).Nodup) :
    Around (rbTransplant s z v.root) ctx v.root ∧ Holds (rbTransplant s z v.root).toLinks ctx.top v ∧
      SameOff s.toLinks (rbTransplant s z v.root).toLinks (v.toList ++ ctx.items) := by
  obtain ⟨hvnd, hcnd, hapart⟩ := nodup_append.mp hnodup
  have htop : ∀ x, x ∉ ctx.items → s.parent z ≠ some x := fun x hx e =>
    hx (top_mem_items (hz.symm.trans e))
  have hroot : ∀ x, x ∉ v.toList → v.root ≠ some x := fun x hx e => hx (root_mem e)
  have hts : rbTransplant s z v.root = (s.replaceChild .left z v.root).setParentOf v.root ctx.top := by
    unfold rbTransplant
    dsimp only
    rw [parent_replaceChild, hz]
  rw [hts]
  refine ⟨?_, ?_, fun x hx => ?_⟩
  · refine (ha.replaceChild hz hcnd .left v.root hzctx).congr (root_setParentOf ..) fun x hx => ?_
    exact sameAt_setParentOf (hroot x fun hx' => hapart x hx' x hx rfl)
  · refine Holds.reparent (hv.congr fun x hx => ?_) hvnd ctx.top
    exact sameAt_replaceChild (htop x fun hx' => hapart x hx x hx' rfl)
  · rw [mem_append, not_or] at hx
    exact (sameAt_replaceChild (htop x hx.2)).trans (sameAt_setParentOf (hroot x hx.1))

/-- A node with at most one child is taken out: the child takes its place. -/
theorem shows_transplant (h : Shows s (plug ctx (join d c v z .leaf))) :
    Shows (rbTransplant s z v.root) (plug ctx v) ∧
      SameOff s.toLinks (rbTransplant s z v.root).toLinks (plug ctx v).toList := by
  obtain ⟨ha, hh, hnodup⟩ := shows_plug.mp h
  obtain ⟨hzp, -, -, -, hv, -⟩ := holds_join.mp hh
  rw [root_join] at ha
  have hperm : ((join d c v z .leaf).toList ++ ctx.items).Perm (z :: (v.toList ++ ctx.items)) := by
    refine (toList_join_perm.append_right _).trans ?_
    rw [toList_leaf, append_nil, cons_append]
  obtain ⟨hz, hnd⟩ := nodup_cons.mp (hperm.nodup_iff.mp hnodup)
  obtain ⟨h1, h2, h3⟩ := rbTransplant_spec ha hzp (fun hm => hz (mem_append_right _ hm)) hv hnd
  refine ⟨shows_plug.mpr ⟨h1, h2, hnd⟩, fun x hx => h3 x fun hm => hx ?_⟩
  exact (toList_plug_perm ctx v).mem_iff.mpr hm

/-- `y` takes the place of `z`. It has no left child, and its right subtree is the one that `z` is to
have. -/
theorem replaceNode_spec {q : Option ι} {R : Tree ι} (ha : Around s ctx (some z))
    (hz : s.parent z = ctx.top) (hzl : s.child .left z = l.root) (hzc : s.color z = cz)
    (hl : Holds s.toLinks (some z) l) (hlroot : l.root ≠ none)
    (hy : Holds s.toLinks q (join .left cy .leaf y R))
    (hnodup : (z :: (l.toList ++ (y :: R.toList ++ ctx.items))).Nodup) :
    ∃ s', replaceNode s z y = some s' ∧ Shows s' (plug ctx (join .left cz l y R)) ∧
      SameOff s.toLinks s'.toLinks (l.toList ++ (y :: R.toList ++ ctx.items)) := by
  obtain ⟨hz', hnd⟩ := nodup_cons.mp hnodup
  obtain ⟨hlnd, hynd, hlx⟩ := nodup_append.mp hnd
  have hzy : z ∉ y :: R.toList ++ ctx.items := fun hm => hz' (mem_append_right _ hm)
  have hyl : y ∉ l.toList := fun hm => hlx y hm y (by simp) rfl
  have hl_apart : ∀ v ∈ l.toList, v ∉ y :: R.toList ++ ctx.items := fun v hv hm => hlx v hv v hm rfl
  have hy_apart : y ∉ R.toList ++ ctx.items := (nodup_cons.mp hynd).1
  obtain ⟨lx, hlx⟩ := Option.ne_none_iff_exists'.mp hlroot
  obtain ⟨ha₁, hy₁, hoff₁⟩ := rbTransplant_spec ha hz (fun hm => hzy (mem_append_right _ hm)) hy hynd
  rw [root_join] at ha₁ hy₁ hoff₁
  obtain ⟨hyp, -, hyr, -, -, hR⟩ := holds_join.mp hy₁
  have hoffz := hoff₁ z hzy
  have hl₁ := hl.congr fun v hv => hoff₁ v (hl_apart v hv)
  generalize hs₁ : rbTransplant s z (some y) = s₁
  rw [hs₁] at ha₁ hyp hyr hR hoffz hl₁ hoff₁
  generalize hs₂ : ((s₁.setChild .left y l.root).setParentOf l.root (some y)).setColor y
    cz = s₂
  have hroot : ∀ v, v ∉ l.toList → l.root ≠ some v := fun v hv e => hv (root_mem e)
  have hsame : ∀ v, v ≠ y → v ∉ l.toList → SameAt s₁.toLinks s₂.toLinks v := fun v hvy hvl => hs₂ ▸
    ((sameAt_setChild hvy).trans (sameAt_setParentOf (hroot v hvl))).trans (sameAt_setColor hvy)
  have hl₂ : Holds s₂.toLinks (some y) l := by
    have h : Holds (s₁.setChild .left y l.root).toLinks (some z) l := hl₁.congr fun v hv =>
      sameAt_setChild fun e => hyl (e ▸ hv)
    rw [← hs₂]
    exact (h.reparent hlnd (some y)).congr fun v hv => sameAt_setColor fun e => hyl (e ▸ hv)
  have hrest : ∀ v ∈ R.toList ++ ctx.items, SameAt s₁.toLinks s₂.toLinks v := fun v hv =>
    hsame v (fun e => hy_apart (e ▸ hv)) fun hm => hl_apart v hm (mem_cons_of_mem y hv)
  refine ⟨s₂, ?_, shows_plug.mpr ⟨?_, holds_join.mpr ⟨?_, ?_, ?_, ?_, hl₂, ?_⟩, ?_⟩, fun v hv => ?_⟩
  · have hcolor : ((s₁.setChild .left y l.root).setParentOf l.root (some y)).color z = cz := by
      rw [color_setParentOf, color_setChild, hoffz.2.2, hzc]
    unfold replaceNode
    dsimp only
    rw [hs₁, hoffz.2.1, hzl, child_setChild_self]
    refine Option.bind_eq_some_iff.mpr ⟨lx, hlx, ?_⟩
    rw [← hs₂, hlx] at *
    exact congrArg some (congrArg _ hcolor)
  · rw [root_join]
    exact ha₁.congr (by rw [← hs₂]; simp) fun v hv => hrest v (mem_append_right _ hv)
  · rw [← hs₂, parent_setColor, parent_setParentOf_of_ne _ _ _ (hroot y hyl), parent_setChild, hyp]
  · rw [← hs₂, child_setColor, child_setParentOf, child_setChild_self]
  · rw [← hs₂, child_setColor, child_setParentOf, child_setChild_other]
    exact hyr
  · rw [← hs₂, color_setColor_self]
  · exact hR.congr fun v hv => hrest v (mem_append_left _ hv)
  · refine List.Perm.nodup_iff ?_ |>.mpr hnd
    exact append_assoc .. ▸ List.Perm.refl _
  · rw [mem_append, not_or] at hv
    exact (hoff₁ v hv.2).trans (hsame v (fun e => hv.2 (e ▸ mem_cons_self)) hv.1)

omit [DecidableEq ι] in
/-- The nodes of a tree in which `y` is the first node of the right subtree of `z`. -/
theorem successor_perm {ctx' : Context ι} {l rr : Tree ι} {y z : ι} {cy cz : Color} :
    (plug (ctx' ++ ⟨.right, cz, z, l⟩ :: ctx) (join .left cy .leaf y rr)).toList.Perm
      (z :: (l.toList ++ (y :: (plug ctx' rr).toList ++ ctx.items))) := by
  have hsub : (plug ctx' (join .left cy .leaf y rr)).toList.Perm
      (y :: (plug ctx' rr).toList) :=
    (toList_plug_perm _ _).trans ((toList_plug_perm ctx' rr).cons y).symm
  rw [plug_append, plug_cons]
  refine (toList_plug_perm _ _).trans ((toList_join_perm.append_right _).trans ?_)
  rw [cons_append]
  refine List.Perm.cons z ?_
  refine (perm_append_comm.append_right _).trans ?_
  rw [append_assoc]
  exact (hsub.append_right _).append_left _

/-- The successor `y` of `z` is taken out of its place below `z`, and gets the right subtree of `z`. -/
theorem detachNode_spec {f : Frame ι} {ctx' : Context ι} {rr : Tree ι}
    (h : Shows s (plug (f :: ctx' ++ ⟨.right, cz, z, l⟩ :: ctx)
      (join .left cy .leaf y rr))) :
    ∃ s', detachNode s z y = some s' ∧ Around s' ctx (some z) ∧ s'.parent z = ctx.top ∧
      s'.child .left z = l.root ∧ s'.color z = cz ∧ Holds s'.toLinks (some z) l ∧
      Holds s'.toLinks (s'.parent y)
        (join .left cy .leaf y (plug (f :: ctx') rr)) ∧
      SameOff s.toLinks s'.toLinks (y :: (plug (f :: ctx') rr).toList ++
        (z :: l.toList ++ ctx.items)) := by
  have hnd := successor_perm.nodup_iff.mp h.nodup
  obtain ⟨-, hyl, hyr, hyc⟩ := h.node
  have h' := h
  rw [← join_other] at h'
  obtain ⟨h₁, hoff₁⟩ := shows_transplant h'
  generalize hs₁ : rbTransplant s y rr.root = s₁
  rw [hs₁] at h₁ hoff₁
  rw [plug_append] at h₁ hoff₁
  -- Without `y`, the right subtree of `z` is still not empty.
  have hroot : (plug (f :: ctx') rr).root ≠ none := by
    rw [plug_cons]
    exact root_plug_ne_none (by simp)
  obtain ⟨r', hr'⟩ : ∃ r', r' = plug (f :: ctx') rr := ⟨_, rfl⟩
  rw [← hr'] at hnd h₁ hoff₁ hroot ⊢
  obtain ⟨rx, hrx⟩ := Option.ne_none_iff_exists'.mp hroot
  rw [plug_cons] at h₁ hoff₁
  obtain ⟨hzp, hzr, hzl, hzc⟩ := h₁.node
  obtain ⟨ha₁, hh₁, hnd₁⟩ := shows_plug.mp h₁
  obtain ⟨-, -, -, -, hr₁, hl₁⟩ := holds_join.mp hh₁
  simp only [mem_join, mem_plug, SameOff] at hoff₁
  have hnd' := hnd
  simp only [nodup_cons, nodup_append, mem_append, mem_cons, cons_append] at hnd'
  have hy : y ≠ z ∧ y ∉ r'.toList ∧ y ∉ l.toList ∧ y ∉ ctx.items := by grind
  have hr_apart : ∀ v ∈ r'.toList, v ≠ z ∧ v ∉ l.toList ∧ v ∉ ctx.items := by grind
  have hrnd : r'.toList.Nodup := by grind
  generalize hs₂ : (s₁.setChild .right y r'.root).setParentOf r'.root (some y) = s₂
  have hsame : ∀ v, v ≠ y → v ∉ r'.toList → SameAt s₁.toLinks s₂.toLinks v := fun v hvy hvr => hs₂ ▸
    (sameAt_setChild hvy).trans (sameAt_setParentOf fun e => hvr (root_mem e))
  have hsame_z : SameAt s₁.toLinks s₂.toLinks z := hsame z (Ne.symm hy.1) fun hm => (hr_apart z hm).1 rfl
  have hsame_y := hoff₁ y (by simp [hy])
  refine ⟨s₂, ?_, ?_, hsame_z.1.trans hzp, (hsame_z.2.1 _).trans hzl, hsame_z.2.2.trans hzc, ?_,
    holds_join.mpr ⟨rfl, ?_, ?_, ?_, holds_leaf, ?_⟩, fun v hv => ?_⟩
  · unfold detachNode
    have hyr : s.child .right y = rr.root := hyr
    have hzr : s₁.child .right z = r'.root := hzr
    dsimp only
    rw [hyr, hs₁, hzr, child_setChild_self]
    refine Option.bind_eq_some_iff.mpr ⟨rx, hrx, ?_⟩
    rw [← hs₂, hrx]
    rfl
  · exact ha₁.congr (by rw [← hs₂]; simp) fun v hv =>
      hsame v (fun e => hy.2.2.2 (e ▸ hv)) fun hm => (hr_apart v hm).2.2 hv
  · exact hl₁.congr fun v hv =>
      hsame v (fun e => hy.2.2.1 (e ▸ hv)) fun hm => (hr_apart v hm).2.1 hv
  · have hleft : (s₁.setChild .right y r'.root).child .left = s₁.child .left :=
      child_setChild_other s₁ y r'.root .right
    rw [← hs₂, child_setParentOf, hleft, hsame_y.2.1, hyl]
  · rw [← hs₂, child_setParentOf]
    exact child_setChild_self ..
  · rw [← hs₂, color_setParentOf, color_setChild, hsame_y.2.2, hyc]
  · have h₂ : Holds (s₁.setChild .right y r'.root).toLinks (some z) r' := hr₁.congr fun v hv =>
      sameAt_setChild fun e => hy.2.1 (e ▸ hv)
    exact hs₂ ▸ h₂.reparent hrnd (some y)
  · simp only [mem_append, mem_cons, not_or] at hv
    obtain ⟨⟨hvy, hvr⟩, ⟨hvz, hvl⟩, hvctx⟩ := hv
    refine (hoff₁ v ?_).trans (hsame v hvy hvr)
    exact not_or.mpr ⟨not_or.mpr ⟨hvz, not_or.mpr ⟨hvr, hvl⟩⟩, hvctx⟩

/-- A red-black tree from which a node of colour `c` is missing above the subtree `t`. If the root of
`t` is red, it is going to be black. -/
structure Missing (c : Color) (ctx : Context ι) (t : Tree ι) : Prop where
  subtree : t.blacken.NoRedRed
  context : Context.NoRedRed ctx .black
  black : c = .red → t.color = .black
  height : ∃ n k, t.BlackHeight n ∧ Context.BlackHeight ctx (n + c.weight) k
  root : ctx ≠ [] → (Context.plug ctx t).color = .black

omit [DecidableEq ι] in
theorem missing_of_redBlack (h : (plug ctx (join d c t z .leaf)).RedBlack) : Missing c ctx t := by
  obtain ⟨hjoin, hctx⟩ := noRedRed_plug.mp h.noRedRed
  obtain ⟨hc, ht, -⟩ := noRedRed_join.mp hjoin
  obtain ⟨k, hk⟩ := h.blackHeight
  obtain ⟨n, hn, hnk⟩ := blackHeight_plug.mp hk
  obtain ⟨m, htm, -, rfl⟩ := blackHeight_join.mp hn
  exact ⟨ht.blacken, hctx.black, fun e => (hc e).1, ⟨m, k, htm, hnk⟩,
    fun hne => (color_plug hne).trans h.color_root⟩

omit [DecidableEq ι] in
theorem Missing.item {ctx' : Context ι} {c cz : Color}
    (h : Missing c (ctx' ++ ⟨d, cz, z, u⟩ :: ctx) t) (y : ι) :
    Missing c (ctx' ++ ⟨d, cz, y, u⟩ :: ctx) t := by
  obtain ⟨n, k, hn, hk⟩ := h.height
  refine ⟨h.subtree, (noRedRed_item _ _).mp h.context, h.black,
    ⟨n, k, hn, (blackHeight_item _ _).mp hk⟩, fun _ => ?_⟩
  exact (color_plug_item _ _).trans (h.root (by simp))

/-- The part of `rb_remove_node` for a node with two children: its successor takes its place. -/
theorem removeLinks_successor {lx rx : ι} (h : Shows s (plug ctx (join .left cz l z r)))
    (hT : (plug ctx (join .left cz l z r)).RedBlack) (hlx : l.root = some lx)
    (hrx : r.root = some rx) (hfuel : r.toList.length < fuel) :
    ∃ s' c ctx' t, removeLinks fuel s z = some (s', c, t.root, top ctx') ∧
      Shows s' (plug ctx' t) ∧ Missing c ctx' t ∧
      (plug ctx' t).toList = (ctx.before ++ l.toList) ++ (r.toList ++ ctx.after) ∧
      SameOff s.toLinks s'.toLinks (plug ctx (join .left cz l z r)).toList := by
  obtain ⟨hzp, hzl, hzr, hzc⟩ := h.node
  have hzr : s.child .right z = r.root := hzr
  have hsub : Shows s (plug (⟨.right, cz, z, l⟩ :: ctx) r) := h
  obtain ⟨y, ctx', cy, rr, hy, rfl, hleft⟩ := leftEnd_spec hfuel hsub hrx
  rw [← plug_append] at hsub
  obtain ⟨hyp, -, hyr, hyc⟩ := hsub.node
  have hnodup := successor_perm.nodup_iff.mp hsub.nodup
  have hmiss : Missing cy (ctx' ++ ⟨.right, cz, y, l⟩ :: ctx) rr := by
    have hT' : (plug (ctx' ++ ⟨.right, cz, z, l⟩ :: ctx)
        (join .right cy rr y .leaf)).RedBlack := by
      rw [plug_append]
      exact hT
    exact (missing_of_redBlack hT').item y
  have hlist : (plug (ctx' ++ ⟨.right, cz, y, l⟩ :: ctx) rr).toList = (ctx.before ++ l.toList) ++
      ((plug ctx' (join .left cy .leaf y rr)).toList ++ ctx.after) := by
    rw [plug_append, plug_cons, toList_plug, toList_plug]
    simp [join, toList, toList_plug, before_eq_nil hleft]
  have hsubset : ∀ v, v ∈ z :: (l.toList ++ (y :: (plug ctx' rr).toList ++ ctx.items)) →
      v ∈ (plug ctx (join .left cz l z
        (plug ctx' (join .left cy .leaf y rr)))).toList := by
    intro v hv
    have hperm : (plug (ctx' ++ ⟨.right, cz, z, l⟩ :: ctx)
      (join .left cy .leaf y rr)).toList.Perm _ := successor_perm
    rw [plug_append] at hperm
    exact hperm.mem_iff.mpr hv
  have hyr : s.child .right y = rr.root := hyr
  have hl : l.root ≠ none := by simp [hlx]
  unfold removeLinks
  rw [hzl, hzr, hlx, hrx]
  dsimp only
  rw [hy]
  dsimp only [Option.bind_eq_bind, Option.bind_some]
  rw [hyc, hyr]
  cases ctx' with
  | nil =>
    -- `y` is the right child of `z`.
    obtain ⟨ha, hh, -⟩ := shows_plug.mp h
    obtain ⟨-, -, -, -, hl', hY⟩ := holds_join.mp hh
    obtain ⟨s', hs', h', hoff⟩ := replaceNode_spec ha hzp hzl hzc hl' hl hY hnodup
    refine ⟨s', cy, _, rr, ?_, h', hmiss, hlist, hoff.mono fun v hv => hsubset v ?_⟩
    · have hyp : s.parent y = some z := hyp
      rw [if_pos hyp, hs']
      rfl
    · exact mem_cons_of_mem z hv
  | cons f ctx' =>
    -- `y` is further below.
    have hne : ¬s.parent y = some z := by
      intro e
      obtain rfl : f.item = z := Option.some.inj (hyp.symm.trans e)
      have hf : f.item ∈ (plug (f :: ctx') rr).toList := mem_plug.mpr (.inr mem_cons_self)
      exact (nodup_cons.mp hnodup).1 (by simp [hf])
    obtain ⟨s₁, hs₁, ha, hzp₁, hzl₁, hzc₁, hl', hY, hoff₁⟩ := detachNode_spec hsub
    obtain ⟨s', hs', h', hoff⟩ := replaceNode_spec ha hzp₁ hzl₁ hzc₁ hl' hl hY hnodup
    refine ⟨s', cy, _, rr, ?_, ?_, hmiss, hlist, ?_⟩
    · rw [if_neg hne, hs₁, Option.bind_some, hs', hyp]
      rfl
    · rw [plug_append]
      exact h'
    · refine (hoff₁.mono fun v hv => hsubset v ?_).trans (hoff.mono fun v hv => hsubset v ?_)
      · simp only [mem_append, mem_cons] at hv ⊢
        tauto
      · exact mem_cons_of_mem z hv

/-- What the first part of `rb_remove_node` does: `z` is taken out of the sequence of the nodes, and the
fixup is started where a node is missing. -/
theorem removeLinks_spec {T : Tree ι} (h : Shows s T) (hT : T.RedBlack) (hz : z ∈ T.toList)
    (hfuel : T.toList.length < fuel) :
    ∃ s' c ctx t A B, removeLinks fuel s z = some (s', c, t.root, top ctx) ∧
      Shows s' (plug ctx t) ∧ Missing c ctx t ∧ T.toList = A ++ z :: B ∧
      (plug ctx t).toList = A ++ B ∧ SameOff s.toLinks s'.toLinks T.toList := by
  obtain ⟨ctx, cz, l, r, rfl⟩ := exists_plug hz
  have hzj : Shows s (plug ctx (join .left cz l z r)) := h
  obtain ⟨hzp, hzl, hzr, hzc⟩ := hzj.node
  have hzr : s.child .right z = r.root := hzr
  have hlist : (plug ctx (node cz l z r)).toList =
      (ctx.before ++ l.toList) ++ z :: (r.toList ++ ctx.after) := by
    rw [toList_plug]
    simp [toList]
  -- A child that is alone takes the place of `z`.
  have halone : ∀ (d : Side) (t : Tree ι), node cz l z r = join d cz t z .leaf →
      Shows (rbTransplant s z t.root) (plug ctx t) ∧ Missing cz ctx t ∧
      SameOff s.toLinks (rbTransplant s z t.root).toLinks (plug ctx (node cz l z r)).toList := by
    intro d t e
    rw [e] at h hT ⊢
    obtain ⟨h₁, hoff⟩ := shows_transplant h
    refine ⟨h₁, missing_of_redBlack hT, hoff.mono fun v hv => ?_⟩
    rw [mem_plug] at hv ⊢
    exact hv.imp_left fun hv => mem_join.mpr (.inr (.inl hv))
  cases hl : l.root with
  | none =>
    obtain rfl := eq_leaf_of_root hl
    obtain ⟨h₁, hmiss, hoff⟩ := halone .right r rfl
    refine ⟨_, _, ctx, r, _, _, ?_, h₁, hmiss, hlist, ?_, hoff⟩
    · unfold removeLinks
      rw [hzl, hzr, hzc, hzp]
      rfl
    · rw [toList_plug]
      simp
  | some lx =>
    cases hr : r.root with
    | none =>
      obtain rfl := eq_leaf_of_root hr
      obtain ⟨h₁, hmiss, hoff⟩ := halone .left l rfl
      refine ⟨_, _, ctx, l, _, _, ?_, h₁, hmiss, hlist, ?_, hoff⟩
      · unfold removeLinks
        rw [hzl, hzr, hzc, hzp, hl]
        rfl
      · rw [toList_plug]
        simp
    | some rx =>
      have hfuel' : r.toList.length < fuel := by
        rw [hlist] at hfuel
        simp only [length_append, length_cons] at hfuel
        omega
      obtain ⟨s', c, ctx', t, hs', h', hmiss, hlist', hoff⟩ := removeLinks_successor hzj hT hl hr hfuel'
      exact ⟨s', c, ctx', t, _, _, hs', h', hmiss, hlist, hlist', hoff⟩

/-! ## The fixup of a removal -/

variable {b e W : Tree ι} {cp cw : Color}

/-- A red sibling is rotated away. -/
theorem deleteFixupRed_red
    (h : Shows s (plug (⟨d, cp, p, join d .red b w e⟩ :: ctx) t)) :
    ∃ s', deleteFixupRed d s (some p) = some (s', b.root) ∧
      Turns s (plug (⟨d, cp, p, join d .red b w e⟩ :: ctx) t) s'
        (plug (⟨d, .red, p, b⟩ :: ⟨d, .black, w, e⟩ :: ctx) t) := by
  have hw : s.child d.other p = some w := (Shows.node h).2.2.1.trans root_join
  have hred : s.colorOf (some w) = .red := by
    have := h.colorOf_sibling
    rwa [root_join, color_join] at this
  -- The sibling becomes black and the parent red.
  have h₁ : Turns s (plug (⟨d, cp, p, join d .red b w e⟩ :: ctx) t) (s.setColor w .black)
      (plug (⟨d, cp, p, join d .black b w e⟩ :: ctx) t) :=
    (h.sibling.turns_setColor .black).sibling
  have h₂ : Turns s (plug (⟨d, cp, p, join d .red b w e⟩ :: ctx) t)
      ((s.setColor w .black).setColor p .red)
      (plug ctx (join d .red t p (join d .black b w e))) :=
    h₁.trans (Shows.turns_setColor h₁.shows .red)
  obtain ⟨s', hs', h₃⟩ := rbRotate_spec h₂.shows
  have hturns : Turns s (plug (⟨d, cp, p, join d .red b w e⟩ :: ctx) t) s'
      (plug (⟨d, .red, p, b⟩ :: ⟨d, .black, w, e⟩ :: ctx) t) := h₂.trans h₃
  have hb : s'.child d.other p = b.root := (Shows.node hturns.shows).2.2.1
  refine ⟨s', ?_, hturns⟩
  unfold deleteFixupRed
  dsimp only [Option.bind_some]
  rw [hw, if_pos hred]
  refine Option.bind_eq_some_iff.mpr ⟨p, rfl, Option.bind_eq_some_iff.mpr ⟨s', hs', ?_⟩⟩
  rw [hb]
  rfl

theorem deleteFixupRed_black (h : Shows s (plug (⟨d, cp, p, W⟩ :: ctx) t))
    (hW : W.color = .black) : deleteFixupRed d s (some p) = some (s, W.root) := by
  have hw : s.child d.other p = W.root := (Shows.node h).2.2.1
  have hblack : s.colorOf W.root = .black := h.colorOf_sibling.trans hW
  unfold deleteFixupRed
  dsimp only [Option.bind_some]
  rw [hw, hblack, if_neg (by decide)]

/-- A sibling whose child away from `x` is black gets a red one there. -/
theorem deleteFixupNear_spec {n : ℕ} (h : Shows s (plug (⟨d, cp, p, join d .black b w e⟩ :: ctx) t))
    (hred : b.color = .red ∨ e.color = .red) (hnrr : (join d .black b w e).NoRedRed)
    (hn : (join d .black b w e).BlackHeight n) :
    ∃ s' b' w' e', deleteFixupNear d s (some p) w = some (s', some w') ∧
      Turns s (plug (⟨d, cp, p, join d .black b w e⟩ :: ctx) t) s'
        (plug (⟨d, cp, p, join d .black b' w' e'⟩ :: ctx) t) ∧
      e'.color = .red ∧ (join d .black b' w' e').NoRedRed ∧
      (join d .black b' w' e').BlackHeight n := by
  obtain ⟨-, hwb, hwe, -⟩ := h.sibling.node
  have hnear : Shows s (plug (⟨d, .black, w, e⟩ :: ⟨d.other, cp, p, t⟩ :: ctx) b) := h.sibling
  unfold deleteFixupNear
  rw [hwe, hnear.colorOf_sibling]
  by_cases hec : e.color = .black
  · -- The near child is red. It takes the place of the sibling.
    have hbc : b.color = .red := hred.resolve_right (by simp [hec])
    obtain ⟨b₁, v, b₂, rfl⟩ := exists_join_of_red d hbc
    rw [if_pos hec, hwb, root_join]
    obtain ⟨s', hs', hturns⟩ := rotate_grandparent h.sibling
    have hturns' := hturns.sibling
    have hw : s'.child d.other p = some v := (Shows.node hturns'.shows).2.2.1.trans root_join
    refine ⟨s', b₁, v, _, ?_, hturns', color_join, ?_, ?_⟩
    · refine Option.bind_eq_some_iff.mpr ⟨s', hs', ?_⟩
      rw [Option.bind_some, hw]
      rfl
    · obtain ⟨-, hb, he⟩ := noRedRed_join.mp hnrr
      obtain ⟨hb₁₂, hb₁, hb₂⟩ := noRedRed_join.mp hb
      exact noRedRed_join.mpr ⟨nofun, hb₁, noRedRed_join.mpr ⟨fun _ => ⟨(hb₁₂ rfl).2, hec⟩, hb₂, he⟩⟩
    · obtain ⟨m, hb, he, rfl⟩ := blackHeight_join.mp hn
      obtain ⟨m', hb₁, hb₂, hm⟩ := blackHeight_join.mp hb
      obtain rfl : m = m' := hm
      exact blackHeight_join.mpr ⟨m, hb₁, blackHeight_join.mpr ⟨m, hb₂, he, rfl⟩, rfl⟩
  · rw [if_neg hec]
    exact ⟨s, b, w, e, rfl, Turns.refl h, Color.ne_black.mp hec, hnrr, hn⟩

/-- The sibling goes up in the place of the parent. -/
theorem deleteFixupFar_spec
    (h : Shows s (plug (⟨d, cp, p, join d cw b w e⟩ :: ctx) t)) :
    ∃ s', deleteFixupFar d s (some p) (some w) = some (s', s'.root, none) ∧
      Turns s (plug (⟨d, cp, p, join d cw b w e⟩ :: ctx) t) s'
        (plug ctx (join d cp (join d .black t p b) w e.blacken)) := by
  have hp : Shows s (plug ctx (join d cp t p (join d cw b w e))) := h
  have hpc : s.colorOf (some p) = cp := hp.node.2.2.2
  -- The sibling gets the colour of the parent, and the parent becomes black.
  have h₁ := (h.sibling.turns_setColor cp).sibling
  have h₂ : Turns s (plug (⟨d, cp, p, join d cw b w e⟩ :: ctx) t)
      ((s.setColor w cp).setColor p .black)
      (plug (⟨d, .black, p, join d cp b w e⟩ :: ctx) t) :=
    h₁.trans (Shows.turns_setColor h₁.shows .black)
  generalize hs₂ : (s.setColor w cp).setColor p .black = s₂
  rw [hs₂] at h₂
  have hwe : s₂.child d.other w = e.root := h₂.shows.sibling.node.2.2.1
  -- So does the child of the sibling.
  have hfar : Shows s₂ (plug (⟨d, cp, w, e⟩ :: ⟨d.other, .black, p, t⟩ :: ctx) b) := h₂.shows.sibling
  have h₃ : Turns s₂ (plug (⟨d, .black, p, join d cp b w e⟩ :: ctx) t)
      (s₂.setColorOf e.root .black)
      (plug (⟨d, .black, p, join d cp b w e.blacken⟩ :: ctx) t) :=
    Turns.sibling hfar.sibling.turns_blacken.sibling
  have h₄ : Shows (s₂.setColorOf e.root .black)
      (plug ctx (join d .black t p (join d cp b w e.blacken))) := h₃.shows
  obtain ⟨s', hs', h₅⟩ := rbRotate_spec h₄
  refine ⟨s', ?_, (h₂.trans h₃).trans h₅⟩
  have hcolors : (s.setColorOf (some w) (s.colorOf (some p))).setColorOf (some p) .black = s₂ := by
    rw [hpc, ← hs₂]
    rfl
  unfold deleteFixupFar
  dsimp only
  rw [hcolors, Option.bind_some, hwe, hs']
  rfl

/-- The rest of a round of the fixup, with a black sibling: the missing node is now missing one level
further up, or the tree is repaired. -/
theorem deleteFixupBlack_spec
    (h : Shows s (plug (⟨d, cp, p, join d .black b w e⟩ :: ctx) t))
    (hm : Missing .black (⟨d, cp, p, join d .black b w e⟩ :: ctx) t) (ht : t.color = .black) :
    (∃ s' u, deleteFixupBlack d s (some p) w = some (s', some p, ctx.top) ∧
      Turns s (plug (⟨d, cp, p, join d .black b w e⟩ :: ctx) t) s' (plug ctx u) ∧
      Missing .black ctx u ∧ u.root = some p ∧ u.color = cp) ∨
    ∃ s' u k, deleteFixupBlack d s (some p) w = some (s', s'.root, none) ∧
      Turns s (plug (⟨d, cp, p, join d .black b w e⟩ :: ctx) t) s' u ∧
      u.NoRedRed ∧ u.BlackHeight k := by
  obtain ⟨hsub, ⟨hcp, hW, hctx⟩, -, ⟨n, k, hn, hWn, hk⟩, hroot⟩ := hm
  rw [blacken_of_black ht] at hsub
  obtain ⟨-, hwb, hwe, -⟩ := h.sibling.node
  have hnear : Shows s (plug (⟨d, .black, w, e⟩ :: ⟨d.other, cp, p, t⟩ :: ctx) b) := h.sibling
  unfold deleteFixupBlack
  rw [hwb, hwe, hnear.colorOf, hnear.colorOf_sibling]
  by_cases hbe : b.color = .black ∧ e.color = .black
  · -- The sibling becomes red.
    left
    rw [if_pos hbe]
    have h₁ := (h.sibling.turns_setColor .red).sibling
    have hpp : (s.setColor w .red).parent p = ctx.top := (Shows.node h₁.shows).1
    obtain ⟨-, hb, he⟩ := noRedRed_join.mp hW
    obtain ⟨m, hbm, hem, hnm⟩ := blackHeight_join.mp hWn
    obtain rfl : n = m := Nat.succ.inj hnm
    refine ⟨_, _, ?_, h₁, ⟨?_, hctx.black, nofun, ⟨n + cp.weight, k, ?_, ?_⟩, fun hne => ?_⟩,
      root_join, color_join⟩
    · dsimp only
      rw [Option.bind_some, hpp]
      rfl
    · rw [Frame.fill, blacken_join]
      exact noRedRed_join.mpr ⟨nofun, hsub, noRedRed_join.mpr ⟨fun _ => hbe, hb, he⟩⟩
    · exact blackHeight_join.mpr ⟨n, hn, blackHeight_join.mpr ⟨n, hbm, hem, rfl⟩, rfl⟩
    · rwa [Nat.add_right_comm] at hk
    · exact (color_plug hne).trans (hroot (by simp))
  · -- A child of the sibling is red, and one or two rotations repair the tree.
    right
    rw [if_neg hbe]
    have hred : b.color = .red ∨ e.color = .red := by
      rwa [not_and_or, ← ne_eq, ← ne_eq, Color.ne_black, Color.ne_black] at hbe
    obtain ⟨s₁, b', w', e', hs₁, h₁, he', hW', hWn'⟩ := deleteFixupNear_spec h hred hW hWn
    obtain ⟨s', hs', h₂⟩ := deleteFixupFar_spec h₁.shows
    obtain ⟨-, hb', he''⟩ := noRedRed_join.mp hW'
    obtain ⟨m, hbm, hem, hnm⟩ := blackHeight_join.mp hWn'
    obtain rfl : n = m := Nat.succ.inj hnm
    refine ⟨s', _, k, ?_, h₁.trans h₂, noRedRed_plug.mpr ⟨?_, ?_⟩,
      blackHeight_plug.mpr ⟨_, blackHeight_join.mpr ⟨n + 1, ?_, ?_, rfl⟩, hk⟩⟩
    · exact Option.bind_eq_some_iff.mpr ⟨_, hs₁, hs'⟩
    · exact noRedRed_join.mpr ⟨fun _ => ⟨color_join, color_blacken⟩,
        noRedRed_join.mpr ⟨nofun, hsub, hb'⟩, he''.blacken⟩
    · rwa [color_join]
    · exact blackHeight_join.mpr ⟨n, hn, hbm, rfl⟩
    · exact hem.blacken_of_red he'

/-! ## The loop -/

/-- The loop ends at a red node, which becomes black. -/
theorem rbDeleteFixup_red (h : Shows s (plug ctx t)) (hm : Missing .black ctx t) (ht : t.color = .red) :
    ∃ s' T', rbDeleteFixup (fuel + 1) s t.root ctx.top = some s' ∧
      Turns s (plug ctx t) s' T' ∧ T'.RedBlack := by
  obtain ⟨n, k, hn, hk⟩ := hm.height
  refine ⟨_, _, ?_, h.turns_blacken, ?_, ?_, ?_⟩
  · unfold rbDeleteFixup
    rw [if_neg]
    rw [h.colorOf, ht]
    simp
  · cases ctx with
    | nil => exact color_blacken
    | cons f ctx => exact (color_plug (by simp)).trans (hm.root (by simp))
  · exact noRedRed_plug.mpr ⟨hm.subtree, color_blacken.symm ▸ hm.context⟩
  · exact ⟨k, blackHeight_plug.mpr ⟨n + 1, hn.blacken_of_red ht, hk⟩⟩

/-- The loop ends at the root, which becomes black. -/
theorem rbDeleteFixup_root {T : Tree ι} {q : Option ι} {k : ℕ} (h : Shows s T)
    (hnrr : T.blacken.NoRedRed) (hk : T.BlackHeight k) :
    ∃ s' T', rbDeleteFixup (fuel + 1) s s.root q = some s' ∧ Turns s T s' T' ∧ T'.RedBlack := by
  have h' : Shows s (plug [] T) := h
  refine ⟨_, T.blacken, ?_, h.root ▸ h'.turns_blacken, color_blacken, hnrr, hk.blacken⟩
  unfold rbDeleteFixup
  rw [if_neg fun hc => hc.1 rfl]

omit [DecidableEq ι] in
/-- After a red sibling is rotated away, the black node is missing at the same subtree. -/
theorem Missing.red_sibling {t b e : Tree ι} {d : Side} {cp : Color} {p w : ι}
    (hm : Missing .black (⟨d, cp, p, join d .red b w e⟩ :: ctx) t) :
    Missing .black (⟨d, .red, p, b⟩ :: ⟨d, .black, w, e⟩ :: ctx) t := by
  obtain ⟨hsub, ⟨hcp, hW, hctx⟩, -, ⟨n, k, hn, hWn, hk⟩, hroot⟩ := hm
  obtain rfl : cp = .black := by
    rw [← Color.ne_red]
    intro e
    have := (hcp e).2
    rw [color_join] at this
    exact nomatch this
  obtain ⟨hbe, hb, he⟩ := noRedRed_join.mp hW
  obtain ⟨m, hbm, hem, hnm⟩ := blackHeight_join.mp hWn
  obtain rfl : n + 1 = m := hnm
  refine ⟨hsub, ⟨fun _ => ⟨rfl, (hbe rfl).1⟩, hb, nofun, he, hctx⟩, nofun,
    ⟨n, k, hn, hbm, hem, hk⟩, fun _ => ?_⟩
  have hcolor := hroot (by simp)
  rw [plug_cons] at hcolor ⊢
  rw [plug_cons]
  exact (color_plug_congr (by rw [color_join, color_join])).trans hcolor

/-- A round of the fixup goes on one level further up, or at a red node, or at the root. -/
theorem deleteFixupRound_spec {f : Frame ι} (h : Shows s (plug (f :: ctx) t))
    (hm : Missing .black (f :: ctx) t) (ht : t.color = .black) :
    (∃ s' ctx' u, deleteFixupRound f.side s (some f.item) = some (s', u.root, top ctx') ∧
      Turns s (plug (f :: ctx) t) s' (plug ctx' u) ∧ Missing .black ctx' u ∧
      (ctx' = ctx ∨ u.color = .red)) ∨
    ∃ s' u k, deleteFixupRound f.side s (some f.item) = some (s', s'.root, none) ∧
      Turns s (plug (f :: ctx) t) s' u ∧ u.NoRedRed ∧ u.BlackHeight k := by
  obtain ⟨d, cp, p, W⟩ := f
  obtain ⟨n, k, hn, hWn, hk⟩ := id hm.height
  obtain ⟨cw, b, w, e, rfl⟩ := exists_join_of_blackHeight d hWn
  unfold deleteFixupRound
  cases cw with
  | black =>
    rw [deleteFixupRed_black h color_join]
    dsimp only [Option.bind_eq_bind, Option.bind_some]
    rw [root_join, Option.bind_some]
    rcases deleteFixupBlack_spec h hm ht with ⟨s', u, hs', h', hm', hu, -⟩ | hdone
    · exact .inl ⟨s', ctx, u, hu ▸ hs', h', hm', .inl rfl⟩
    · exact .inr hdone
  | red =>
    obtain ⟨s₁, hs₁, h₁⟩ := deleteFixupRed_red h
    have hm₁ := hm.red_sibling
    obtain ⟨n, k, hn, hbn, -⟩ := id hm₁.height
    obtain ⟨cb, b₁, v, b₂, rfl⟩ := exists_join_of_blackHeight d hbn
    obtain rfl : cb = .black := by
      have := (hm₁.context.1 rfl).2
      rwa [color_join] at this
    rw [hs₁]
    dsimp only [Option.bind_eq_bind, Option.bind_some]
    rw [root_join, Option.bind_some]
    rcases deleteFixupBlack_spec h₁.shows hm₁ ht with ⟨s', u, hs', h', hm', hu, huc⟩ |
      ⟨s', u, k, hs', h', hu⟩
    · exact .inl ⟨s', _, u, hu ▸ hs', h₁.trans h', hm', .inr huc⟩
    · exact .inr ⟨s', u, k, hs', h₁.trans h', hu⟩

omit [DecidableEq ι] in
/-- The sibling is there, and it is another node. -/
theorem Missing.root_ne_sibling {f : Frame ι} {t : Tree ι} (hm : Missing .black (f :: ctx) t)
    (h : Shows s (plug (f :: ctx) t)) : t.root ≠ f.sibling.root := by
  cases hx : t.root with
  | none =>
    obtain ⟨n, k, -, hn, -⟩ := hm.height
    obtain ⟨c, a, w, b, hw⟩ := exists_join_of_blackHeight .left hn
    simp [hw]
  | some x => exact (h.sibling_ne hx).symm

/-- `rb_delete_fixup` makes a red-black tree of one from which a black node is missing. -/
theorem rbDeleteFixup_spec (hfuel : ctx.length < fuel) (h : Shows s (plug ctx t)) (hm : Missing .black ctx t) :
    ∃ s' T', rbDeleteFixup fuel s t.root ctx.top = some s' ∧ Turns s (plug ctx t) s' T' ∧
      T'.RedBlack := by
  induction fuel generalizing s ctx t with
  | zero => exact absurd hfuel (Nat.not_lt_zero _)
  | succ fuel ih =>
    by_cases ht : t.color = .red
    · exact rbDeleteFixup_red h hm ht
    have ht := Color.ne_red.mp ht
    cases ctx with
    | nil =>
      obtain ⟨n, k, hn, -⟩ := hm.height
      have hroot : t.root = s.root := h.root.symm
      rw [hroot]
      exact rbDeleteFixup_root h hm.subtree hn
    | cons f ctx =>
      have hside : (if t.root = (some f.item).bind (s.child .left) then Side.left else Side.right) =
          f.side := h.side (hm.root_ne_sibling h)
      have hstep : rbDeleteFixup (fuel + 1) s t.root (some f.item) =
          (deleteFixupRound f.side s (some f.item)).bind fun r =>
            rbDeleteFixup fuel r.1 r.2.1 r.2.2 := by
        rw [rbDeleteFixup, if_pos ⟨h.root_ne (by simp), h.colorOf.trans ht⟩]
        rw [hside]
        rfl
      rw [top_cons, hstep]
      obtain ⟨fuel, rfl⟩ : ∃ m, fuel = m + 1 := ⟨fuel - 1, by simp at hfuel; omega⟩
      rcases deleteFixupRound_spec h hm ht with ⟨s₁, ctx', u, hs₁, h₁, hm₁, hend⟩ |
        ⟨s₁, u, k, hs₁, h₁, hu, hk⟩
      · rw [hs₁, Option.bind_some]
        obtain ⟨s', T', hs', h', hT'⟩ : ∃ s' T', rbDeleteFixup (fuel + 1) s₁ u.root ctx'.top = some s' ∧
            Turns s₁ (plug ctx' u) s' T' ∧ T'.RedBlack := by
          rcases hend with rfl | hred
          · exact ih (by simp at hfuel; omega) h₁.shows hm₁
          · exact rbDeleteFixup_red h₁.shows hm₁ hred
        exact ⟨s', T', hs', h₁.trans h', hT'⟩
      · rw [hs₁, Option.bind_some]
        obtain ⟨s', T', hs', h', hT'⟩ := rbDeleteFixup_root h₁.shows hu.blacken hk
        exact ⟨s', T', hs', h₁.trans h', hT'⟩

omit [DecidableEq ι] in
/-- Nothing is to be repaired if the node that is missing was red. -/
theorem Missing.redBlack_of_red {t : Tree ι} (hm : Missing .red ctx t) : (plug ctx t).RedBlack := by
  have ht := hm.black rfl
  have hsub := hm.subtree
  rw [blacken_of_black ht] at hsub
  obtain ⟨n, k, hn, hk⟩ := hm.height
  refine ⟨?_, noRedRed_plug.mpr ⟨hsub, ht.symm ▸ hm.context⟩, k, blackHeight_plug.mpr ⟨n, hn, hk⟩⟩
  cases ctx with
  | nil => exact ht
  | cons f ctx => exact hm.root (by simp)

/-- `rb_remove_node` takes exactly the given node out of the tree. -/
theorem rbRemoveNode_spec {T : Tree ι} (h : Shows s T) (hT : T.RedBlack) (hz : z ∈ T.toList)
    (hfuel : T.toList.length < fuel) :
    ∃ s' T' A B, rbRemoveNode fuel s z = some s' ∧ Shows s' T' ∧ T'.RedBlack ∧
      T.toList = A ++ z :: B ∧ T'.toList = A ++ B ∧
      (s'.parent z = none ∧ ∀ d, s'.child d z = none) ∧ SameOff s.toLinks s'.toLinks T.toList := by
  obtain ⟨s₁, c, ctx, t, A, B, hs₁, h₁, hm, hlist, hlist₁, hoff₁⟩ := removeLinks_spec h hT hz hfuel
  have hz₁ : z ∉ (plug ctx t).toList := by
    have hnodup := h.nodup
    rw [hlist] at hnodup
    rw [hlist₁]
    exact (nodup_cons.mp (perm_middle.nodup_iff.mp hnodup)).1
  have hsubset : (plug ctx t).toList ⊆ T.toList := by
    rw [hlist, hlist₁]
    intro v hv
    simp only [mem_append, mem_cons] at hv ⊢
    tauto
  -- The pointers of `z` are cleared.
  generalize hs₂ : ((s₁.setChild .left z none).setChild .right z none).setParent z none = s₂
  have hoff₂ : ∀ v, v ≠ z → SameAt s₁.toLinks s₂.toLinks v := fun v hv => hs₂ ▸
    ((sameAt_setChild hv).trans (sameAt_setChild hv)).trans (sameAt_setParent hv)
  have h₂ : Shows s₂ (plug ctx t) := h₁.congr (by rw [← hs₂]; rfl) fun v hv =>
    hoff₂ v fun e => hz₁ (e ▸ hv)
  -- The fixup is needed for a black node only.
  obtain ⟨s₃, T₃, hs₃, h₃, hT₃⟩ : ∃ s₃ T₃, (if c = .black then rbDeleteFixup fuel s₂ t.root ctx.top
      else some s₂) = some s₃ ∧ Turns s₂ (plug ctx t) s₃ T₃ ∧ T₃.RedBlack := by
    cases c with
    | black =>
      have hlen : ctx.length < fuel := by
        have h1 := length_le ctx t
        rw [hlist₁, length_append] at h1
        rw [hlist, length_append, length_cons] at hfuel
        omega
      exact rbDeleteFixup_spec hlen h₂ hm
    | red => exact ⟨s₂, _, rfl, Turns.refl h₂, hm.redBlack_of_red⟩
  have h₃' : Shows s₃ (plug [] T₃) := h₃.shows
  have h₄ : Turns s₂ (plug ctx t) (s₃.setColorOf s₃.root .black) T₃ := by
    have hturns := h₃'.turns_blacken
    rw [blacken_of_black hT₃.color_root, ← h₃.shows.root] at hturns
    exact h₃.trans hturns
  have hsame_z := h₄.off z hz₁
  refine ⟨_, T₃, A, B, ?_, h₄.shows, hT₃, hlist, h₄.toList.trans hlist₁, ⟨?_, fun d => ?_⟩, ?_⟩
  · unfold rbRemoveNode
    rw [hs₁]
    dsimp only [Option.bind_eq_bind, Option.bind_some]
    rw [hs₂]
    split_ifs at hs₃ ⊢
    · rw [hs₃]
      rfl
    · rw [Option.some.inj hs₃]
      rfl
  · rw [hsame_z.1, ← hs₂]
    simp
  · rw [hsame_z.2.1, ← hs₂]
    cases d <;> simp [setChild]
  · refine (hoff₁.trans fun v hv => hoff₂ v fun e => hv (e ▸ hz)).trans (h₄.off.mono hsubset)

end FreeAsd.Sched
