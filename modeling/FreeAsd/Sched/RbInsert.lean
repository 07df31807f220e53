import FreeAsd.Sched.RbTree

/-!
# Insertion into a run-queue tree

Links that show a red-black tree are taken by `rb_insert` to links that show one with the new node
(`rbInsert_spec`). A rotation is local, in any context (`rbRotate_spec`). In the fixup loop only the red node
`z` may have a red parent (`rbInsertFixup_spec`).
-/

namespace FreeAsd.Sched

open LinkedTree List FreeAsd.Tree Context

variable {ι : Type*} [DecidableEq ι] {s : LinkedTree ι} {ctx : Context ι} {d : Side} {a b c t u : Tree ι}
  {x y : ι} {cx cy : Color}

/-! ## Rotations -/

/-- A rotation turns the links of a tree to those of the rotated tree. -/
theorem rbRotate_spec (h : Shows s (plug ctx (join d cx a x (join d cy b y c)))) :
    ∃ s', rbRotate d s x = some s' ∧
      Turns s (plug ctx (join d cx a x (join d cy b y c))) s'
        (plug ctx (join d cy (join d cx a x b) y c)) := by
  obtain ⟨ha, hh, hnodup⟩ := shows_plug.mp h
  obtain ⟨hxp, hxa, hxy, hxc, hA, hY⟩ := holds_join.mp hh
  obtain ⟨hyp, hyb, hyc, hyc', hB, hC⟩ := holds_join.mp hY
  rw [root_join] at ha hxy
  -- The two nodes, the three subtrees and the context are apart.
  have hnd := hnodup
  rw [nodup_append, nodup_join, nodup_join] at hnd
  simp only [mem_join] at hnd
  have hxy' : x ≠ y := by grind
  have hxctx : x ∉ ctx.items := by grind
  have hyctx : y ∉ ctx.items := by grind
  have ha_apart : ∀ v ∈ a.toList, (v ≠ x ∧ v ≠ y) ∧ v ∉ b.toList ∧ v ∉ ctx.items := by grind
  have hb_apart : ∀ v ∈ b.toList, (v ≠ x ∧ v ≠ y) ∧ v ∉ ctx.items := by grind
  have hc_apart : ∀ v ∈ c.toList, (v ≠ x ∧ v ≠ y) ∧ v ∉ b.toList ∧ v ∉ ctx.items := by grind
  have hctx_apart : ∀ v ∈ ctx.items, (v ≠ x ∧ v ≠ y) ∧ v ∉ b.toList := by grind
  have hxb : x ∉ b.toList := fun hv => (hb_apart x hv).1.1 rfl
  have htop : ∀ v, v ∉ ctx.items → ctx.top ≠ some v := fun v hv e => hv (top_mem_items e)
  have hroot : ∀ v, v ∉ b.toList → b.root ≠ some v := fun v hv e => hv (root_mem e)
  obtain ⟨s₁, hs₁⟩ : ∃ s₁, s₁ = (s.setChild d.other x b.root).setParentOf b.root (some x) := ⟨_, rfl⟩
  obtain ⟨s₂, hs₂⟩ : ∃ s₂, s₂ = (s₁.setParent y ctx.top).replaceChild d x (some y) := ⟨_, rfl⟩
  obtain ⟨s₃, hs₃⟩ : ∃ s₃, s₃ = (s₂.setChild d y (some x)).setParent x (some y) := ⟨_, rfl⟩
  have hx₁ : s₁.parent x = ctx.top := by
    rw [hs₁, parent_setParentOf_of_ne _ _ _ (hroot x hxb)]
    exact hxp
  have hx₁' : (s₁.setParent y ctx.top).parent x = ctx.top := (parent_setParent_of_ne _ _ hxy').trans hx₁
  have hs : rbRotate d s x = some s₃ := by
    unfold rbRotate
    rw [hxy]
    dsimp only [Option.bind_eq_bind, Option.bind_some]
    rw [hyb, ← hs₁, hx₁, ← hs₂, ← hs₃]
    rfl
  have hsame₁ : ∀ v, v ≠ x → v ∉ b.toList → SameAt s.toLinks s₁.toLinks v := fun v h1 h2 =>
    hs₁ ▸ (sameAt_setChild h1).trans (sameAt_setParentOf (hroot v h2))
  have hsame₂ : ∀ v, v ≠ y → v ∉ ctx.items → SameAt s₁.toLinks s₂.toLinks v := fun v h1 h2 =>
    hs₂ ▸ (sameAt_setParent h1).trans (sameAt_replaceChild (hx₁'.symm ▸ htop v h2))
  have hsame₃ : ∀ v, v ≠ x → v ≠ y → SameAt s₂.toLinks s₃.toLinks v := fun v h1 h2 =>
    hs₃ ▸ (sameAt_setChild h2).trans (sameAt_setParent h1)
  have hsame : ∀ v, v ≠ x → v ≠ y → v ∉ b.toList → v ∉ ctx.items → SameAt s.toLinks s₃.toLinks v :=
    fun v h1 h2 h3 h4 => ((hsame₁ v h1 h3).trans (hsame₂ v h2 h4)).trans (hsame₃ v h1 h2)
  -- The context now points to `y`.
  have hAround : Around s₃ ctx (some y) := by
    have h₁ : Around s₁ ctx (some x) := ha.congr (by rw [hs₁]; simp) fun v hv =>
      hsame₁ v (hctx_apart v hv).1.1 (hctx_apart v hv).2
    have h₁' : Around (s₁.setParent y ctx.top) ctx (some x) := h₁.congr rfl fun v hv =>
      sameAt_setParent (hctx_apart v hv).1.2
    have h₂ : Around s₂ ctx (some y) := hs₂ ▸ h₁'.replaceChild hx₁' (nodup_append.mp hnodup).2.1 d (some y) hxctx
    exact h₂.congr (by rw [hs₃]; simp) fun v hv =>
      hsame₃ v (hctx_apart v hv).1.1 (hctx_apart v hv).1.2
  -- The subtree in the middle has a new parent, the other two have the old one.
  have hB' : Holds s₃.toLinks (some x) b := by
    have h₁ : Holds s₁.toLinks (some x) b := by
      rw [hs₁]
      refine (hB.congr fun v hv => ?_).reparent (by grind) (some x)
      exact sameAt_setChild (hb_apart v hv).1.1
    refine h₁.congr fun v hv => ?_
    obtain ⟨⟨hvx, hvy⟩, hvctx⟩ := hb_apart v hv
    exact (hsame₂ v hvy hvctx).trans (hsame₃ v hvx hvy)
  have hA' : Holds s₃.toLinks (some x) a := hA.congr fun v hv => by
    obtain ⟨⟨hvx, hvy⟩, hvb, hvctx⟩ := ha_apart v hv
    exact hsame v hvx hvy hvb hvctx
  have hC' : Holds s₃.toLinks (some y) c := hC.congr fun v hv => by
    obtain ⟨⟨hvx, hvy⟩, hvb, hvctx⟩ := hc_apart v hv
    exact hsame v hvx hvy hvb hvctx
  have hcolor : s₃.color = s.color := by
    rw [hs₃, hs₂, hs₁]
    simp
  have hchild_y : s₃.child d.other y = c.root := by
    rw [hs₃, child_setParent, child_setChild_other, hs₂,
      child_replaceChild_of_ne _ _ _ _ (hx₁'.symm ▸ htop y hyctx), child_setParent, hs₁,
      child_setParentOf, child_setChild_of_ne _ _ _ (Ne.symm hxy'), hyc]
  have hchild_x : ∀ e, s₃.child e x = s₁.child e x := by
    intro e
    rw [hs₃, child_setParent, child_setChild_of_ne _ _ _ hxy', hs₂,
      child_replaceChild_of_ne _ _ _ _ (hx₁'.symm ▸ htop x hxctx), child_setParent]
  refine ⟨s₃, hs, shows_plug.mpr ⟨?_, holds_join.mpr ⟨?_, ?_, hchild_y, ?_, holds_join.mpr
    ⟨?_, ?_, ?_, ?_, hA', hB'⟩, hC'⟩, ?_⟩, toList_plug_congr toList_rotate,
    fun v hv => ?_⟩
  · rwa [root_join]
  · rw [hs₃, parent_setParent_of_ne _ _ (Ne.symm hxy'), parent_setChild, hs₂, parent_replaceChild,
      parent_setParent_self]
  · rw [hs₃, child_setParent, child_setChild_self, root_join]
  · rw [hcolor, hyc']
  · rw [hs₃, parent_setParent_self]
  · rw [hchild_x, hs₁, child_setParentOf, child_setChild_of_other, hxa]
  · rw [hchild_x, hs₁, child_setParentOf, child_setChild_self]
  · rw [hcolor, hxc]
  · rwa [toList_rotate]
  · rw [mem_plug, mem_join, mem_join] at hv
    simp only [not_or] at hv
    exact hsame v hv.1.1 hv.1.2.2.1 hv.1.2.2.2.1 hv.2

/-! ## The fixup of an insertion -/

variable {f g : Frame ι} {z p gp : ι} {G F : Tree ι} {cp cg : Color}

/-- The last rotation of the fixup: the parent goes up, black, in the place of the grandparent. -/
theorem rotate_grandparent
    (h : Shows s (plug ctx (join d cg (join d cp t p F) gp G))) :
    ∃ s', rbRotate d.other ((s.setColor p .black).setColor gp .red) gp = some s' ∧
      Turns s (plug ctx (join d cg (join d cp t p F) gp G)) s'
        (plug ctx (join d .black t p (join d .red F gp G))) := by
  have hp : Shows s (plug (⟨d, cg, gp, G⟩ :: ctx) (join d cp t p F)) := h
  have h₁ : Turns s (plug ctx (join d cg (join d cp t p F) gp G))
      (s.setColor p .black) (plug ctx (join d cg (join d .black t p F) gp G)) :=
    hp.turns_setColor .black
  have h₂ := h₁.trans (h₁.shows.turns_setColor .red)
  -- The rotation goes to the other side.
  have hmirror : join d .red (join d .black t p F) gp G =
      join d.other .red G gp (join d.other .black F p t) := by
    rw [join_other, join_other]
  rw [hmirror] at h₂
  obtain ⟨s', hs', h₃⟩ := rbRotate_spec h₂.shows
  have h₄ := h₂.trans h₃
  rw [join_other, join_other] at h₄
  exact ⟨s', hs', h₄⟩

/-- If the uncle is red, the parent and the uncle become black and the grandparent red. -/
theorem insertFixupRound_red (h : Shows s (plug (f :: g :: ctx) t)) (z : ι) (huncle : g.sibling.color = .red) :
    ∃ s', insertFixupRound g.side s z f.item g.item = some (s', g.item) ∧
      Turns s (plug (f :: g :: ctx) t) s' (plug ctx
        (join g.side .red (join f.side .black t f.item f.sibling) g.item
          g.sibling.blacken)) := by
  have hp : Shows s (plug (g :: ctx) (join f.side f.color t f.item f.sibling)) := h
  have hg : Shows s (plug ctx (join g.side g.color
    (join f.side f.color t f.item f.sibling) g.item g.sibling)) := h
  obtain ⟨-, -, hy, -⟩ := hg.node
  have hyc : s.colorOf g.sibling.root = .red := hp.colorOf_sibling.trans huncle
  refine ⟨_, by unfold insertFixupRound; rw [hy, if_pos hyc]; rfl, ?_⟩
  have h₁ : Turns s (plug (f :: g :: ctx) t) (s.setColor f.item .black)
      (plug (⟨f.side, .black, f.item, f.sibling⟩ :: g :: ctx) t) :=
    hp.turns_setColor .black
  -- The uncle, in a context with the grandparent at its top.
  have huncle_shows : Shows (s.setColor f.item .black) (plug (⟨g.side.other, g.color, g.item,
      join f.side .black t f.item f.sibling⟩ :: ctx) g.sibling) := by
    rw [plug_cons, join_other]
    exact h₁.shows
  have h₂ := huncle_shows.turns_blacken
  rw [plug_cons, plug_cons, join_other, join_other] at h₂
  exact (h₁.trans h₂).trans (h₂.shows.turns_setColor .red)

/-- The fixup after its first rotation, if there was one: the parent and the grandparent are on the same
side. What is left of the round makes a subtree with a black root, and the loop ends there. -/
theorem insertFixupRound_outer {n : ℕ} (h : Shows s (plug ctx (join d .black (join d .red t p F) gp G)))
    (hz : t.root = some z) (ht : t.NoRedRed) (hF : F.NoRedRed) (hG : G.NoRedRed)
    (hFc : F.color = .black) (hGc : G.color = .black) (htn : t.BlackHeight n) (hFn : F.BlackHeight n)
    (hGn : G.BlackHeight n) :
    ∃ s' u, (s.parent z >>= fun p => rbRotate d.other ((s.setColor p .black).setColor gp .red) gp) =
        some s' ∧
      Turns s (plug ctx (join d .black (join d .red t p F) gp G)) s'
        (plug ctx u) ∧
      u.color = .black ∧ u.NoRedRed ∧ u.BlackHeight (n + 1) ∧
      s'.parent z = some p ∧ s'.color p = .black := by
  have hzp : Shows s (plug (⟨d, .red, p, F⟩ :: ⟨d, .black, gp, G⟩ :: ctx) t) := h
  obtain ⟨s', hs', hturns⟩ := rotate_grandparent h
  have hzp' : Shows s' (plug (⟨d, .black, p, join d .red F gp G⟩ :: ctx) t) := hturns.shows
  refine ⟨s', _, ?_, hturns, color_join, ?_, ?_, hzp'.parent hz, hturns.shows.node.2.2.2⟩
  · rw [hzp.parent hz]
    exact hs'
  · rw [noRedRed_join, noRedRed_join]
    exact ⟨nofun, ht, fun _ => ⟨hFc, hGc⟩, hF, hG⟩
  · rw [blackHeight_join]
    exact ⟨n, htn, blackHeight_join.mpr ⟨n, hFn, hGn, rfl⟩, rfl⟩

/-- If the uncle is black, one or two rotations end the fixup. -/
theorem insertFixupRound_black {n : ℕ} (h : Shows s (plug (f :: g :: ctx) t))
    (hz : t.root = some z) (hred : t.color = .red) (ht : t.NoRedRed)
    (hctx : Context.NoRedRed (f :: g :: ctx) .black) (hf : f.color = .red)
    (huncle : g.sibling.color = .black) (hn : (g.fill (f.fill t)).BlackHeight n) :
    ∃ s' z' p' u, insertFixupRound g.side s z f.item g.item = some (s', z') ∧
      Turns s (plug (f :: g :: ctx) t) s' (plug ctx u) ∧
      u.color = .black ∧ u.NoRedRed ∧ u.BlackHeight n ∧
      s'.parent z' = some p' ∧ s'.color p' = .black := by
  obtain ⟨fd, fc, p, F⟩ := f
  obtain ⟨d, gc, gp, G⟩ := g
  obtain ⟨hFc, hF, hgc, hG, -⟩ := hctx
  obtain rfl : fc = .red := hf
  obtain rfl : gc = .black := by
    rw [← Color.ne_red]
    exact fun e => nomatch (hgc e).1
  have hFc := (hFc rfl).2
  have hp : Shows s (plug (⟨d, .black, gp, G⟩ :: ctx) (join fd .red t p F)) := h
  have hg : Shows s (plug ctx (join d .black (join fd .red t p F) gp G)) := h
  obtain ⟨-, -, hy, -⟩ := hg.node
  obtain ⟨-, hpt, hpF, -⟩ := hp.node
  have hyc : ¬s.colorOf (s.child d.other gp) = .red := by
    rw [hy, hp.colorOf_sibling]
    exact Color.ne_red.mpr huncle
  obtain ⟨m, hpm, hGm, rfl⟩ := blackHeight_join.mp hn
  obtain ⟨m', htm, hFm, hm⟩ := blackHeight_join.mp hpm
  obtain rfl : m = m' := hm
  unfold insertFixupRound
  rw [if_neg hyc]
  by_cases hside : fd = d
  · -- `z` is on the outer side.
    subst hside
    rw [if_neg fun e => h.sibling_ne hz (hpF.symm.trans e)]
    obtain ⟨s', u, hs', hturns, hu⟩ := insertFixupRound_outer h hz ht hF hG hFc huncle htm hFm hGm
    refine ⟨s', z, p, u, ?_, hturns, hu⟩
    obtain ⟨p', hp', hs'⟩ := Option.bind_eq_some_iff.mp hs'
    dsimp only [Option.bind_eq_bind, Option.bind_some]
    rw [hp', Option.bind_some, hs']
    rfl
  · -- `z` is on the inner side, and takes the place of its parent first.
    obtain rfl := Side.eq_other_of_ne hside
    obtain ⟨c, b, e, rfl⟩ := exists_join d hz
    obtain rfl : c = .red := by rwa [color_join] at hred
    rw [root_join] at hpt
    have hp' := hp
    rw [join_other] at hp'
    obtain ⟨s₁, hs₁, hturns₁⟩ := rbRotate_spec hp'
    rw [if_pos hpt, hs₁]
    obtain ⟨hbe, hb, he⟩ := noRedRed_join.mp ht
    obtain ⟨hbc, hec⟩ := hbe rfl
    obtain ⟨k, hbk, hek, hk⟩ := blackHeight_join.mp htm
    obtain rfl : m = k := hk
    have ht' : (join d .red F p b).NoRedRed := noRedRed_join.mpr ⟨fun _ => ⟨hFc, hbc⟩, hF, hb⟩
    have htm' : (join d .red F p b).BlackHeight m := blackHeight_join.mpr ⟨m, hFm, hbk, rfl⟩
    obtain ⟨s', u, hs', hturns, hu⟩ :=
      insertFixupRound_outer hturns₁.shows root_join ht' he hG hec huncle htm' hek hGm
    have hturns₀ := hturns₁.trans hturns
    rw [← join_other] at hturns₀
    refine ⟨s', p, z, u, ?_, hturns₀, hu⟩
    obtain ⟨p', hp', hs'⟩ := Option.bind_eq_some_iff.mp hs'
    dsimp only [Option.bind_eq_bind, Option.bind_some, Option.map_some]
    rw [hp', Option.bind_some, hs']
    rfl

/-! ## The loop -/

theorem blackenRoot_spec {T : Tree ι} {n : ℕ} (h : Shows s T) (hroot : T.root ≠ none)
    (hnrr : T.NoRedRed) (hn : T.BlackHeight n) :
    ∃ s' T', blackenRoot s = some s' ∧ Turns s T s' T' ∧ T'.RedBlack := by
  obtain ⟨r, hr⟩ := Option.ne_none_iff_exists'.mp hroot
  have hT : Shows s (plug [] T) := h
  refine ⟨s.setColor r .black, T.blacken, ?_, ?_, redBlack_blacken hnrr hn⟩
  · unfold blackenRoot
    rw [h.root, hr]
    rfl
  · have := hT.turns_blacken
    rwa [hr] at this

theorem rbInsertFixup_of_black {fuel : ℕ} (hp : s.parent z = some p) (hc : s.color p = .black) :
    rbInsertFixup (fuel + 1) s z = blackenRoot s := by
  unfold rbInsertFixup
  rw [hp]
  dsimp only
  rw [hc, if_neg (by decide)]

omit [DecidableEq ι] in
/-- The subtree that is left by a round with a red uncle. -/
theorem redUncle_ok {n : ℕ} (ht : t.NoRedRed) (hf : f.sibling.NoRedRed) (hg : g.sibling.NoRedRed)
    (hfc : f.color = .red) (hgc : g.color = .black) (huncle : g.sibling.color = .red)
    (hn : (g.fill (f.fill t)).BlackHeight n) :
    (join g.side .red (join f.side .black t f.item f.sibling) g.item
        g.sibling.blacken).NoRedRed ∧
      (join g.side .red (join f.side .black t f.item f.sibling) g.item
        g.sibling.blacken).BlackHeight n := by
  obtain ⟨m, hpm, hGm, hnm⟩ := blackHeight_join.mp hn
  obtain ⟨m', htm, hFm, hm⟩ := blackHeight_join.mp hpm
  obtain rfl : m = m' := by rw [hm, hfc, Color.weight_red, add_zero]
  obtain rfl : n = m + 1 := by rw [hnm, hgc, Color.weight_black]
  constructor
  · rw [noRedRed_join, noRedRed_join]
    exact ⟨fun _ => ⟨color_join, color_blacken⟩, ⟨nofun, ht, hf⟩, hg.blacken⟩
  · rw [blackHeight_join]
    exact ⟨m + 1, blackHeight_join.mpr ⟨m, htm, hFm, rfl⟩, hGm.blacken_of_red huncle, rfl⟩

/-- `rb_insert_fixup` makes a red-black tree of one that has a red node `z` too much, maybe below a red
parent. -/
theorem rbInsertFixup_spec {fuel k : ℕ} (hfuel : ctx.length < fuel) (h : Shows s (plug ctx t))
    (hz : t.root = some z) (hred : t.color = .red) (ht : t.NoRedRed)
    (hctx : Context.NoRedRed ctx .black) (hk : (plug ctx t).BlackHeight k)
    (hroot : ctx ≠ [] → (plug ctx t).color = .black) :
    ∃ s' T', rbInsertFixup fuel s z = some s' ∧ Turns s (plug ctx t) s' T' ∧ T'.RedBlack := by
  induction fuel generalizing s ctx t z with
  | zero => exact absurd hfuel (Nat.not_lt_zero _)
  | succ fuel ih =>
    cases ctx with
    | nil =>
      unfold rbInsertFixup
      rw [h.parent hz]
      exact blackenRoot_spec h (by simp [hz]) ht hk
    | cons f ctx =>
      have hpz := h.parent hz
      have hp : Shows s (plug ctx (join f.side f.color t f.item f.sibling)) := h
      have hcolor := hp.node.2.2.2
      by_cases hfc : f.color = .black
      · -- The parent is black.
        rw [rbInsertFixup_of_black hpz (hcolor.trans hfc)]
        refine blackenRoot_spec h (root_plug_ne_none (by simp [hz])) ?_ hk
        refine noRedRed_plug.mpr ⟨ht, ?_, hctx.2⟩
        exact fun e => absurd (hfc.symm.trans e) (by decide)
      have hfc := Color.ne_black.mp hfc
      cases ctx with
      | nil =>
        -- A red root is not possible.
        have hblack := hroot (by simp)
        rw [plug_cons, plug_nil, color_join, hfc] at hblack
        cases hblack
      | cons g ctx =>
        have hside : (if s.child .left g.item = some f.item then Side.left else Side.right) = g.side :=
          (if_congr (root_join ▸ eq_comm) rfl rfl).trans
            (Shows.side hp (root_join ▸ (hp.sibling_ne root_join).symm))
        have hstep : rbInsertFixup (fuel + 1) s z =
            (insertFixupRound g.side s z f.item g.item).bind fun r => rbInsertFixup fuel r.1 r.2 := by
          have hgp : s.parent f.item = some g.item := hp.node.1
          have hpz : s.parent z = some f.item := hpz
          rw [rbInsertFixup, hpz]
          dsimp only
          rw [hcolor.trans hfc, if_pos rfl, hgp]
          dsimp only
          rw [hside]
          rfl
        have hk' : (plug ctx (g.fill (f.fill t))).BlackHeight k := hk
        obtain ⟨n, hn, hnk⟩ := blackHeight_plug.mp hk'
        obtain ⟨-, hF, hgc, hG, hctx'⟩ := id hctx
        have hgc : g.color = .black := by
          rw [← Color.ne_red]
          exact fun e => absurd (hfc.symm.trans (hgc e).1) (by decide)
        rw [hgc] at hctx'
        rw [hstep]
        by_cases huncle : g.sibling.color = .red
        · -- The grandparent becomes red, and the loop goes on there.
          obtain ⟨s', hs', hturns⟩ := insertFixupRound_red h z huncle
          obtain ⟨hu, hun⟩ := redUncle_ok ht hF hG hfc hgc huncle hn
          rw [hs', Option.bind_some]
          obtain ⟨s'', T', hs'', hturns', hT'⟩ := ih (by simp at hfuel; omega) hturns.shows
            root_join color_join hu hctx' (blackHeight_plug.mpr ⟨n, hun, hnk⟩)
            fun hne => (color_plug hne).trans (hroot (by simp))
          exact ⟨s'', T', hs'', hturns.trans hturns', hT'⟩
        · obtain ⟨s', z', p', u, hs', hturns, huc, hu, hun, hz', hp'⟩ :=
            insertFixupRound_black h hz hred ht hctx hfc (Color.ne_red.mp huncle) hn
          rw [hs', Option.bind_some]
          obtain ⟨fuel, rfl⟩ : ∃ m, fuel = m + 1 := ⟨fuel - 1, by simp at hfuel; omega⟩
          rw [rbInsertFixup_of_black hz' hp']
          have hnone : u.root ≠ none := by
            intro e
            obtain rfl := eq_leaf_of_root e
            obtain ⟨m, -, -, hm⟩ := blackHeight_join.mp hn
            rw [hgc, Color.weight_black, blackHeight_leaf.mp hun] at hm
            exact absurd hm (Nat.succ_ne_zero m).symm
          have hnrr : (plug ctx u).NoRedRed := noRedRed_plug.mpr ⟨hu, huc.symm ▸ hctx'⟩
          obtain ⟨s'', T', hs'', hturns', hT'⟩ := blackenRoot_spec hturns.shows
            (root_plug_ne_none hnone) hnrr (blackHeight_plug.mpr ⟨n, hun, hnk⟩)
          exact ⟨s'', T', hs'', hturns.trans hturns', hT'⟩

/-! ## The place of a new node -/

variable {priority : ι → ℤ} {key : ℤ}

/-- The nodes are in the order of their priorities. -/
def Sorted (priority : ι → ℤ) (l : List ι) : Prop := l.Pairwise fun a b => priority a ≤ priority b

/-- The side of a node on which `rb_insert` goes on. -/
def keySide (priority : ι → ℤ) (key : ℤ) (x : ι) : Side := if key < priority x then .left else .right

omit [DecidableEq ι] in
/-- The loop of `rb_insert` comes to the end of the nodes with priorities up to `key`. -/
theorem insertParent_spec {fuel : ℕ} (hfuel : t.toList.length < fuel)
    (h : Shows s (plug ctx t)) (hsorted : Sorted priority t.toList)
    (hbefore : ∀ v ∈ before ctx, priority v ≤ key)
    (hafter : ∀ v ∈ after ctx, key < priority v)
    (hside : ∀ f ∈ ctx.head?, f.side = keySide priority key f.item) :
    ∃ ctx', insertParent priority key fuel s t.root ctx.top = some (top ctx') ∧
      plug ctx' .leaf = plug ctx t ∧
      (∀ v ∈ before ctx', priority v ≤ key) ∧
      (∀ v ∈ after ctx', key < priority v) ∧
      ∀ f ∈ ctx'.head?, f.side = keySide priority key f.item := by
  induction fuel generalizing ctx t with
  | zero => exact absurd hfuel (Nat.not_lt_zero _)
  | succ fuel ih =>
    cases t with
    | leaf => exact ⟨ctx, rfl, rfl, hbefore, hafter, hside⟩
    | node c l x r =>
      have hx : Shows s (plug ctx (join .left c l x r)) := h
      obtain ⟨-, hl, hr, -⟩ := hx.node
      obtain ⟨hsl, hsr, hlr⟩ := pairwise_append.mp hsorted
      obtain ⟨hxr, hsr⟩ := pairwise_cons.mp hsr
      have hlen : l.toList.length < fuel ∧ r.toList.length < fuel := by
        rw [toList, length_append, length_cons] at hfuel
        omega
      have hstep : insertParent priority key (fuel + 1) s (some x) ctx.top =
        insertParent priority key fuel s (s.child (keySide priority key x) x) (some x) := rfl
      by_cases hkey : key < priority x
      · have hd : keySide priority key x = .left := if_pos hkey
        have hafter' : ∀ v ∈ after (⟨.left, c, x, r⟩ :: ctx), key < priority v := by
          intro v hv
          rcases mem_append.mp hv with hv | hv
          · rcases mem_cons.mp hv with rfl | hv
            · exact hkey
            · exact Int.lt_of_lt_of_le hkey (hxr v hv)
          · exact hafter v hv
        have hl' : Shows s (plug (⟨.left, c, x, r⟩ :: ctx) l) := h
        obtain ⟨ctx', h1, h2⟩ := ih hlen.1 hl' hsl hbefore hafter'
          fun f hf => by rw [← Option.some.inj hf, hd]
        refine ⟨ctx', ?_, h2⟩
        rw [Tree.root, hstep, hd, hl]
        exact h1
      · have hd : keySide priority key x = .right := if_neg hkey
        have hbefore' : ∀ v ∈ before (⟨.right, c, x, l⟩ :: ctx), priority v ≤ key := by
          intro v hv
          rcases mem_append.mp hv with hv | hv
          · exact hbefore v hv
          · rcases mem_append.mp hv with hv | hv
            · exact Int.le_trans (hlr v hv x mem_cons_self) (Int.not_lt.mp hkey)
            · rw [mem_singleton.mp hv]
              exact Int.not_lt.mp hkey
        have hr' : Shows s (plug (⟨.right, c, x, l⟩ :: ctx) r) := h
        obtain ⟨ctx', h1, h2⟩ := ih hlen.2 hr' hsr hbefore' hafter
          fun f hf => by rw [← Option.some.inj hf, hd]
        refine ⟨ctx', ?_, h2⟩
        rw [Tree.root, hstep, hd]
        exact (congrArg (fun q => insertParent priority key fuel s q (some x)) hr).trans h1

/-- The links of a new node, below the place that was found. -/
theorem shows_insertLeaf (h : Shows s (plug ctx .leaf)) (hz : z ∉ ctx.items)
    (hzp : s.parent z = ctx.top) (hzc : ∀ d, s.child d z = none) (hred : s.color z = .red)
    (hside : ∀ f ∈ ctx.head?, f.side = keySide priority key f.item) :
    ∃ s', (match ctx.top with
        | none => { s with root := some z }
        | some p => s.setChild (keySide priority key p) p (some z)) = s' ∧
      Shows s' (plug ctx (join .left .red .leaf z .leaf)) ∧
      SameOff s.toLinks s'.toLinks ctx.items := by
  obtain ⟨ha, -, hnodup⟩ := shows_plug.mp h
  have hnodup' : ((join .left .red .leaf z .leaf).toList ++ ctx.items).Nodup := nodup_cons.mpr ⟨hz, hnodup⟩
  cases ctx with
  | nil =>
    refine ⟨_, rfl, shows_plug.mpr ⟨rfl, holds_join.mpr ⟨hzp, hzc _, hzc _, hred, ?_, ?_⟩, hnodup'⟩,
      SameOff.refl _ _⟩
    · exact holds_leaf
    · exact holds_leaf
  | cons f ctx =>
    have hzf : z ≠ f.item := fun e => hz (e ▸ mem_cons_self)
    dsimp only [top_cons]
    rw [← hside f rfl]
    refine ⟨_, rfl, shows_plug.mpr ⟨ha.setChild hnodup,
      holds_join.mpr ⟨hzp, ?_, ?_, hred, holds_leaf, holds_leaf⟩, hnodup'⟩, fun v hv => ?_⟩
    · exact (child_setChild_of_ne _ _ _ hzf _).trans (hzc _)
    · exact (child_setChild_of_ne _ _ _ hzf _).trans (hzc _)
    · exact sameAt_setChild fun e => hv (e ▸ mem_cons_self)

/-- `rb_insert` puts a node behind those with a priority up to its own. -/
theorem rbInsert_spec {T : Tree ι} {fuel : ℕ} (h : Shows s T) (hT : T.RedBlack) (hz : z ∉ T.toList)
    (hsorted : Sorted priority T.toList) (hfuel : T.toList.length < fuel) (key : ℤ) :
    ∃ s' T' A B, rbInsert fuel priority s z key = some s' ∧ Shows s' T' ∧ T'.RedBlack ∧
      T.toList = A ++ B ∧ T'.toList = A ++ z :: B ∧ (∀ v ∈ A, priority v ≤ key) ∧
      (∀ v ∈ B, key < priority v) ∧ SameOff s.toLinks s'.toLinks (z :: T.toList) := by
  obtain ⟨s₀, hs₀⟩ : ∃ s₀, s₀ = (((s.setChild .left z none).setChild .right z none).setParent z
    none).setColor z .red := ⟨_, rfl⟩
  have hoff₀ : ∀ v, v ≠ z → SameAt s.toLinks s₀.toLinks v := fun v hv => hs₀ ▸
    ((((sameAt_setChild hv).trans (sameAt_setChild hv)).trans (sameAt_setParent hv)).trans
      (sameAt_setColor hv))
  have h₀ : Shows s₀ (plug [] T) := h.congr (by rw [hs₀]; rfl) fun v hv =>
    hoff₀ v fun e => hz (e ▸ hv)
  have hnil : ∀ v ∈ before ([] : Context ι), priority v ≤ key := nofun
  obtain ⟨ctx, hparent, hplug, hbefore, hafter, hside⟩ := insertParent_spec hfuel h₀ hsorted hnil nofun nofun
  rw [plug_nil] at hplug
  have hzctx : z ∉ ctx.items := fun hv => hz (hplug ▸ mem_plug.mpr (.inr hv))
  -- The fields of the new node are written once more, now with its parent.
  obtain ⟨s₁, hs₁⟩ : ∃ s₁, s₁ = (((s₀.setParent z ctx.top).setChild .left z none).setChild .right z
    none).setColor z .red := ⟨_, rfl⟩
  have hoff₁ : ∀ v, v ≠ z → SameAt s₀.toLinks s₁.toLinks v := fun v hv => hs₁ ▸
    ((((sameAt_setParent hv).trans (sameAt_setChild hv)).trans (sameAt_setChild hv)).trans
      (sameAt_setColor hv))
  have h₁ : Shows s₁ (plug ctx .leaf) := hplug ▸ h₀.congr (by rw [hs₁]; rfl) fun v hv =>
    hoff₁ v fun e => hz (e ▸ hv)
  obtain ⟨s₂, hs₂, h₂, hoff₂⟩ := shows_insertLeaf h₁ hzctx (by rw [hs₁]; simp)
    (by intro d; rw [hs₁]; cases d <;> simp [setChild]) (by rw [hs₁]; simp) hside
  -- The new node is red, so that only a red parent has to be repaired.
  obtain ⟨hnrr, hctx⟩ := noRedRed_plug.mp (hplug ▸ hT.noRedRed)
  obtain ⟨k, hk⟩ := hT.blackHeight
  obtain ⟨n, hn, hnk⟩ := blackHeight_plug.mp (hplug ▸ hk)
  obtain rfl := blackHeight_leaf.mp hn
  have hk₂ : (plug ctx (join .left .red .leaf z .leaf)).BlackHeight k :=
    blackHeight_plug.mpr ⟨0, blackHeight_join.mpr ⟨0, rfl, rfl, rfl⟩, hnk⟩
  have hlen : ctx.length < fuel := by
    have := length_le ctx .leaf
    rw [hplug] at this
    omega
  obtain ⟨s', T', hs', hturns, hT'⟩ := rbInsertFixup_spec hlen h₂ root_join color_join
    (noRedRed_join.mpr ⟨fun _ => ⟨rfl, rfl⟩, trivial, trivial⟩) hctx hk₂
    fun hne => (color_plug hne).trans (hplug ▸ hT.color_root)
  have hlist : T.toList = before ctx ++ after ctx := by
    rw [← hplug, toList_plug, toList_leaf, append_nil]
  refine ⟨s', T', before ctx, after ctx, ?_, hturns.shows, hT', hlist, ?_, hbefore, hafter, fun v hv => ?_⟩
  · unfold rbInsert
    dsimp only
    have hroot₀ : s₀.root = T.root := h₀.root
    rw [← hs₀, hroot₀]
    refine Option.bind_eq_some_iff.mpr ⟨_, hparent, ?_⟩
    rw [← hs₁]
    exact (congrArg (rbInsertFixup fuel · z) hs₂).trans hs'
  · rw [hturns.toList, toList_plug]
    simp [join, toList]
  · obtain ⟨hvz, hvT⟩ := ne_and_not_mem_of_not_mem_cons hv
    have hvctx : v ∉ ctx.items := fun hv => hvT (hplug ▸ mem_plug.mpr (.inr hv))
    refine (((hoff₀ v hvz).trans (hoff₁ v hvz)).trans (hoff₂ v hvctx)).trans (hturns.off v ?_)
    rw [mem_plug, mem_join]
    simp [hvz, hvctx]

end FreeAsd.Sched
