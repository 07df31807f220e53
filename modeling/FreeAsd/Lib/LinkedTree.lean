import Mathlib.Data.List.Nodup
import FreeAsd.Lib.ColorTree

/-!
# Trees of linked nodes

A tree in memory: `Links` has the fields of each node, and `LinkedTree.Shows` says that the nodes reachable
from the root form a given tree. For each kind of write there is a lemma that says when it leaves a subtree
or a context as it is, and one for the write that changes the shape.
-/

namespace FreeAsd

open Function List FreeAsd.Tree Context

/-- The fields of the nodes of trees. -/
structure Links (ι : Type*) where
  parent : ι → Option ι
  child : Side → ι → Option ι
  color : ι → Color

/-- The nodes, and the pointer to the root of one tree. -/
structure LinkedTree (ι : Type*) extends Links ι where
  root : Option ι

variable {ι : Type*}

namespace LinkedTree

/-- The colour of a node. No node counts as black. -/
def colorOf (s : LinkedTree ι) (q : Option ι) : Color :=
  match q with
  | none => .black
  | some x => s.color x

/-- Two states have the same fields at a node. -/
def SameAt (s s' : Links ι) (v : ι) : Prop :=
  s'.parent v = s.parent v ∧ (∀ e, s'.child e v = s.child e v) ∧ s'.color v = s.color v

/-- One change after another. -/
theorem SameAt.trans {s s' s'' : Links ι} {v : ι} (h : SameAt s s' v) (h' : SameAt s' s'' v) : SameAt s s'' v :=
  ⟨h'.1.trans h.1, fun e => (h'.2.1 e).trans (h.2.1 e), h'.2.2.trans h.2.2⟩

/-- Two states have the same fields at all nodes but those of a list. -/
def SameOff (s s' : Links ι) (l : List ι) : Prop := ∀ v, v ∉ l → SameAt s s' v

/-- Nothing has changed. -/
theorem SameOff.refl (s : Links ι) (l : List ι) : SameOff s s l :=
  fun _ _ => ⟨rfl, fun _ => rfl, rfl⟩

/-- One change after another. -/
theorem SameOff.trans {s s' s'' : Links ι} {l : List ι} (h : SameOff s s' l) (h' : SameOff s' s'' l) :
    SameOff s s'' l :=
  fun v hv => (h v hv).trans (h' v hv)

/-- More nodes may change. -/
theorem SameOff.mono {s s' : Links ι} {l l' : List ι} (h : SameOff s s' l) (hl : l ⊆ l') : SameOff s s' l' :=
  fun v hv => h v fun hm => hv (hl hm)

/-! ## Subtrees and contexts -/

/-- The nodes of `t` are linked as in `t`, below a node or pointer `p`. -/
def Holds (s : Links ι) : Option ι → Tree ι → Prop
  | _, .leaf => True
  | p, .node c l x r =>
    s.parent x = p ∧ s.child .left x = l.root ∧ s.child .right x = r.root ∧ s.color x = c ∧
      Holds s (some x) l ∧ Holds s (some x) r

/-- The nodes of a context are linked as in it, with a pointer to `q` in the place of the subtree. -/
def Around (s : LinkedTree ι) : Context ι → Option ι → Prop
  | [], q => s.root = q
  | f :: ctx, q =>
    s.parent f.item = Context.top ctx ∧ s.child f.side f.item = q ∧
      s.child f.side.other f.item = f.sibling.root ∧ s.color f.item = f.color ∧
      Holds s.toLinks (some f.item) f.sibling ∧ Around s ctx (some f.item)

/-- The tree that the links from the root form. -/
structure Shows (s : LinkedTree ι) (t : Tree ι) : Prop where
  root : s.root = t.root
  holds : Holds s.toLinks none t
  nodup : t.toList.Nodup

variable {s s' : LinkedTree ι} {p q : Option ι} {t u : Tree ι} {ctx : Context ι} {d : Side} {c : Color}
  {x y v : ι}

/-- A leaf has no links. -/
@[simp]
theorem holds_leaf {s : Links ι} : Holds s p .leaf := trivial

/-- The links of a node and of its subtrees. -/
theorem holds_join {s : Links ι} : Holds s p (join d c t x u) ↔
    s.parent x = p ∧ s.child d x = t.root ∧ s.child d.other x = u.root ∧ s.color x = c ∧
      Holds s (some x) t ∧ Holds s (some x) u := by
  cases d
  · exact Iff.rfl
  · rw [join, Holds, Side.other]
    tauto

/-- A subtree is the same if its nodes are. -/
theorem Holds.congr {s s' : Links ι} (h : Holds s p t) (hs : ∀ v ∈ t.toList, SameAt s s' v) : Holds s' p t := by
  induction t generalizing p with
  | leaf => trivial
  | node c l x r ihl ihr =>
    obtain ⟨h1, h2, h3, h4, h5, h6⟩ := h
    have hx : SameAt s s' x := hs x (by simp [toList])
    refine ⟨hx.1.trans h1, (hx.2.1 _).trans h2, (hx.2.1 _).trans h3, hx.2.2.trans h4,
      ihl h5 fun v hv => hs v ?_, ihr h6 fun v hv => hs v ?_⟩
    · exact mem_append_left _ hv
    · exact mem_append_right _ (mem_cons_of_mem _ hv)

/-- A context is the same if its nodes are. -/
theorem Around.congr (h : Around s ctx q) (hroot : s'.root = s.root)
    (hs : ∀ v ∈ items ctx, SameAt s.toLinks s'.toLinks v) : Around s' ctx q := by
  induction ctx generalizing q with
  | nil => exact hroot.trans h
  | cons f ctx ih =>
    obtain ⟨h1, h2, h3, h4, h5, h6⟩ := h
    have hx := hs f.item mem_cons_self
    refine ⟨hx.1.trans h1, (hx.2.1 _).trans h2, (hx.2.1 _).trans h3, hx.2.2.trans h4,
      h5.congr fun v hv => hs v ?_, ih h6 fun v hv => hs v ?_⟩
    · exact mem_cons_of_mem _ (mem_append_left _ hv)
    · exact mem_cons_of_mem _ (mem_append_right _ hv)

/-- A tree is a subtree in its context. -/
theorem shows_plug : Shows s (plug ctx t) ↔
    Around s ctx t.root ∧ Holds s.toLinks (top ctx) t ∧
      (t.toList ++ items ctx).Nodup := by
  have key : s.root = (plug ctx t).root ∧ Holds s.toLinks none (plug ctx t) ↔
      Around s ctx t.root ∧ Holds s.toLinks (top ctx) t := by
    induction ctx generalizing t with
    | nil => exact Iff.rfl
    | cons f ctx ih =>
      rw [plug_cons, ih, holds_join, root_join, Around, top_cons]
      tauto
  rw [← nodup_plug, ← and_assoc, ← key, and_assoc]
  exact ⟨fun h => ⟨h.root, h.holds, h.nodup⟩, fun ⟨h1, h2, h3⟩ => ⟨h1, h2, h3⟩⟩

/-- The fields of a node of the tree. -/
theorem Shows.node (h : Shows s (plug ctx (join d c t x u))) :
    s.parent x = ctx.top ∧ s.child d x = t.root ∧ s.child d.other x = u.root ∧ s.color x = c := by
  obtain ⟨h1, h2, h3, h4, -⟩ := holds_join.mp (shows_plug.mp h).2.1
  exact ⟨h1, h2, h3, h4⟩

/-- The parent of the root of a subtree is at the top of its context. -/
theorem Shows.parent (h : Shows s (plug ctx t)) (hx : t.root = some x) : s.parent x = ctx.top := by
  obtain ⟨c, a, b, rfl⟩ := exists_join .left hx
  exact h.node.1

/-- A node of the tree has a parent, or it is the root. -/
theorem Shows.parent_or_root (h : Shows s t) (hx : x ∈ t.toList) : s.parent x ≠ none ∨ s.root = some x := by
  obtain ⟨ctx, c, a, b, rfl⟩ := exists_plug hx
  cases ctx with
  | nil => exact .inr h.root
  | cons f ctx =>
    refine .inl ?_
    rw [h.parent rfl]
    nofun

/-- A node is not its own sibling. -/
theorem Shows.sibling_ne {f : Frame ι} (h : Shows s (plug (f :: ctx) t))
    (hx : t.root = some x) : f.sibling.root ≠ some x := by
  intro e
  refine (nodup_append.mp (shows_plug.mp h).2.2).2.2 x (root_mem hx) x ?_ rfl
  exact mem_cons_of_mem _ (mem_append_left _ (root_mem e))

/-- A subtree below the root does not have the same root. -/
theorem Shows.root_ne (h : Shows s (plug ctx t)) (hctx : ctx ≠ []) : t.root ≠ s.root := by
  obtain ⟨x, hx, hroot⟩ := root_plug_mem_items (t := t) hctx
  rw [h.root, hroot]
  intro e
  exact (nodup_append.mp (shows_plug.mp h).2.2).2.2 x (root_mem e) x hx rfl

/-- The colour of the root of a subtree. -/
theorem Holds.colorOf (h : Holds s.toLinks p t) : s.colorOf t.root = t.color := by
  cases t with
  | leaf => rfl
  | node c l x r => exact h.2.2.2.1

/-- The same in a context. -/
theorem Shows.colorOf (h : Shows s (plug ctx t)) : s.colorOf t.root = t.color := (shows_plug.mp h).2.1.colorOf

/-- The colour of the sibling. -/
theorem Shows.colorOf_sibling {f : Frame ι} (h : Shows s (plug (f :: ctx) t)) :
    s.colorOf f.sibling.root = f.sibling.color :=
  Holds.colorOf (shows_plug.mp h).1.2.2.2.2.1

/-- The tree is the same if its nodes have the same fields. -/
theorem Shows.congr (h : Shows s t) (hroot : s'.root = s.root)
    (hs : ∀ v ∈ t.toList, SameAt s.toLinks s'.toLinks v) : Shows s' t :=
  ⟨hroot.trans h.root, h.holds.congr hs, h.nodup⟩

/-- Links show at most one tree. -/
theorem Shows.unique (h : Shows s t) (h' : Shows s u) : t = u := by
  have key : ∀ (t u : Tree ι) (p : Option ι), t.root = u.root → Holds s.toLinks p t →
      Holds s.toLinks p u → t = u := by
    intro t
    induction t with
    | leaf => exact fun u p e _ _ => (eq_leaf_of_root e.symm).symm
    | node c l x r ihl ihr =>
      intro u p e ht hu
      obtain ⟨c', l', r', rfl⟩ := exists_join .left e.symm
      obtain ⟨-, hl, hr, hc, htl, htr⟩ := ht
      obtain ⟨-, hl', hr', hc', hul, hur⟩ := hu
      rw [ihl l' _ (hl.symm.trans hl') htl hul, ihr r' _ (hr.symm.trans hr') htr hur, ← hc, ← hc']
      rfl
  exact key t u none (h.root.symm.trans h'.root) h.holds h'.holds

/-- The links are changed to those of another tree with the same sequence of nodes, and no other node
is changed. -/
structure Turns (s : LinkedTree ι) (t : Tree ι) (s' : LinkedTree ι) (t' : Tree ι) : Prop where
  shows : Shows s' t'
  toList : t'.toList = t.toList
  off : SameOff s.toLinks s'.toLinks t.toList

/-- Nothing has changed. -/
theorem Turns.refl (h : Shows s t) : Turns s t s t := ⟨h, rfl, SameOff.refl _ _⟩

/-- One change after another. -/
theorem Turns.trans {s'' : LinkedTree ι} {t' t'' : Tree ι} (h : Turns s t s' t')
    (h' : Turns s' t' s'' t'') : Turns s t s'' t'' :=
  ⟨h'.shows, h'.toList.trans h.toList, h.off.trans (h.toList ▸ h'.off)⟩

/-- The sibling, seen from the sibling. -/
theorem Shows.sibling (h : Shows s (plug (⟨d, c, x, u⟩ :: ctx) t)) :
    Shows s (plug (⟨d.other, c, x, t⟩ :: ctx) u) :=
  plug_sibling ▸ h

/-- A change of the sibling. -/
theorem Turns.sibling {u' : Tree ι} (h : Turns s (plug (⟨d.other, c, x, t⟩ :: ctx) u) s'
      (plug (⟨d.other, c, x, t⟩ :: ctx) u')) :
    Turns s (plug (⟨d, c, x, u⟩ :: ctx) t) s' (plug (⟨d, c, x, u'⟩ :: ctx) t) := by
  rw [plug_sibling (u := u), plug_sibling (u := u')]
  exact h

/-! ## Single writes -/

variable [DecidableEq ι]

def setParent (s : LinkedTree ι) (x : ι) (p : Option ι) : LinkedTree ι :=
  { s with parent := Function.update s.parent x p }

def setChild (s : LinkedTree ι) (d : Side) (x : ι) (y : Option ι) : LinkedTree ι :=
  { s with child := Function.update s.child d (Function.update (s.child d) x y) }

def setColor (s : LinkedTree ι) (x : ι) (c : Color) : LinkedTree ι :=
  { s with color := Function.update s.color x c }

/-- Write the parent of a node, if there is a node. -/
def setParentOf (s : LinkedTree ι) (q p : Option ι) : LinkedTree ι :=
  match q with
  | none => s
  | some x => s.setParent x p

/-- Write the colour of a node, if there is a node. -/
def setColorOf (s : LinkedTree ι) (q : Option ι) (c : Color) : LinkedTree ι :=
  match q with
  | none => s
  | some x => s.setColor x c

/-- Let the parent of `x`, or the pointer to the root, point to `y` in the place of `x`. The parent is
first asked for its child on side `d`. -/
def replaceChild (s : LinkedTree ι) (d : Side) (x : ι) (y : Option ι) : LinkedTree ι :=
  match s.parent x with
  | none => { s with root := y }
  | some p => if s.child d p = some x then s.setChild d p y else s.setChild d.other p y

section fields

variable (s : LinkedTree ι) (x : ι) (q p : Option ι) (d : Side) (c : Color)

/-- Children are written, not parents. -/
@[simp]
theorem parent_setChild : (s.setChild d x q).parent = s.parent := rfl

/-- Nor colours. -/
@[simp]
theorem color_setChild : (s.setChild d x q).color = s.color := rfl

/-- Nor the root. -/
@[simp]
theorem root_setChild : (s.setChild d x q).root = s.root := rfl

/-- Parents are written, not children. -/
@[simp]
theorem child_setParent : (s.setParent x p).child = s.child := rfl

/-- Nor colours. -/
@[simp]
theorem color_setParent : (s.setParent x p).color = s.color := rfl

/-- Nor the root. -/
@[simp]
theorem root_setParent : (s.setParent x p).root = s.root := rfl

/-- Colours are written, not parents. -/
@[simp]
theorem parent_setColor : (s.setColor x c).parent = s.parent := rfl

/-- Nor children. -/
@[simp]
theorem child_setColor : (s.setColor x c).child = s.child := rfl

/-- Nor the root. -/
@[simp]
theorem root_setColor : (s.setColor x c).root = s.root := rfl

/-- The parent written. -/
@[simp]
theorem parent_setParent_self : (s.setParent x p).parent x = p := update_self ..

/-- The colour written. -/
@[simp]
theorem color_setColor_self : (s.setColor x c).color x = c := update_self ..

/-- The child written. -/
@[simp]
theorem child_setChild_self : (s.setChild d x q).child d x = q := by
  simp [setChild]

/-- The child on the other side. -/
@[simp]
theorem child_setChild_other : (s.setChild d x q).child d.other = s.child d.other := update_of_ne d.other_ne _ _

/-- The same for the other side. -/
@[simp]
theorem child_setChild_of_other : (s.setChild d.other x q).child d = s.child d := update_of_ne d.ne_other _ _

variable {x}

/-- The parent of another node. -/
theorem parent_setParent_of_ne {v : ι} (h : v ≠ x) : (s.setParent x p).parent v = s.parent v :=
  update_of_ne h _ _

/-- The colour of another node. -/
theorem color_setColor_of_ne {v : ι} (h : v ≠ x) : (s.setColor x c).color v = s.color v := update_of_ne h _ _

/-- The children of another node. -/
theorem child_setChild_of_ne {v : ι} (h : v ≠ x) (e : Side) : (s.setChild d x q).child e v = s.child e v := by
  by_cases he : e = d
  · subst he
    simp [setChild, h]
  · simp [setChild, he]

variable (x)

/-- Children stay. -/
@[simp]
theorem child_setParentOf : (s.setParentOf q p).child = s.child := by cases q <;> rfl

/-- Colours stay. -/
@[simp]
theorem color_setParentOf : (s.setParentOf q p).color = s.color := by cases q <;> rfl

/-- The root stays. -/
@[simp]
theorem root_setParentOf : (s.setParentOf q p).root = s.root := by cases q <;> rfl

/-- The parent of another node. -/
theorem parent_setParentOf_of_ne {v : ι} (h : q ≠ some v) : (s.setParentOf q p).parent v = s.parent v := by
  cases q with
  | none => rfl
  | some x => exact parent_setParent_of_ne _ _ fun e => h (e ▸ rfl)

/-- Parents stay. -/
@[simp]
theorem parent_replaceChild : (s.replaceChild d x q).parent = s.parent := by
  unfold replaceChild
  split
  · rfl
  · split_ifs <;> rfl

/-- Colours stay. -/
@[simp]
theorem color_replaceChild : (s.replaceChild d x q).color = s.color := by
  unfold replaceChild
  split
  · rfl
  · split_ifs <;> rfl

/-- The children of other nodes than the parent. -/
theorem child_replaceChild_of_ne {v : ι} (h : s.parent x ≠ some v) (e : Side) :
    (s.replaceChild d x q).child e v = s.child e v := by
  unfold replaceChild
  split
  · rfl
  · next p hp =>
    have hne : v ≠ p := fun e => h (e ▸ hp)
    split_ifs <;> exact child_setChild_of_ne _ _ _ hne e

end fields

/-- Another node keeps its fields. -/
theorem sameAt_setParent (h : v ≠ x) : SameAt s.toLinks (s.setParent x p).toLinks v :=
  ⟨parent_setParent_of_ne _ _ h, fun _ => rfl, rfl⟩

/-- The same for a child. -/
theorem sameAt_setChild (h : v ≠ x) : SameAt s.toLinks (s.setChild d x q).toLinks v :=
  ⟨rfl, child_setChild_of_ne _ _ _ h, rfl⟩

/-- The same for a colour. -/
theorem sameAt_setColor (h : v ≠ x) : SameAt s.toLinks (s.setColor x c).toLinks v :=
  ⟨rfl, fun _ => rfl, color_setColor_of_ne _ _ h⟩

/-- The same if there may be no node. -/
theorem sameAt_setParentOf (h : q ≠ some v) : SameAt s.toLinks (s.setParentOf q p).toLinks v :=
  ⟨parent_setParentOf_of_ne _ _ _ h, fun _ => by rw [child_setParentOf], by rw [color_setParentOf]⟩

/-- All nodes but the parent keep their fields. -/
theorem sameAt_replaceChild (h : s.parent x ≠ some v) : SameAt s.toLinks (s.replaceChild d x q).toLinks v :=
  ⟨by rw [parent_replaceChild], child_replaceChild_of_ne _ _ _ _ h, by rw [color_replaceChild]⟩

/-- A subtree is hung below another node. -/
theorem Holds.reparent (h : Holds s.toLinks p t) (hnodup : t.toList.Nodup) (p' : Option ι) :
    Holds (s.setParentOf t.root p').toLinks p' t := by
  cases t with
  | leaf => trivial
  | node c l x r =>
    obtain ⟨h1, h2, h3, h4, h5, h6⟩ := h
    have hx : x ∉ l.toList ∧ x ∉ r.toList := by
      simpa using (nodup_cons.mp (perm_middle.nodup_iff.mp hnodup)).1
    refine ⟨parent_setParent_self _ _ _, h2, h3, h4, h5.congr fun v hv => ?_, h6.congr fun v hv => ?_⟩
    · exact sameAt_setParent fun e => hx.1 (e ▸ hv)
    · exact sameAt_setParent fun e => hx.2 (e ▸ hv)

/-- The pointer to the subtree is written. -/
theorem Around.setChild {f : Frame ι} (h : Around s (f :: ctx) p) (hnodup : (items (f :: ctx)).Nodup) :
    Around (s.setChild f.side f.item q) (f :: ctx) q := by
  obtain ⟨h1, -, h3, h4, h5, h6⟩ := h
  have hf : f.item ∉ f.sibling.toList ∧ f.item ∉ items ctx := by
    simpa using (nodup_cons.mp hnodup).1
  refine ⟨h1, child_setChild_self .., ?_, h4, h5.congr fun v hv => ?_, h6.congr rfl fun v hv => ?_⟩
  · rw [child_setChild_other]
    exact h3
  · exact sameAt_setChild fun e => hf.1 (e ▸ hv)
  · exact sameAt_setChild fun e => hf.2 (e ▸ hv)

/-- The pointer to the subtree is replaced. -/
theorem Around.replaceChild (h : Around s ctx (some x)) (hx : s.parent x = top ctx)
    (hnodup : (items ctx).Nodup) (d : Side) (q : Option ι) (hself : x ∉ items ctx) :
    Around (s.replaceChild d x q) ctx q := by
  cases ctx with
  | nil =>
    unfold LinkedTree.replaceChild
    rw [hx]
    rfl
  | cons f ctx =>
    obtain ⟨-, h2, h3, -⟩ := id h
    have hsib : f.sibling.root ≠ some x := by
      intro e
      obtain ⟨c, a, b, e'⟩ := exists_join .left e
      exact hself (by simp [items, e', join, toList])
    -- The child that is replaced is the one on the side of the frame.
    have hwrite : s.replaceChild d x q = s.setChild f.side f.item q := by
      unfold LinkedTree.replaceChild
      rw [hx]
      dsimp only [top_cons]
      by_cases hd : d = f.side
      · subst hd
        rw [if_pos h2]
      · obtain rfl := Side.eq_other_of_ne hd
        rw [h3, if_neg hsib, Side.other_other]
    rw [hwrite]
    exact h.setChild hnodup

/-- On which side of its parent a node is. -/
theorem Shows.side {f : Frame ι} (h : Shows s (plug (f :: ctx) t)) (hne : t.root ≠ f.sibling.root) :
    (if t.root = s.child .left f.item then Side.left else Side.right) = f.side := by
  obtain ⟨-, hc, hs, -⟩ := Shows.node h
  cases hd : f.side with
  | left =>
    rw [hd] at hc
    exact if_pos hc.symm
  | right =>
    rw [hd] at hs
    exact if_neg fun e => hne (e.trans hs)

/-- A node is given another colour. -/
theorem Shows.turns_setColor (h : Shows s (plug ctx (join d c t x u))) (c' : Color) :
    Turns s (plug ctx (join d c t x u)) (s.setColor x c')
      (plug ctx (join d c' t x u)) := by
  refine ⟨?_, toList_plug_congr (by cases d <;> rfl), fun v hv => ?_⟩
  · obtain ⟨ha, hh, hnodup⟩ := shows_plug.mp h
    obtain ⟨h1, h2, h3, h4, h5, h6⟩ := holds_join.mp hh
    have hperm : ∀ c'' : Color, ((join d c'' t x u).toList ++ items ctx).Perm
        (x :: (t.toList ++ u.toList) ++ items ctx) := fun c'' =>
      toList_join_perm.append_right _
    have hx : x ∉ t.toList ∧ x ∉ u.toList ∧ x ∉ items ctx := by
      simpa [not_or, and_assoc] using (nodup_cons.mp ((hperm c).nodup_iff.mp hnodup)).1
    rw [shows_plug, root_join] at *
    refine ⟨ha.congr rfl fun v hv => sameAt_setColor fun e => hx.2.2 (e ▸ hv), holds_join.mpr
      ⟨h1, h2, h3, color_setColor_self _ _ _, h5.congr fun v hv => ?_, h6.congr fun v hv => ?_⟩,
      (hperm c').nodup_iff.mpr ((hperm c).nodup_iff.mp hnodup)⟩
    · exact sameAt_setColor fun e => hx.1 (e ▸ hv)
    · exact sameAt_setColor fun e => hx.2.1 (e ▸ hv)
  · refine sameAt_setColor fun e => hv ?_
    rw [mem_plug, mem_join]
    exact .inl (.inl e)

/-- The root of a subtree is made black, if it has one. -/
theorem Shows.turns_blacken (h : Shows s (plug ctx t)) :
    Turns s (plug ctx t) (s.setColorOf t.root .black) (plug ctx t.blacken) := by
  cases t with
  | leaf => exact Turns.refl h
  | node c l x r => exact Shows.turns_setColor (d := .left) h .black

end LinkedTree

end FreeAsd
