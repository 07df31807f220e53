import Mathlib.Data.List.Perm.Basic
import Mathlib.Order.Basic

/-!
# Coloured trees and their contexts

Binary trees whose nodes are red or black, as a subtree in a context, the list of frames on the way down to it.
What a local change means for the whole tree follows from the lemmas about `plug`. Everything that has a
mirror image is stated for a `Side`.
-/

namespace FreeAsd

open List

/-- A side of a node. -/
inductive Side
  | left
  | right
  deriving DecidableEq, Repr

def Side.other : Side → Side
  | .left => .right
  | .right => .left

/-- The other of the other side. -/
@[simp]
theorem Side.other_other (d : Side) : d.other.other = d := by cases d <;> rfl

/-- The other side is another one. -/
@[simp]
theorem Side.other_ne (d : Side) : d.other ≠ d := by cases d <;> decide

/-- And the other way round. -/
@[simp]
theorem Side.ne_other (d : Side) : d ≠ d.other := by cases d <;> decide

/-- There are only two sides. -/
theorem Side.eq_other_of_ne {d e : Side} (h : e ≠ d) : e = d.other := by
  cases d <;> cases e <;> first | rfl | exact absurd rfl h

/-- The colours of nodes. -/
inductive Color
  | black
  | red
  deriving DecidableEq, Repr

/-- What a node adds to the black height. -/
def Color.weight : Color → ℕ
  | .black => 1
  | .red => 0

/-- A black node counts. -/
@[simp]
theorem Color.weight_black : Color.black.weight = 1 := rfl

/-- A red node does not. -/
@[simp]
theorem Color.weight_red : Color.red.weight = 0 := rfl

/-- What is not red is black. -/
@[simp]
theorem Color.ne_red {c : Color} : c ≠ .red ↔ c = .black := by cases c <;> simp

/-- What is not black is red. -/
@[simp]
theorem Color.ne_black {c : Color} : c ≠ .black ↔ c = .red := by cases c <;> simp

inductive Tree (ι : Type*)
  | leaf
  | node (c : Color) (l : Tree ι) (x : ι) (r : Tree ι)
  deriving DecidableEq

variable {ι : Type*}

namespace Tree

/-- The item at the root. -/
def root : Tree ι → Option ι
  | leaf => none
  | node _ _ x _ => some x

/-- The colour of the root. A leaf counts as black. -/
def color : Tree ι → Color
  | leaf => .black
  | node c _ _ _ => c

/-- The items, from left to right. -/
def toList : Tree ι → List ι
  | leaf => []
  | node _ l x r => l.toList ++ x :: r.toList

/-- The node with `t` on side `d` and `u` on the other side. -/
def join (d : Side) (c : Color) (t : Tree ι) (x : ι) (u : Tree ι) : Tree ι :=
  match d with
  | .left => node c t x u
  | .right => node c u x t

/-- The tree with a black root. -/
def blacken : Tree ι → Tree ι
  | leaf => leaf
  | node _ l x r => node .black l x r

/-- All paths to a leaf have `n` black nodes. -/
def BlackHeight : Tree ι → ℕ → Prop
  | leaf, n => n = 0
  | node c l _ r, n => ∃ m, l.BlackHeight m ∧ r.BlackHeight m ∧ n = m + c.weight

/-- No red node has a red child. -/
def NoRedRed : Tree ι → Prop
  | leaf => True
  | node c l _ r => (c = .red → l.color = .black ∧ r.color = .black) ∧ l.NoRedRed ∧ r.NoRedRed

/-- A red-black tree. -/
structure RedBlack (t : Tree ι) : Prop where
  color_root : t.color = .black
  noRedRed : t.NoRedRed
  blackHeight : ∃ n, t.BlackHeight n

variable {d : Side} {c : Color} {t u : Tree ι} {x : ι}

/-- A leaf has no items. -/
@[simp]
theorem toList_leaf : (leaf : Tree ι).toList = [] := rfl

/-- The black height of a leaf. -/
@[simp]
theorem blackHeight_leaf {n : ℕ} : (leaf : Tree ι).BlackHeight n ↔ n = 0 := Iff.rfl

/-- The root of a node. -/
@[simp]
theorem root_join : (join d c t x u).root = some x := by cases d <;> rfl

/-- The colour of a node. -/
@[simp]
theorem color_join : (join d c t x u).color = c := by cases d <;> rfl

/-- A node made black. -/
@[simp]
theorem blacken_join : (join d c t x u).blacken = join d .black t x u := by cases d <;> rfl

/-- The node seen from the other side. -/
theorem join_other : join d.other c t x u = join d c u x t := by cases d <;> rfl

/-- The black height of a node. -/
@[simp]
theorem blackHeight_join {n : ℕ} :
    (join d c t x u).BlackHeight n ↔ ∃ m, t.BlackHeight m ∧ u.BlackHeight m ∧ n = m + c.weight := by
  cases d
  · exact Iff.rfl
  · exact exists_congr fun m => ⟨fun ⟨h1, h2, h3⟩ => ⟨h2, h1, h3⟩, fun ⟨h1, h2, h3⟩ => ⟨h2, h1, h3⟩⟩

/-- A node without red nodes with red children. -/
@[simp]
theorem noRedRed_join : (join d c t x u).NoRedRed ↔
    (c = .red → t.color = .black ∧ u.color = .black) ∧ t.NoRedRed ∧ u.NoRedRed := by
  cases d
  · exact Iff.rfl
  · rw [join, NoRedRed]
    tauto

/-- The items of a node, in another order. -/
theorem toList_join_perm : (join d c t x u).toList.Perm (x :: (t.toList ++ u.toList)) := by
  cases d
  · exact perm_middle
  · exact perm_middle.trans (perm_append_comm.cons x)

/-- An item of a node. -/
@[simp]
theorem mem_join {v : ι} : v ∈ (join d c t x u).toList ↔ v = x ∨ v ∈ t.toList ∨ v ∈ u.toList := by
  rw [toList_join_perm.mem_iff, mem_cons, mem_append]

/-- When the items of a node are different. -/
theorem nodup_join : (join d c t x u).toList.Nodup ↔ (x ∉ t.toList ∧ x ∉ u.toList) ∧
    t.toList.Nodup ∧ u.toList.Nodup ∧ ∀ a ∈ t.toList, ∀ b ∈ u.toList, a ≠ b := by
  rw [toList_join_perm.nodup_iff, nodup_cons, mem_append, not_or, nodup_append]

/-- The root is an item. -/
theorem root_mem {v : ι} (h : t.root = some v) : v ∈ t.toList := by
  cases t with
  | leaf => exact absurd h nofun
  | node c l y r =>
    cases h
    exact mem_append_right _ mem_cons_self

/-- A rotation keeps the order of the items. -/
theorem toList_rotate {a b : Tree ι} {y : ι} {cx cy : Color} :
    (join d cy (join d cx a x b) y u).toList = (join d cx a x (join d cy b y u)).toList := by
  cases d <;> simp [join, toList]

/-- Every tree that is not a leaf has a root with two subtrees. -/
theorem exists_join_of_ne (d : Side) (h : t ≠ leaf) : ∃ c a x b, t = join d c a x b := by
  cases t with
  | leaf => exact absurd rfl h
  | node c l x r =>
    cases d
    · exact ⟨c, l, x, r, rfl⟩
    · exact ⟨c, r, x, l, rfl⟩

/-- A tree with a root is a node. -/
theorem exists_join (d : Side) {x : ι} (h : t.root = some x) : ∃ c a b, t = join d c a x b := by
  obtain ⟨c, a, y, b, rfl⟩ := exists_join_of_ne (t := t) d (by rintro rfl; cases h)
  cases root_join.symm.trans h
  exact ⟨c, a, b, rfl⟩

/-- A tree without a root is a leaf. -/
theorem eq_leaf_of_root (h : t.root = none) : t = leaf := by
  cases t with
  | leaf => rfl
  | node => exact absurd h nofun

/-- A tree with a red root is a node. -/
theorem exists_join_of_red (d : Side) (h : t.color = .red) : ∃ a x b, t = join d .red a x b := by
  obtain ⟨c, a, x, b, rfl⟩ := exists_join_of_ne (t := t) d (by rintro rfl; cases h)
  cases color_join.symm.trans h
  exact ⟨a, x, b, rfl⟩

/-- A tree with a positive black height is not a leaf. -/
theorem exists_join_of_blackHeight (d : Side) {n : ℕ} (h : t.BlackHeight (n + 1)) :
    ∃ c a x b, t = join d c a x b :=
  exists_join_of_ne d (by rintro rfl; exact Nat.succ_ne_zero n h)

/-- The root is black then. -/
@[simp]
theorem color_blacken : t.blacken.color = .black := by cases t <;> rfl

/-- A black root stays as it is. -/
theorem blacken_of_black (h : t.color = .black) : t.blacken = t := by
  cases t with
  | leaf => rfl
  | node c l x r =>
    obtain rfl : c = .black := h
    rfl

/-- A black root has no fault of colour. -/
theorem NoRedRed.blacken (h : t.NoRedRed) : t.blacken.NoRedRed := by
  cases t with
  | leaf => trivial
  | node => exact ⟨nofun, h.2⟩

/-- The heights stay equal. -/
theorem BlackHeight.blacken {n : ℕ} (h : t.BlackHeight n) : ∃ m, t.blacken.BlackHeight m := by
  cases t with
  | leaf => exact ⟨n, h⟩
  | node c l x r =>
    obtain ⟨m, hl, hr, -⟩ := h
    exact ⟨m + 1, m, hl, hr, rfl⟩

/-- They grow by one if the root was red. -/
theorem BlackHeight.blacken_of_red {n : ℕ} (h : t.BlackHeight n) (hred : t.color = .red) :
    t.blacken.BlackHeight (n + 1) := by
  obtain ⟨a, x, b, rfl⟩ := exists_join_of_red .left hred
  obtain ⟨m, ha, hb, hn⟩ := blackHeight_join.mp h
  rw [blacken_join]
  exact blackHeight_join.mpr ⟨m, ha, hb, by rw [hn]; rfl⟩

/-- With a black root the tree is red-black. -/
theorem redBlack_blacken {n : ℕ} (hred : t.NoRedRed) (hheight : t.BlackHeight n) : t.blacken.RedBlack :=
  ⟨color_blacken, hred.blacken, hheight.blacken⟩

end Tree

/-- A node above a subtree: the subtree is on side `side`, and `sibling` on the other. -/
structure Frame (ι : Type*) where
  side : Side
  color : Color
  item : ι
  sibling : Tree ι

/-- The tree of a frame and the subtree. -/
def Frame.fill (f : Frame ι) (t : Tree ι) : Tree ι := Tree.join f.side f.color t f.item f.sibling

/-- The way up from a subtree to the root. -/
abbrev Context (ι : Type*) := List (Frame ι)

namespace Context

/-- The whole tree. -/
def plug : Context ι → Tree ι → Tree ι
  | [], t => t
  | f :: ctx, t => plug ctx (f.fill t)

/-- The parent of the subtree. -/
def top : Context ι → Option ι
  | [] => none
  | f :: _ => some f.item

/-- The items to the left of the subtree. -/
def before : Context ι → List ι
  | [] => []
  | f :: ctx => match f.side with
    | .left => before ctx
    | .right => before ctx ++ (f.sibling.toList ++ [f.item])

/-- The items to the right of the subtree. -/
def after : Context ι → List ι
  | [] => []
  | f :: ctx => match f.side with
    | .left => f.item :: f.sibling.toList ++ after ctx
    | .right => after ctx

/-- The items outside the subtree. -/
def items : Context ι → List ι
  | [] => []
  | f :: ctx => f.item :: (f.sibling.toList ++ items ctx)

/-- A subtree of black height `n` makes a tree of black height `k`. -/
def BlackHeight : Context ι → ℕ → ℕ → Prop
  | [], n, k => n = k
  | f :: ctx, n, k => f.sibling.BlackHeight n ∧ BlackHeight ctx (n + f.color.weight) k

/-- A subtree without red nodes with red children and with a root of colour `c` makes such a tree. -/
def NoRedRed : Context ι → Color → Prop
  | [], _ => True
  | f :: ctx, c =>
    (f.color = .red → c = .black ∧ f.sibling.color = .black) ∧ f.sibling.NoRedRed ∧
      NoRedRed ctx f.color

variable {ctx : Context ι} {f : Frame ι} {t u : Tree ι}

/-- Nothing around the subtree. -/
@[simp]
theorem plug_nil : plug [] t = t := rfl

/-- The parent is the innermost frame. -/
@[simp]
theorem top_cons : top (f :: ctx) = some f.item := rfl

/-- One frame around the subtree. -/
theorem plug_cons : plug (f :: ctx) t = plug ctx (Tree.join f.side f.color t f.item f.sibling) := rfl

/-- The sibling of a subtree, seen from the sibling. -/
theorem plug_sibling {d : Side} {c : Color} {x : ι} :
    plug (⟨d, c, x, u⟩ :: ctx) t = plug (⟨d.other, c, x, t⟩ :: ctx) u := by
  rw [plug_cons, plug_cons, Tree.join_other]

/-- One context around another. -/
theorem plug_append (ctx' ctx : Context ι) (t : Tree ι) : plug (ctx' ++ ctx) t = plug ctx (plug ctx' t) := by
  induction ctx' generalizing t with
  | nil => rfl
  | cons f ctx' ih => exact ih (f.fill t)

/-- The items are those before, in and after the subtree. -/
theorem toList_plug (ctx : Context ι) (t : Tree ι) :
    (plug ctx t).toList = before ctx ++ t.toList ++ after ctx := by
  induction ctx generalizing t with
  | nil => simp [plug, before, after]
  | cons f ctx ih =>
    obtain ⟨d, c, x, u⟩ := f
    rw [plug_cons, ih]
    cases d <;> simp [before, after, Tree.join, Tree.toList]

/-- On a way down to the left there is nothing to the left. -/
theorem before_eq_nil (h : ∀ f ∈ ctx, f.side = .left) : before ctx = [] := by
  induction ctx with
  | nil => rfl
  | cons f ctx ih =>
    rw [before, h f mem_cons_self]
    exact ih (forall_mem_cons.mp h).2

/-- They depend on the items of the subtree only. -/
theorem toList_plug_congr (h : t.toList = u.toList) : (plug ctx t).toList = (plug ctx u).toList := by
  rw [toList_plug, toList_plug, h]

/-- The same in another order. -/
theorem toList_plug_perm (ctx : Context ι) (t : Tree ι) : (plug ctx t).toList.Perm (t.toList ++ items ctx) := by
  induction ctx generalizing t with
  | nil => simp [plug, items]
  | cons f ctx ih =>
    have hjoin := Tree.toList_join_perm (d := f.side) (c := f.color) (t := t) (x := f.item) (u := f.sibling)
    rw [plug_cons]
    refine (ih _).trans ((hjoin.append_right _).trans ?_)
    rw [cons_append, append_assoc]
    exact perm_middle.symm

/-- When the items of the whole are different. -/
theorem nodup_plug : (plug ctx t).toList.Nodup ↔ (t.toList ++ items ctx).Nodup :=
  (toList_plug_perm ctx t).nodup_iff

/-- An item is in the subtree or outside. -/
theorem mem_plug {x : ι} : x ∈ (plug ctx t).toList ↔ x ∈ t.toList ∨ x ∈ items ctx := by
  rw [(toList_plug_perm ctx t).mem_iff, mem_append]

/-- The parent is outside the subtree. -/
theorem top_mem_items {p : ι} (h : top ctx = some p) : p ∈ items ctx := by
  cases ctx with
  | nil => exact absurd h nofun
  | cons f ctx =>
    cases h
    exact mem_cons_self

/-- The black height of the whole tree. -/
theorem blackHeight_plug {k : ℕ} : (plug ctx t).BlackHeight k ↔ ∃ n, t.BlackHeight n ∧ BlackHeight ctx n k := by
  induction ctx generalizing t with
  | nil => simp [plug, BlackHeight]
  | cons f ctx ih =>
    rw [plug_cons, ih]
    constructor
    · rintro ⟨n, hn, hctx⟩
      obtain ⟨m, ht, hs, rfl⟩ := Tree.blackHeight_join.mp hn
      exact ⟨m, ht, hs, hctx⟩
    · rintro ⟨m, ht, hs, hctx⟩
      exact ⟨m + f.color.weight, Tree.blackHeight_join.mpr ⟨m, ht, hs, rfl⟩, hctx⟩

/-- The whole tree has no red node with a red child. -/
theorem noRedRed_plug : (plug ctx t).NoRedRed ↔ t.NoRedRed ∧ NoRedRed ctx t.color := by
  induction ctx generalizing t with
  | nil => simp [plug, NoRedRed]
  | cons f ctx ih =>
    rw [plug_cons, ih, Tree.noRedRed_join, Tree.color_join, NoRedRed]
    tauto

/-- A black subtree fits everywhere. -/
theorem NoRedRed.black {c : Color} (h : NoRedRed ctx c) : NoRedRed ctx .black := by
  cases ctx with
  | nil => trivial
  | cons f ctx => exact ⟨fun hc => ⟨rfl, (h.1 hc).2⟩, h.2⟩

/-- The items of the nodes do not matter for the black height. -/
theorem blackHeight_item (ctx' ctx : Context ι) {d : Side} {c : Color} {x y : ι} {n k : ℕ} :
    BlackHeight (ctx' ++ ⟨d, c, x, t⟩ :: ctx) n k ↔ BlackHeight (ctx' ++ ⟨d, c, y, t⟩ :: ctx) n k := by
  induction ctx' generalizing n with
  | nil => exact Iff.rfl
  | cons f ctx' ih => exact and_congr_right fun _ => ih

/-- Nor for the colours. -/
theorem noRedRed_item (ctx' ctx : Context ι) {d : Side} {c e : Color} {x y : ι} :
    NoRedRed (ctx' ++ ⟨d, c, x, t⟩ :: ctx) e ↔ NoRedRed (ctx' ++ ⟨d, c, y, t⟩ :: ctx) e := by
  induction ctx' generalizing e with
  | nil => exact Iff.rfl
  | cons f ctx' ih => exact and_congr_right fun _ => and_congr_right fun _ => ih

/-- The root is as red as with a subtree of the same colour. -/
theorem color_plug_congr (h : t.color = u.color) : (plug ctx t).color = (plug ctx u).color := by
  induction ctx generalizing t u with
  | nil => exact h
  | cons f ctx ih =>
    rw [plug_cons, plug_cons]
    exact ih (by rw [Tree.color_join, Tree.color_join])

/-- Below the root, a subtree does not matter for the colour of the root. -/
theorem color_plug (h : ctx ≠ []) : (plug ctx t).color = (plug ctx u).color := by
  cases ctx with
  | nil => exact absurd rfl h
  | cons f ctx =>
    rw [plug_cons, plug_cons]
    exact color_plug_congr (by rw [Tree.color_join, Tree.color_join])

/-- And with another item in a frame. -/
theorem color_plug_item (ctx' ctx : Context ι) {d : Side} {c : Color} {x y : ι} :
    (plug (ctx' ++ ⟨d, c, x, u⟩ :: ctx) t).color = (plug (ctx' ++ ⟨d, c, y, u⟩ :: ctx) t).color := by
  rw [plug_append, plug_append, plug_cons, plug_cons]
  exact color_plug_congr (by rw [Tree.color_join, Tree.color_join])

/-- A context has at most as many frames as the tree has items. -/
theorem length_le (ctx : Context ι) (t : Tree ι) : ctx.length ≤ (plug ctx t).toList.length := by
  have hitems : ctx.length ≤ (items ctx).length := by
    induction ctx with
    | nil => exact Nat.le_refl _
    | cons f ctx ih =>
      rw [items, length_cons, length_cons, length_append]
      omega
  rw [(toList_plug_perm ctx t).length_eq, length_append]
  omega

/-- Below the root, the root is a node of the context. -/
theorem root_plug_mem_items (h : ctx ≠ []) : ∃ x ∈ items ctx, (plug ctx t).root = some x := by
  induction ctx generalizing t with
  | nil => exact absurd rfl h
  | cons f ctx ih =>
    cases ctx with
    | nil => exact ⟨f.item, mem_cons_self, Tree.root_join⟩
    | cons g ctx =>
      obtain ⟨x, hx, hroot⟩ := ih (t := f.fill t) (cons_ne_nil _ _)
      exact ⟨x, mem_cons_of_mem _ (mem_append_right _ hx), hroot⟩

/-- A tree with a subtree that is no leaf is none. -/
theorem root_plug_ne_none (h : t.root ≠ none) : (plug ctx t).root ≠ none := by
  induction ctx generalizing t with
  | nil => exact h
  | cons f ctx ih => exact ih (by simp [Frame.fill])

/-- Every item of a tree is the root of a subtree. -/
theorem exists_plug {T : Tree ι} {x : ι} (h : x ∈ T.toList) :
    ∃ ctx c l r, T = plug ctx (Tree.node c l x r) := by
  induction T with
  | leaf => exact absurd h not_mem_nil
  | node c l y r ihl ihr =>
    -- A context in a subtree is extended by a frame for the root.
    rcases mem_append.mp h with h | h
    · obtain ⟨ctx, c', l', r', hl⟩ := ihl h
      exact ⟨ctx ++ [⟨.left, c, y, r⟩], c', l', r', by rw [plug_append, ← hl]; rfl⟩
    rcases mem_cons.mp h with rfl | h
    · exact ⟨[], c, l, r, rfl⟩
    · obtain ⟨ctx, c', l', r', hr⟩ := ihr h
      exact ⟨ctx ++ [⟨.right, c, y, l⟩], c', l', r', by rw [plug_append, ← hr]; rfl⟩

end Context

end FreeAsd
