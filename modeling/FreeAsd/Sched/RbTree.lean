import Mathlib.Algebra.Group.Int.Defs
import Mathlib.Algebra.GroupWithZero.Nat
import FreeAsd.Lib.LinkedTree

/-!
# The red-black trees of the run queues

`rb_insert`, `rb_remove_node` and `rb_leftmost` of `kernel/sched/sched.c`. The mirror images that the source
writes out are one definition for a `Side`. `none` stands for a null pointer that is dereferenced, and for a
loop that has not ended after `fuel` rounds.
-/

namespace FreeAsd.Sched

variable {ι : Type*} [DecidableEq ι]

/-- The rotation of `x` down to side `d`. -/
def rbRotate (d : Side) (s : LinkedTree ι) (x : ι) : Option (LinkedTree ι) := do
  let y ← s.child d.other x
  let inner := s.child d y
  let s := s.setChild d.other x inner
  let s := s.setParentOf inner (some x)
  let s := s.setParent y (s.parent x)
  let s := s.replaceChild d x (some y)
  let s := s.setChild d y (some x)
  return s.setParent x (some y)

/-- `rb_rotate_left`. -/
def rbRotateLeft (s : LinkedTree ι) (x : ι) : Option (LinkedTree ι) := rbRotate .left s x

/-- `rb_rotate_right`. -/
def rbRotateRight (s : LinkedTree ι) (x : ι) : Option (LinkedTree ι) := rbRotate .right s x

/-! ## Insertion -/

/-- A round of `rb_insert_fixup` where the parent `p` of `z` is the child on side `d` of `gp`. Returns
the next `z`. -/
def insertFixupRound (d : Side) (s : LinkedTree ι) (z p gp : ι) : Option (LinkedTree ι × ι) := do
  let y := s.child d.other gp
  if s.colorOf y = .red then
    let s := s.setColor p .black
    let s := s.setColorOf y .black
    return (s.setColor gp .red, gp)
  else
    -- `if (z == z->parent->right) { z = z->parent; rb_rotate_left(root, z); }`
    let (s, z) ← if s.child d.other p = some z then (rbRotate d s p).map (·, p) else some (s, z)
    let p ← s.parent z
    let s := s.setColor p .black
    let s := s.setColor gp .red
    let s ← rbRotate d.other s gp
    return (s, z)

/-- `root->root->color = 0`. -/
def blackenRoot (s : LinkedTree ι) : Option (LinkedTree ι) := do
  let r ← s.root
  return s.setColor r .black

/-- `rb_insert_fixup`. -/
def rbInsertFixup : ℕ → LinkedTree ι → ι → Option (LinkedTree ι)
  | 0, _, _ => none
  | fuel + 1, s, z =>
    match s.parent z with
    | none => blackenRoot s
    | some p =>
      if s.color p = .red then
        match s.parent p with
        | none => blackenRoot s
        | some gp => do
          let d := if s.child .left gp = some p then .left else .right
          let (s, z) ← insertFixupRound d s z p gp
          rbInsertFixup fuel s z
      else blackenRoot s

/-- The loop of `rb_insert` that looks for the parent of the new node. -/
def insertParent (priority : ι → ℤ) (key : ℤ) : ℕ → LinkedTree ι → Option ι → Option ι →
    Option (Option ι)
  | 0, _, _, _ => none
  | _ + 1, _, none, parent => some parent
  | fuel + 1, s, some x, _ =>
    insertParent priority key fuel s (s.child (if key < priority x then .left else .right) x) (some x)

/-- `rb_insert`. `priority` has the field of the process of each node. -/
def rbInsert (fuel : ℕ) (priority : ι → ℤ) (s : LinkedTree ι) (z : ι) (key : ℤ) :
    Option (LinkedTree ι) := do
  let s := (s.setChild .left z none).setChild .right z none
  let s := s.setParent z none
  let s := s.setColor z .red
  let parent ← insertParent priority key fuel s s.root none
  let s := s.setParent z parent
  let s := (s.setChild .left z none).setChild .right z none
  let s := s.setColor z .red
  let s := match parent with
    | none => { s with root := some z }
    | some p => s.setChild (if key < priority p then .left else .right) p (some z)
  rbInsertFixup fuel s z

/-! ## Removal -/

/-- Follow the pointers to the left. -/
def leftEnd : ℕ → LinkedTree ι → ι → Option ι
  | 0, _, _ => none
  | fuel + 1, s, x =>
    match s.child .left x with
    | none => some x
    | some y => leftEnd fuel s y

/-- `rb_leftmost`. The outer `none` is a loop that has not ended. -/
def rbLeftmost (fuel : ℕ) (s : LinkedTree ι) : Option (Option ι) :=
  match s.root with
  | none => some none
  | some n => (leftEnd fuel s n).map some

/-- `rb_transplant`. -/
def rbTransplant (s : LinkedTree ι) (u : ι) (v : Option ι) : LinkedTree ι :=
  let s := s.replaceChild .left u v
  s.setParentOf v (s.parent u)

/-- The first part of a round of `rb_delete_fixup`: a red sibling `w` is rotated away. Returns the
sibling after that. -/
def deleteFixupRed (d : Side) (s : LinkedTree ι) (x_parent : Option ι) :
    Option (LinkedTree ι × Option ι) :=
  let w := x_parent.bind (s.child d.other)
  if s.colorOf w = .red then do
    let p ← x_parent
    let s := s.setColorOf w .black
    let s := s.setColor p .red
    let s ← rbRotate d s p
    return (s, s.child d.other p)
  else some (s, w)

/-- The second part, for a sibling `w` with a red child: if the child away from `x` is black, the red
one takes the place of `w`. -/
def deleteFixupNear (d : Side) (s : LinkedTree ι) (x_parent : Option ι) (w : ι) :
    Option (LinkedTree ι × Option ι) :=
  if s.colorOf (s.child d.other w) = .black then do
    let s := s.setColorOf (s.child d w) .black
    let s := s.setColor w .red
    let s ← rbRotate d.other s w
    return (s, x_parent.bind (s.child d.other))
  else some (s, some w)

/-- The last part: the sibling goes up in the place of the parent, and the loop ends at the root. -/
def deleteFixupFar (d : Side) (s : LinkedTree ι) (x_parent w : Option ι) :
    Option (LinkedTree ι × Option ι × Option ι) := do
  let s := s.setColorOf w (s.colorOf x_parent)
  let s := s.setColorOf x_parent .black
  let s := s.setColorOf (w.bind (s.child d.other)) .black
  let s ← match x_parent with
    | none => some s
    | some p => rbRotate d s p
  return (s, s.root, none)

/-- A round of `rb_delete_fixup` after its first part. Returns the next `x` and `x_parent`. -/
def deleteFixupBlack (d : Side) (s : LinkedTree ι) (x_parent : Option ι) (w : ι) :
    Option (LinkedTree ι × Option ι × Option ι) := do
  if s.colorOf (s.child d w) = .black ∧ s.colorOf (s.child d.other w) = .black then
    let s := s.setColor w .red
    return (s, x_parent, x_parent.bind s.parent)
  else
    let (s, w) ← deleteFixupNear d s x_parent w
    deleteFixupFar d s x_parent w

/-- A round of `rb_delete_fixup` for a node on side `d` of `x_parent`. -/
def deleteFixupRound (d : Side) (s : LinkedTree ι) (x_parent : Option ι) :
    Option (LinkedTree ι × Option ι × Option ι) := do
  let (s, w) ← deleteFixupRed d s x_parent
  -- `w->left` and `w->right` are read without a check of `w`.
  let w ← w
  deleteFixupBlack d s x_parent w

/-- `rb_delete_fixup`. -/
def rbDeleteFixup : ℕ → LinkedTree ι → Option ι → Option ι → Option (LinkedTree ι)
  | 0, _, _, _ => none
  | fuel + 1, s, x, x_parent =>
    if x ≠ s.root ∧ s.colorOf x = .black then do
      let d := if x = x_parent.bind (s.child .left) then .left else .right
      let (s, x, x_parent) ← deleteFixupRound d s x_parent
      rbDeleteFixup fuel s x x_parent
    else some (s.setColorOf x .black)

/-- `rb_remove_node` puts `y` in the place of `z`. -/
def replaceNode (s : LinkedTree ι) (z y : ι) : Option (LinkedTree ι) := do
  let s := rbTransplant s z (some y)
  let s := s.setChild .left y (s.child .left z)
  let left ← s.child .left y
  let s := s.setParent left (some y)
  return s.setColor y (s.color z)

/-- `rb_remove_node` takes `y`, which is further below `z`, out of its place, and gives it the right
subtree of `z`. -/
def detachNode (s : LinkedTree ι) (z y : ι) : Option (LinkedTree ι) := do
  let s := rbTransplant s y (s.child .right y)
  let s := s.setChild .right y (s.child .right z)
  let right ← s.child .right y
  return s.setParent right (some y)

/-- The part of `rb_remove_node` that takes `z` out. Returns the colour that is lost, and the `x` and
`x_parent` of the fixup. -/
def removeLinks (fuel : ℕ) (s : LinkedTree ι) (z : ι) :
    Option (LinkedTree ι × Color × Option ι × Option ι) :=
  match s.child .left z, s.child .right z with
  | none, right => some (rbTransplant s z right, s.color z, right, s.parent z)
  | left, none => some (rbTransplant s z left, s.color z, left, s.parent z)
  | some _, some right => do
    -- The successor of `z` takes its place.
    let y ← leftEnd fuel s right
    let orig_color := s.color y
    let x := s.child .right y
    if s.parent y = some z then
      let s ← replaceNode s z y
      return (s, orig_color, x, some y)
    else
      let x_parent := s.parent y
      let s ← detachNode s z y
      let s ← replaceNode s z y
      return (s, orig_color, x, x_parent)

/-- `rb_remove_node`. -/
def rbRemoveNode (fuel : ℕ) (s : LinkedTree ι) (z : ι) : Option (LinkedTree ι) := do
  let (s, orig_color, x, x_parent) ← removeLinks fuel s z
  let s := (s.setChild .left z none).setChild .right z none
  let s := s.setParent z none
  let s ← if orig_color = .black then rbDeleteFixup fuel s x x_parent else some s
  return s.setColorOf s.root .black

end FreeAsd.Sched
