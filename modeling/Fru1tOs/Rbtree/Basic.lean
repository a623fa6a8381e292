import Fru1tOs.Lib.Loop
import Fru1tOs.Lib.RedBlack

/-!
# The red-black tree of pointers

The intrusive tree of `rbtree.c`, on which the scheduler and epoll are built:
nodes in memory, linked to their parent and children, and a root pointer. The
nodes are addressed by a type `P`; a null pointer is `none`, and following one
makes the operation fail (`none`). The loops of the source are iterated under a
bound, `fuel`.

The source writes rebalancing out twice, once for each side. The two halves
mirror each other, so that they are one definition here, of the side `d`: with
`d = .left`, the left half, and with `d = .right`, the right one.
-/

namespace Fru1tOs

open Lib

/-- `struct rb_node`. -/
structure RbNode (P : Type*) where
  parent : Option P
  left : Option P
  right : Option P
  color : Color
  deriving DecidableEq, Repr

namespace RbNode

variable {P : Type*}

/-- The child on the side `d`. -/
def child (n : RbNode P) : Side → Option P
  | .left => n.left
  | .right => n.right

/-- The node with another child on the side `d`. -/
def setChild (n : RbNode P) (d : Side) (v : Option P) : RbNode P :=
  match d with
  | .left => { n with left := v }
  | .right => { n with right := v }

/-- The node with another parent. -/
def setParent (n : RbNode P) (v : Option P) : RbNode P := { n with parent := v }

/-- The node with another colour. -/
def setColor (n : RbNode P) (c : Color) : RbNode P := { n with color := c }

end RbNode

/-- The memory of the nodes, and `struct rb_root`. -/
structure RbState (P : Type*) where
  mem : P → RbNode P
  root : Option P

namespace RbState

variable {P : Type*} [DecidableEq P]

/-- The state with the node `a` changed by `f`. -/
def modify (s : RbState P) (a : P) (f : RbNode P → RbNode P) : RbState P :=
  { s with mem := Function.update s.mem a (f (s.mem a)) }

/-- `a->left = v` or `a->right = v`. -/
def setChild (s : RbState P) (a : P) (d : Side) (v : Option P) : RbState P :=
  s.modify a (·.setChild d v)

/-- `rb_set_parent(a, v)`. -/
def setParent (s : RbState P) (a : P) (v : Option P) : RbState P := s.modify a (·.setParent v)

/-- `rb_set_color(a, c)`. -/
def setColor (s : RbState P) (a : P) (c : Color) : RbState P := s.modify a (·.setColor c)

/-- `if (a) rb_set_parent(a, v)`. -/
def setParent? (s : RbState P) (a : Option P) (v : Option P) : RbState P :=
  match a with
  | none => s
  | some a => s.setParent a v

/-- `root->rb_node = v`. -/
def setRoot (s : RbState P) (v : Option P) : RbState P := { s with root := v }

/-- `rb_is_red(a)`: a null pointer is not red. -/
def isRed (s : RbState P) : Option P → Bool
  | none => false
  | some a => (s.mem a).color = .red

/-- `rb_is_black(a)`: a null pointer is black. -/
def isBlack (s : RbState P) : Option P → Bool
  | none => true
  | some a => (s.mem a).color = .black

end RbState

section Model

variable {P : Type*} [DecidableEq P]

/-! ## Rotations -/

/-- A rotation towards the side `d`: the child of `node` on the other side comes
    up in its place, and `node` becomes its child on the side `d`. -/
def rbRotate (d : Side) (s : RbState P) (node : P) : Option (RbState P) := do
  let up ← (s.mem node).child d.other
  let parent := (s.mem node).parent
  let s := s.setChild node d.other ((s.mem up).child d)
  let s := s.setParent? ((s.mem up).child d) (some node)
  let s := s.setChild up d (some node)
  let s := s.setParent up parent
  let s := match parent with
    | some p =>
      if (s.mem p).child d = some node then s.setChild p d (some up)
      else s.setChild p d.other (some up)
    | none => s.setRoot (some up)
  return s.setParent node (some up)

/-- `rb_rotate_left`. -/
def rbRotateLeft (s : RbState P) (node : P) : Option (RbState P) := rbRotate .left s node

/-- `rb_rotate_right`. -/
def rbRotateRight (s : RbState P) (node : P) : Option (RbState P) := rbRotate .right s node

/-! ## Insertion -/

/-- A pass of `rb_insert_color`, `parent` being the child of `gparent` on the side
    `d`: the loop goes on with another tree and another node. -/
def rbInsertColorSide (d : Side) (s : RbState P) (node parent gparent : P) :
    Option (Pass (RbState P × P) (RbState P)) := do
  let uncle := (s.mem gparent).child d.other
  if s.isRed uncle then
    -- Case 1: the uncle is red.
    let uncle ← uncle
    let s := s.setColor uncle .black
    let s := s.setColor parent .black
    let s := s.setColor gparent .red
    return .next (s, gparent)
  else
    -- Case 2: the node is the inner child. It comes up, and the two swap roles.
    let (s, node, parent) ←
      if (s.mem parent).child d.other = some node then do
        let s ← rbRotate d s parent
        pure (s, parent, node)
      else pure (s, node, parent)
    -- Case 3: the node is the outer child.
    let s := s.setColor parent .black
    let s := s.setColor gparent .red
    let s ← rbRotate d.other s gparent
    return .next (s, node)

/-- A pass of `rb_insert_color`. -/
def rbInsertColorPass : RbState P × P → Option (Pass (RbState P × P) (RbState P))
  | (s, node) =>
    match (s.mem node).parent with
    | none => some (.done s)
    | some parent =>
      if s.isRed (some parent) then do
        let gparent ← (s.mem parent).parent
        if (s.mem gparent).left = some parent then rbInsertColorSide .left s node parent gparent
        else rbInsertColorSide .right s node parent gparent
      else some (.done s)

/-- `rb_insert_color`: rebalance after `node` has been linked as a red leaf. -/
def rbInsertColor (fuel : ℕ) (s : RbState P) (node : P) : Option (RbState P) := do
  let s ← loop rbInsertColorPass fuel (s, node)
  let root ← s.root
  return s.setColor root .black

/-- The writes by which a caller links `node` as a red leaf, below `parent` on
    the side `d` (or as the root), before it calls `rb_insert_color`. -/
def rbLink (s : RbState P) (node : P) (parent : Option P) (d : Side) : RbState P :=
  let s := s.modify node fun _ => ⟨parent, none, none, .red⟩
  match parent with
  | some p => s.setChild p d (some node)
  | none => s.setRoot (some node)

/-! ## In-order walk -/

/-- A pass of `while (node->left) node = node->left`. -/
def rbLeftmostPass (s : RbState P) (node : P) : Option (Pass P P) :=
  match (s.mem node).left with
  | some l => some (.next l)
  | none => some (.done node)

/-- The leftmost node below `node`. -/
def rbLeftmost (fuel : ℕ) (s : RbState P) (node : P) : Option P :=
  loop (rbLeftmostPass s) fuel node

/-- `rb_first`. -/
def rbFirst (fuel : ℕ) (s : RbState P) : Option (Option P) :=
  match s.root with
  | none => some none
  | some node => do
    let first ← rbLeftmost fuel s node
    return some first

/-- A pass of the climb of `rb_next`, while the node is a right child. -/
def rbClimbPass (s : RbState P) (node : P) : Option (Pass P (Option P)) :=
  match (s.mem node).parent with
  | none => some (.done none)
  | some parent =>
    if (s.mem parent).right = some node then some (.next parent) else some (.done (some parent))

/-- `rb_next`. -/
def rbNext (fuel : ℕ) (s : RbState P) (node : P) : Option (Option P) :=
  match (s.mem node).right with
  | some r => do
    let next ← rbLeftmost fuel s r
    return some next
  | none => loop (rbClimbPass s) fuel node

/-! ## Removal -/

/-- In a pass of `rb_erase_color`, with a red nephew on one side at least: if the
    outer one is black, the inner one is rotated up to be the sibling. -/
def rbEraseColorNephew (d : Side) (s : RbState P) (parent sibling : P) :
    Option (RbState P × P) := do
  if s.isBlack ((s.mem sibling).child d.other) then
    let near ← (s.mem sibling).child d
    let s := s.setColor near .black
    let s := s.setColor sibling .red
    let s ← rbRotate d.other s sibling
    let sibling ← (s.mem parent).child d.other
    return (s, sibling)
  else
    return (s, sibling)

/-- A pass of `rb_erase_color` once the sibling is black, the place being the
    child of `parent` on the side `d`. It goes on with another tree, node and
    parent, or leaves the loop with the tree and the node to be painted. -/
def rbEraseColorBlack (d : Side) (s : RbState P) (parent sibling : P) :
    Option (Pass (RbState P × Option P × Option P) (RbState P × Option P)) := do
  if s.isBlack (s.mem sibling).left && s.isBlack (s.mem sibling).right then
    let s := s.setColor sibling .red
    return .next (s, some parent, (s.mem parent).parent)
  else
    let (s, sibling) ← rbEraseColorNephew d s parent sibling
    let s := s.setColor sibling (s.mem parent).color
    let s := s.setColor parent .black
    let far ← (s.mem sibling).child d.other
    let s := s.setColor far .black
    let s ← rbRotate d s parent
    return .done (s, s.root)

/-- A pass of `rb_erase_color`, the place being the child of `parent` on the
    side `d`. -/
def rbEraseColorSide (d : Side) (s : RbState P) (parent : P) :
    Option (Pass (RbState P × Option P × Option P) (RbState P × Option P)) := do
  let sibling := (s.mem parent).child d.other
  -- A red sibling comes up first, for a black one.
  let (s, sibling) ←
    if s.isRed sibling then do
      let red ← sibling
      let s := s.setColor red .black
      let s := s.setColor parent .red
      let s ← rbRotate d s parent
      pure (s, (s.mem parent).child d.other)
    else pure (s, sibling)
  let sibling ← sibling
  rbEraseColorBlack d s parent sibling

/-- A pass of `rb_erase_color`. -/
def rbEraseColorPass : RbState P × Option P × Option P →
    Option (Pass (RbState P × Option P × Option P) (RbState P × Option P))
  | (s, node, parent) =>
    if s.isBlack node ∧ node ≠ s.root then do
      let parent ← parent
      if (s.mem parent).left = node then rbEraseColorSide .left s parent
      else rbEraseColorSide .right s parent
    else some (.done (s, node))

/-- `rb_erase_color`: rebalance, `node` (possibly null) being one black node short. -/
def rbEraseColor (fuel : ℕ) (s : RbState P) (node parent : Option P) : Option (RbState P) := do
  let (s, node) ← loop rbEraseColorPass fuel (s, node, parent)
  match node with
  | none => return s
  | some node => return s.setColor node .black

/-- `old`'s place below its parent (or as the root) is taken by `new`. -/
def rbReplaceChild (s : RbState P) (parent : Option P) (old : P) (new : Option P) : RbState P :=
  match parent with
  | some p =>
    if (s.mem p).left = some old then s.setChild p .left new else s.setChild p .right new
  | none => s.setRoot new

/-- The splice of `rb_erase` of a node with at most one child, `child`. It gives
    the tree, and the arguments and the condition of the rebalancing. -/
def rbEraseOne (s : RbState P) (node : P) (child : Option P) :
    RbState P × Option P × Option P × Color :=
  let parent := (s.mem node).parent
  let color := (s.mem node).color
  let s := s.setParent? child parent
  let s := rbReplaceChild s parent node child
  (s, child, parent, color)

/-- `node` takes the place of `old`, which has a left child: it gets the fields of
    `old`, whose neighbours are redirected to it. -/
def rbSubstitute (s : RbState P) (old node : P) : Option (RbState P) := do
  let s := s.modify node fun _ => s.mem old
  let s := rbReplaceChild s (s.mem old).parent old (some node)
  let left ← (s.mem old).left
  let s := s.setParent left (some node)
  return s.setParent? (s.mem old).right (some node)

/-- The splice of `rb_erase` of the node `old` with two children, whose right one
    is `right`: its successor takes its place. -/
def rbEraseTwo (fuel : ℕ) (s : RbState P) (old right : P) :
    Option (RbState P × Option P × Option P × Color) := do
  let node ← rbLeftmost fuel s right
  let child := (s.mem node).right
  let parent := (s.mem node).parent
  let color := (s.mem node).color
  let s := s.setParent? child parent
  let s := rbReplaceChild s parent node child
  let parent := if (s.mem node).parent = some old then some node else parent
  let s ← rbSubstitute s old node
  return (s, child, parent, color)

/-- `rb_erase`. -/
def rbErase (fuel : ℕ) (s : RbState P) (node : P) : Option (RbState P) := do
  let (s, child, parent, color) ←
    match (s.mem node).left, (s.mem node).right with
    | none, right => some (rbEraseOne s node right)
    | left, none => some (rbEraseOne s node left)
    | some _, some right => rbEraseTwo fuel s node right
  if color = .black then rbEraseColor fuel s child parent else return s

/-- `RB_CLEAR_NODE`. -/
def rbClearNode (s : RbState P) (node : P) : RbState P := s.setParent node (some node)

end Model

end Fru1tOs
