import Fru1tOs.Lib.Loop

/-!
# The B-tree

The B-tree of order 5 of `btree.c`, which indexes i-nodes by their number and files
by the hash of their name.

A node is `struct btree_node`, sixteen words of 32 bits in the order of the
declaration: `num_keys`, `keys[4]`, `values[4]`, `children[5]`, `parent` and `is_leaf`.
An index past the end of an array is thus in the next field, as in the source. Such
an access is remembered (`inBounds`). A pointer is an address, and zero is `NULL`;
following it makes the operation fail (`none`). The answers of `kmalloc` are given by
`fresh`; zero is a failure. The loops and recursions along a path of the tree are
bounded by `fuel`, and fail when it is used up.
-/

namespace Fru1tOs

/-- `BTREE_ORDER`. -/
abbrev btreeOrder : ℕ := 5

/-- `BTREE_MIN_KEYS`. -/
abbrev btreeMinKeys : ℕ := (btreeOrder - 1) / 2

/-- `BTREE_MAX_KEYS`. -/
abbrev btreeMaxKeys : ℕ := btreeOrder - 1

/-- The arrays in `struct btree_node`. -/
inductive NodeArray
  | keys
  | values
  | children
  deriving DecidableEq, Repr

namespace NodeArray

/-- The number of elements. -/
def capacity : NodeArray → ℕ
  | keys => btreeMaxKeys
  | values => btreeMaxKeys
  | children => btreeOrder

/-- The word of the element 0. -/
def base : NodeArray → ℕ
  | keys => 1
  | values => 1 + btreeMaxKeys
  | children => 1 + btreeMaxKeys + btreeMaxKeys

end NodeArray

/-- The word of `num_keys`. -/
abbrev numKeysWord : ℕ := 0

/-- The word of `parent`. -/
abbrev parentWord : ℕ := NodeArray.children.base + btreeOrder

/-- The word of `is_leaf`. -/
abbrev isLeafWord : ℕ := parentWord + 1

/-- The memory of the nodes, by their address and the word, with the answers of `kmalloc`,
    of which the first `calls` were used, and whether all array accesses were in bounds. -/
structure BtreeMem where
  words : ℕ → ℕ → ℕ
  fresh : ℕ → ℕ
  calls : ℕ
  inBounds : Bool

/-- `struct btree`. -/
structure Btree where
  root : ℕ
  height : ℤ
  numNodes : ℤ
  deriving DecidableEq, Repr

/-- The memory with other words in the node `p`. -/
def BtreeMem.setNode (s : BtreeMem) (p : ℕ) (w : ℕ → ℕ) : BtreeMem :=
  { s with words := Function.update s.words p w }

/-- The memory after an array access, in bounds or not. -/
def BtreeMem.access (s : BtreeMem) (ok : Bool) : BtreeMem :=
  { s with inBounds := s.inBounds && ok }

/-- Operations on the memory of the nodes. -/
abbrev BtreeM := StateT BtreeMem Option

/-! ## Fields -/

/-- The word `i` of `struct btree_node` at `p`. -/
def loadWord (p i : ℕ) : BtreeM ℕ := fun s => if p = 0 then none else some (s.words p i, s)

/-- Set the word `i` of `struct btree_node` at `p`. -/
def storeWord (p i v : ℕ) : BtreeM Unit := fun s =>
  if p = 0 then none else some ((), s.setNode p (Function.update (s.words p) i v))

/-- Remember whether an array access is in bounds. -/
def logAccess (ok : Bool) : BtreeM Unit := fun s => some ((), s.access ok)

/-- `p->a[i]`. -/
def getAt (a : NodeArray) (p i : ℕ) : BtreeM ℕ := do
  logAccess (i < a.capacity)
  loadWord p (a.base + i)

/-- `p->a[i] = v`. -/
def setAt (a : NodeArray) (p i v : ℕ) : BtreeM Unit := do
  logAccess (i < a.capacity)
  storeWord p (a.base + i) v

/-- `dst->a[j] = src->a[i]`. -/
def copyAt (a : NodeArray) (dst j src i : ℕ) : BtreeM Unit := do
  setAt a dst j (← getAt a src i)

/-- `p->num_keys`. -/
def numKeys (p : ℕ) : BtreeM ℕ := loadWord p numKeysWord

/-- `p->num_keys = n`. -/
def setNumKeys (p n : ℕ) : BtreeM Unit := storeWord p numKeysWord n

/-- `p->is_leaf`. -/
def isLeaf (p : ℕ) : BtreeM ℕ := loadWord p isLeafWord

/-- `p->parent = v`. -/
def setParent (p v : ℕ) : BtreeM Unit := storeWord p parentWord v

/-- The next answer of `kmalloc`. -/
def kmallocNode : BtreeM ℕ := fun s => some (s.fresh s.calls, { s with calls := s.calls + 1 })

/-! ## Nodes and search -/

/-- `btree_init`. -/
def btreeInit : Btree := ⟨0, 0, 0⟩

/-- `btree_node_create`. -/
def btreeNodeCreate (isLeaf : ℕ) : BtreeM ℕ := do
  let node ← kmallocNode
  if node = 0 then return 0
  setNumKeys node 0
  storeWord node isLeafWord isLeaf
  setParent node 0
  (List.range btreeMaxKeys).forM fun i => do
    setAt .keys node i 0
    setAt .values node i 0
  (List.range btreeOrder).forM fun i => setAt .children node i 0
  return node

/-- The loop of `find_key_index` with `n` keys to go: the index of the first key, from `i` on,
    that is not smaller than `key`. -/
def findFrom (node key : ℕ) : ℕ → ℕ → BtreeM ℕ
  | 0, i => return i
  | n + 1, i => do
    if (← getAt .keys node i) < key then findFrom node key n (i + 1)
    else return i

/-- `find_key_index`. The loop is the one of `btree_search` too. -/
def findKeyIndex (node key : ℕ) : BtreeM ℕ := do
  findFrom node key (← numKeys node) 0

/-- The loop of `btree_search`. -/
def btreeSearchFrom (key : ℕ) : ℕ → ℕ → BtreeM ℕ
  | 0, _ => failure
  | fuel + 1, node => do
    if node = 0 then return 0
    let i ← findKeyIndex node key
    if i < (← numKeys node) then
      if key = (← getAt .keys node i) then return ← getAt .values node i
    if (← isLeaf node) ≠ 0 then return 0
    btreeSearchFrom key fuel (← getAt .children node i)

/-- `btree_search`. -/
def btreeSearch (fuel : ℕ) (tree : Btree) (key : ℕ) : BtreeM ℕ := btreeSearchFrom key fuel tree.root

/-! ## Insertion -/

/-- `btree_split_child`. -/
def btreeSplitChild (parent index child : ℕ) : BtreeM Unit := do
  let new ← btreeNodeCreate (← isLeaf child)
  if new = 0 then return
  setNumKeys new btreeMinKeys
  (List.range btreeMinKeys).forM fun i => do
    copyAt .keys new i child (i + btreeMinKeys + 1)
    copyAt .values new i child (i + btreeMinKeys + 1)
  if (← isLeaf child) = 0 then
    (List.range (btreeMinKeys + 1)).forM fun i => do
      copyAt .children new i child (i + btreeMinKeys + 1)
      let c ← getAt .children new i
      if c ≠ 0 then setParent c new
  setNumKeys child btreeMinKeys
  -- Make room in the parent for the new child, and then for the middle key. The loops go down.
  let n ← numKeys parent
  (List.range' (index + 1) (n - index)).reverse.forM fun i =>
    copyAt .children parent (i + 1) parent i
  setAt .children parent (index + 1) new
  setParent new parent
  (List.range' index (n - index)).reverse.forM fun i => do
    copyAt .keys parent (i + 1) parent i
    copyAt .values parent (i + 1) parent i
  copyAt .keys parent index child btreeMinKeys
  copyAt .values parent index child btreeMinKeys
  setNumKeys parent (n + 1)

/-- The loop of `btree_insert_non_full` in a leaf: the keys before `i` that are greater than
    `key` move up by one. The place for the key is returned. -/
def shiftUp (node key : ℕ) : ℕ → BtreeM ℕ
  | 0 => return 0
  | i + 1 => do
    if key < (← getAt .keys node i) then
      copyAt .keys node (i + 1) node i
      copyAt .values node (i + 1) node i
      shiftUp node key i
    else return i + 1

/-- The loop of `btree_insert_non_full` in an inner node: the index of the child for `key`, that
    is, past the last key before `i` that is not greater. -/
def findChild (node key : ℕ) : ℕ → BtreeM ℕ
  | 0 => return 0
  | i + 1 => do
    if key < (← getAt .keys node i) then findChild node key i
    else return i + 1

/-- `btree_insert_non_full`. -/
def btreeInsertNonFull : ℕ → ℕ → ℕ → ℕ → BtreeM Unit
  | 0, _, _, _ => failure
  | fuel + 1, node, key, value => do
    let n ← numKeys node
    if (← isLeaf node) ≠ 0 then
      let i ← shiftUp node key n
      setAt .keys node i key
      setAt .values node i value
      setNumKeys node (n + 1)
    else
      let mut i ← findChild node key n
      let child ← getAt .children node i
      if (← numKeys child) = btreeMaxKeys then
        btreeSplitChild node i child
        if key > (← getAt .keys node i) then
          i := i + 1
      btreeInsertNonFull fuel (← getAt .children node i) key value

/-- `btree_insert`. -/
def btreeInsert (fuel : ℕ) (tree : Btree) (key value : ℕ) : BtreeM (ℤ × Btree) := do
  if (← btreeSearch fuel tree key) ≠ 0 then return (-1, tree)
  if tree.root = 0 then
    let root ← btreeNodeCreate 1
    if root = 0 then return (-1, tree)
    setAt .keys root 0 key
    setAt .values root 0 value
    setNumKeys root 1
    return (0, ⟨root, 1, 1⟩)
  let mut tree := tree
  if (← numKeys tree.root) = btreeMaxKeys then
    let root ← btreeNodeCreate 0
    if root = 0 then return (-1, tree)
    setAt .children root 0 tree.root
    setParent tree.root root
    btreeSplitChild root 0 tree.root
    tree := { tree with root := root, height := tree.height + 1 }
  btreeInsertNonFull fuel tree.root key value
  return (0, { tree with numNodes := tree.numNodes + 1 })

/-! ## Deletion and traversal -/

/-- `delete_leaf_node`. -/
def deleteLeafNode (node key : ℕ) : BtreeM Unit := do
  let i ← findKeyIndex node key
  let n ← numKeys node
  if i < n then
    if (← getAt .keys node i) = key then
      (List.range' i (n - 1 - i)).forM fun j => do
        copyAt .keys node j node (j + 1)
        copyAt .values node j node (j + 1)
      setNumKeys node (n - 1)

/-- The loop of `btree_delete`. -/
def btreeDeleteFrom (tree : Btree) (key : ℕ) : ℕ → ℕ → BtreeM (ℤ × Btree)
  | 0, _ => failure
  | fuel + 1, node => do
    if node = 0 then return (-1, tree)
    let i ← findKeyIndex node key
    if i < (← numKeys node) then
      if (← getAt .keys node i) = key then
        if (← isLeaf node) ≠ 0 then
          deleteLeafNode node key
          return (0, { tree with numNodes := tree.numNodes - 1 })
        -- Deletion from an inner node is not implemented.
        return (-1, tree)
    if (← isLeaf node) ≠ 0 then return (-1, tree)
    btreeDeleteFrom tree key fuel (← getAt .children node i)

/-- `btree_delete`. -/
def btreeDelete (fuel : ℕ) (tree : Btree) (key : ℕ) : BtreeM (ℤ × Btree) :=
  btreeDeleteFrom tree key fuel tree.root

/-- `traverse_recursive`: the entries that the callback is called with, in turn. -/
def traverseRecursive : ℕ → ℕ → BtreeM (List (ℕ × ℕ))
  | 0, _ => failure
  | fuel + 1, node => do
    if node = 0 then return []
    let n ← numKeys node
    let leaf ← isLeaf node
    let parts ← (List.range n).mapM fun i => do
      let child ← if leaf = 0 then traverseRecursive fuel (← getAt .children node i) else pure []
      return child ++ [(← getAt .keys node i, ← getAt .values node i)]
    let last ← if leaf = 0 then traverseRecursive fuel (← getAt .children node n) else pure []
    return parts.flatten ++ last

/-- `btree_traverse`. -/
def btreeTraverse (fuel : ℕ) (tree : Btree) : BtreeM (List (ℕ × ℕ)) :=
  traverseRecursive fuel tree.root

end Fru1tOs
