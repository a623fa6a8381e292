import Fru1tOs.Btree.Delete
import Fru1tOs.Inode.Basic

/-!
# Files by their names

The file system of `inode.c` as its users see it: files that are created, opened, read,
written and deleted by their names. Two B-trees lead to the i-nodes. The one has them by
their numbers, the other by the hashes of the names of the files. The names are not kept.

The trees have pointers to i-nodes, so the table of the i-nodes has an address, `base`.
A word that points to no i-node makes the operation fail.

* `WellFormed`: the entries of the two trees are those of the files.
* `delete_run`: what `btree_fs_delete` does to the trees, whatever their shape.
-/

namespace Fru1tOs

open Lib MultiTree

/-- `MAX_FILENAME_LEN`. -/
abbrev maxFilenameLen : ℕ := 64

/-- The trees in `struct btree_filesystem`, with the memory of their nodes. -/
structure TreeIndex where
  inodeTree : Btree
  nameTree : Btree
  mem : BtreeMem

/-- The file system with its trees. -/
abbrev TreeFs := InodeFs TreeIndex

/-- Operations on the file system. -/
abbrev TreeFsM := StateT TreeFs Option

/-- The name of a file, without the zero at the end. -/
abbrev FsName := List UInt8

/-- `hash_string`. -/
def hashString (str : FsName) : ℕ :=
  str.foldl (fun hash c => wrap32 (hash * 33 + c.toNat)) 5381

/-! ## Pointers to i-nodes -/

/-- `sizeof(struct inode)`. -/
abbrev sizeofInode : ℕ := 88

/-- `&fs->inodes[i]`. -/
def inodeAddr (base : ℕ) (i : InodePtr) : ℕ := base + sizeofInode * i

/-- The i-node at an address. -/
def inodeAt (base a : ℕ) : Option InodePtr :=
  (List.finRange maxInodeCount).find? fun i => inodeAddr base i = a

theorem inodeAddr_injective (base : ℕ) : Function.Injective (inodeAddr base) := fun i j h => by
  have : base + 88 * (i : ℕ) = base + 88 * j := h
  exact Fin.ext (by omega)

theorem inodeAddr_ne_zero {base : ℕ} (hbase : base ≠ 0) (i : InodePtr) : inodeAddr base i ≠ 0 :=
  fun h => hbase (Nat.eq_zero_of_add_eq_zero_right h)

@[simp] theorem inodeAt_inodeAddr (base : ℕ) (i : InodePtr) :
    inodeAt base (inodeAddr base i) = some i := by
  obtain ⟨j, hj⟩ := Option.isSome_iff_exists.1 (List.find?_isSome
    (p := fun j => inodeAddr base j = inodeAddr base i) |>.2 ⟨i, List.mem_finRange i, by simp⟩)
  have heq : inodeAddr base j = inodeAddr base i := by simpa using List.find?_some hj
  rw [inodeAt, hj, inodeAddr_injective base heq]

/-- A pointer to an i-node in a tree. -/
def toInode (base a : ℕ) : TreeFsM (Option InodePtr) :=
  if a = 0 then return none
  else match inodeAt base a with
    | some i => return some i
    | none => failure

/-! ## The operations -/

section Model

variable (base fuel : ℕ)

/-- The calls for the tree of the i-nodes. -/
def treeIndex : Index TreeIndex where
  insert ix num i := do
    let ((_, tree), mem) ← (btreeInsert fuel ix.inodeTree num (inodeAddr base i)).run ix.mem
    return { ix with inodeTree := tree, mem := mem }
  delete ix num := do
    let ((_, tree), mem) ← (btreeDelete fuel ix.inodeTree num).run ix.mem
    return { ix with inodeTree := tree, mem := mem }

/-- `btree_search(&fs->name_tree, hash)`. -/
def nameSearch (hash : ℕ) : TreeFsM (Option InodePtr) := do
  let fs ← get
  let (a, mem) ← (btreeSearch fuel fs.index.nameTree hash).run fs.index.mem
  set { fs with index := { fs.index with mem := mem } }
  toInode base a

/-- `btree_insert(&fs->name_tree, hash, inode)`. -/
def nameInsert (hash : ℕ) (inode : InodePtr) : TreeFsM Unit := do
  let fs ← get
  let ((_, tree), mem) ←
    (btreeInsert fuel fs.index.nameTree hash (inodeAddr base inode)).run fs.index.mem
  set { fs with index := { fs.index with nameTree := tree, mem := mem } }

/-- `btree_delete(&fs->name_tree, hash)`. -/
def nameDelete (hash : ℕ) : TreeFsM Unit := do
  let fs ← get
  let ((_, tree), mem) ← (btreeDelete fuel fs.index.nameTree hash).run fs.index.mem
  set { fs with index := { fs.index with nameTree := tree, mem := mem } }

/-- `inode_get`. -/
def inodeGet (inodeNum : ℕ) : TreeFsM (Option InodePtr) := do
  let fs ← get
  let (a, mem) ← (btreeSearch fuel fs.index.inodeTree inodeNum).run fs.index.mem
  set { fs with index := { fs.index with mem := mem } }
  toInode base a

/-- `btree_fs_create`, for a file that does not exist. -/
def createFile (hash type : ℕ) : TreeFsM ℤ := do
  match ← (fun fs => inodeAlloc (treeIndex base fuel) fs type : TreeFsM (Option InodePtr)) with
  | none => return -1
  | some inode =>
    nameInsert base fuel hash inode
    return ((← get).inodes inode).inodeNum

/-- `btree_fs_create`. -/
def btreeFsCreate (filename : FsName) (type : ℕ) : TreeFsM ℤ := do
  if filename.length ≥ maxFilenameLen then return -1
  let hash := hashString filename
  match ← nameSearch base fuel hash with
  | some _ => return -1
  | none => createFile base fuel hash type

/-- `btree_fs_open`. -/
def btreeFsOpen (filename : FsName) : TreeFsM ℤ := do
  match ← nameSearch base fuel (hashString filename) with
  | none => return -1
  | some inode => return ((← get).inodes inode).inodeNum

/-- `btree_fs_read`: the result, and the bytes that are written to the buffer. -/
def btreeFsRead (filename : FsName) (size : ℕ) : TreeFsM (ℤ × List UInt8) := do
  let inodeNum ← btreeFsOpen base fuel filename
  if inodeNum < 0 then return (-1, [])
  match ← inodeGet base fuel inodeNum.toNat with
  | none => return (-1, [])
  | some inode =>
    let bytes ← inodeRead (← get) (some inode) 0 size
    return (bytes.length, bytes)

/-- `btree_fs_write`. -/
def btreeFsWrite (filename : FsName) (data : ℕ → UInt8) (size : ℕ) : TreeFsM ℤ := do
  let inodeNum ← btreeFsOpen base fuel filename
  if inodeNum < 0 then return -1
  match ← inodeGet base fuel inodeNum.toNat with
  | none => return -1
  | some inode =>
    let (n, fs) ← inodeWrite (← get) (some inode) (some data) 0 size
    set fs
    return n

/-- `btree_fs_delete`. -/
def btreeFsDelete (filename : FsName) : TreeFsM ℤ := do
  let hash := hashString filename
  match ← nameSearch base fuel hash with
  | none => return -1
  | some inode =>
    nameDelete fuel hash
    set (← inodeFree (treeIndex base fuel) (← get) (some inode))
    return 0

end Model

/-! ## The trees and what is in them -/

section Trees

variable {base fuel : ℕ} {fs fs' : TreeFs} {it nt : Option (MultiTree ℕ ℕ ℕ .tree)}

/-- The trees of the file system are `it` and `nt`, which have no node in common. -/
structure HoldsTrees (ix : TreeIndex) (it nt : Option (MultiTree ℕ ℕ ℕ .tree)) : Prop where
  inodes : HoldsTree ix.mem.words ix.inodeTree.root it
  names : HoldsTree ix.mem.words ix.nameTree.root nt
  disjoint : ∀ q ∈ treeNames it, q ∉ treeNames nt

/-- The values of the entries are pointers to i-nodes. -/
def Points (base : ℕ) (l : List (ℕ × ℕ)) : Prop := ∀ e ∈ l, ∃ i, e.2 = inodeAddr base i

/-- The i-node that the entry of the key points to. -/
def pointee (base : ℕ) (l : List (ℕ × ℕ)) (key : ℕ) : Option InodePtr :=
  (l.lookup key).bind (inodeAt base)

/-- A pointer that was searched for. -/
theorem run_toInode (hbase : base ≠ 0) {l : List (ℕ × ℕ)} (hl : Points base l) (key : ℕ)
    (fs : TreeFs) :
    (toInode base ((l.lookup key).getD 0)).run fs = some (pointee base l key, fs) := by
  rw [pointee]
  rcases hlook : l.lookup key with _ | a
  · rfl
  · obtain ⟨i, rfl⟩ := hl _ (mem_of_lookup hlook)
    rw [Option.getD_some, Option.bind_some, toInode, if_neg (inodeAddr_ne_zero hbase i),
      inodeAt_inodeAddr]
    rfl

theorem HoldsTrees.run_nameSearch (h : HoldsTrees fs.index it nt) (hbase : base ≠ 0)
    (hp : Points base (treeList nt)) (hfuel : treeHeight nt < fuel) (hash : ℕ) :
    (nameSearch base fuel hash).run fs = some (pointee base (treeList nt) hash, fs) := by
  rw [← run_toInode hbase hp hash fs, nameSearch]
  simp only [StateT.run_bind, StateT.run_get, Option.pure_def, Option.bind_eq_bind,
    Option.bind_some, StateT.run_monadLift, monadLift_self, h.names.search hfuel, StateT.run_set]

theorem HoldsTrees.run_inodeGet (h : HoldsTrees fs.index it nt) (hbase : base ≠ 0)
    (hp : Points base (treeList it)) (hfuel : treeHeight it < fuel) (num : ℕ) :
    (inodeGet base fuel num).run fs = some (pointee base (treeList it) num, fs) := by
  rw [← run_toInode hbase hp num fs, inodeGet]
  simp only [StateT.run_bind, StateT.run_get, Option.pure_def, Option.bind_eq_bind,
    Option.bind_some, StateT.run_monadLift, monadLift_self, h.inodes.search hfuel, StateT.run_set]

/-- What `btree_fs_open` returns. -/
def openResult (fs : TreeFs) : Option InodePtr → ℤ
  | none => -1
  | some i => (fs.inodes i).inodeNum

theorem HoldsTrees.run_btreeFsOpen (h : HoldsTrees fs.index it nt) (hbase : base ≠ 0)
    (hp : Points base (treeList nt)) (hfuel : treeHeight nt < fuel) (filename : FsName) :
    (btreeFsOpen base fuel filename).run fs =
      some (openResult fs (pointee base (treeList nt) (hashString filename)), fs) := by
  rw [btreeFsOpen, StateT.run_bind, h.run_nameSearch hbase hp hfuel]
  rcases pointee base (treeList nt) (hashString filename) with _ | i
  · rfl
  · rfl

/-! ## Deletion -/

theorem HoldsTrees.run_nameDelete (h : HoldsTrees fs.index it nt) (hfuel : treeHeight nt < fuel)
    (hash : ℕ) : ∃ ix, (nameDelete fuel hash).run fs = some ((), { fs with index := ix }) ∧
      HoldsTrees ix it (treeErase hash nt) := by
  obtain ⟨m, r, tree, hrun, hroot, hholds, hframe⟩ := h.names.delete hfuel hash
  refine ⟨{ fs.index with nameTree := tree, mem := fs.index.mem.withWords m }, ?_,
    h.inodes.congr fun q hq => hframe q (h.disjoint q hq), ?_, fun q hq => ?_⟩
  · rw [nameDelete]
    simp only [StateT.run_bind, StateT.run_get, Option.pure_def, Option.bind_eq_bind,
      Option.bind_some, StateT.run_monadLift, monadLift_self, hrun, StateT.run_set]
  · rw [hroot]
    exact hholds
  · rw [treeNames_erase]
    exact h.disjoint q hq

theorem HoldsTrees.treeIndex_delete {ix : TreeIndex} (h : HoldsTrees ix it nt)
    (hfuel : treeHeight it < fuel) (base num : ℕ) :
    ∃ ix', (treeIndex base fuel).delete ix num = some ix' ∧
      HoldsTrees ix' (treeErase num it) nt := by
  obtain ⟨m, r, tree, hrun, hroot, hholds, hframe⟩ := h.inodes.delete hfuel num
  refine ⟨{ ix with inodeTree := tree, mem := ix.mem.withWords m }, ?_, ?_,
    h.names.congr fun q hq => hframe q fun hq' => h.disjoint q hq' hq, fun q hq => ?_⟩
  · simp only [treeIndex, hrun, Option.bind_eq_bind, Option.bind_some, Option.pure_def]
  · rw [hroot]
    exact hholds
  · rw [treeNames_erase] at hq
    exact h.disjoint q hq

/-- The loop of `inode_free` only changes what is said about blocks. -/
theorem foldl_blockFree {ι : Type} (node : Inode) (l : List (Fin directBlockCount))
    (fs : InodeFs ι) : ∃ bitmap n, l.foldl (fun fs (k : Fin directBlockCount) =>
      if k < node.blockCount ∧ node.directBlocks k > 0 then blockFree fs (node.directBlocks k)
      else fs) fs = { fs with blockBitmap := bitmap, freeBlocks := n } := by
  induction l generalizing fs with
  | nil => exact ⟨fs.blockBitmap, fs.freeBlocks, rfl⟩
  | cons k l ih =>
    rw [List.foldl_cons]
    split_ifs
    · rw [blockFree]
      split_ifs
      · exact ih fs
      · exact ih _
    · exact ih fs

/-- `inode_free` of an i-node in use, when the call to the index returns. -/
theorem inodeFree_run {ι : Type} {idx : Index ι} {fs : InodeFs ι} {p : InodePtr} {ix : ι}
    (hp : (fs.inodes p).inUse = true)
    (hdel : idx.delete fs.index (fs.inodes p).inodeNum = some ix) :
    ∃ bitmap n, inodeFree idx fs (some p) = some { fs with
      index := ix
      inodes := Function.update fs.inodes p { fs.inodes p with inUse := false }
      blockBitmap := bitmap
      freeBlocks := n
      inodeBitmap := fs.inodeBitmap.clear (fs.inodes p).inodeNum
      freeInodes := fs.freeInodes + 1 } := by
  obtain ⟨bitmap, n, heq⟩ := foldl_blockFree (fs.inodes p) (List.finRange directBlockCount) fs
  refine ⟨bitmap, n, ?_⟩
  simp only [inodeFree, hp, Bool.true_eq_false, if_false, heq, hdel, Option.bind_eq_bind,
    Option.bind_some, Option.pure_def]
  rfl

/-- What `btree_fs_delete` does to the trees, whatever their shape: the entries in leaves are
    removed. -/
theorem HoldsTrees.run_btreeFsDelete (h : HoldsTrees fs.index it nt) (hbase : base ≠ 0)
    (hp : Points base (treeList nt)) (hfuel : treeHeight nt < fuel) (hfuel' : treeHeight it < fuel)
    {filename : FsName} {i : InodePtr}
    (hi : pointee base (treeList nt) (hashString filename) = some i)
    (huse : (fs.inodes i).inUse = true) :
    ∃ ix bitmap n, (btreeFsDelete base fuel filename).run fs = some (0, { fs with
      index := ix
      inodes := Function.update fs.inodes i { fs.inodes i with inUse := false }
      blockBitmap := bitmap
      freeBlocks := n
      inodeBitmap := fs.inodeBitmap.clear (fs.inodes i).inodeNum
      freeInodes := fs.freeInodes + 1 }) ∧
      HoldsTrees ix (treeErase (fs.inodes i).inodeNum it) (treeErase (hashString filename) nt) := by
  obtain ⟨ix₁, hrun₁, h₁⟩ := h.run_nameDelete hfuel (hashString filename)
  obtain ⟨ix₂, hrun₂, h₂⟩ :=
    h₁.treeIndex_delete hfuel' base (fs.inodes i).inodeNum
  obtain ⟨bitmap, n, hfree⟩ :=
    inodeFree_run (show (({ fs with index := ix₁ } : TreeFs).inodes i).inUse = true from huse) hrun₂
  refine ⟨ix₂, bitmap, n, ?_, h₂⟩
  rw [btreeFsDelete, StateT.run_bind, h.run_nameSearch hbase hp hfuel, hi]
  simp only [StateT.run_bind, hrun₁, StateT.run_get, Option.pure_def, Option.bind_eq_bind,
    Option.bind_some, StateT.run_monadLift, monadLift_self, hfree, StateT.run_set, StateT.run_pure]

/-! ## Well-formed states -/

variable {files : FsName → Option InodePtr}

/-- The state is that of a file system with the given files: the trees have an entry for each of
    them, by the number of its i-node and by the hash of its name, and no others. -/
structure WellFormed (base : ℕ) (fs : TreeFs) (it nt : Option (MultiTree ℕ ℕ ℕ .tree))
    (files : FsName → Option InodePtr) : Prop where
  trees : HoldsTrees fs.index it nt
  inodes : ∀ e, e ∈ treeList it ↔ ∃ n i, files n = some i ∧ e = (i.val, inodeAddr base i)
  names : ∀ e, e ∈ treeList nt ↔ ∃ n i, files n = some i ∧ e = (hashString n, inodeAddr base i)
  inUse : ∀ n i, files n = some i → (fs.inodes i).inUse = true
  num : ∀ n i, files n = some i → (fs.inodes i).inodeNum = i
  inj : ∀ n n' i, files n = some i → files n' = some i → n = n'

theorem WellFormed.points_inodes (h : WellFormed base fs it nt files) :
    Points base (treeList it) := fun e he => by
  obtain ⟨n, i, -, rfl⟩ := (h.inodes e).1 he
  exact ⟨i, rfl⟩

theorem WellFormed.points_names (h : WellFormed base fs it nt files) :
    Points base (treeList nt) := fun e he => by
  obtain ⟨n, i, -, rfl⟩ := (h.names e).1 he
  exact ⟨i, rfl⟩

/-- The i-node that is found by an entry. -/
theorem pointee_of_mem {l : List (ℕ × ℕ)} (hl : l.Pairwise fun e e' => e.1 < e'.1) {key : ℕ}
    {i : InodePtr} (he : (key, inodeAddr base i) ∈ l) : pointee base l key = some i := by
  rw [pointee, lookup_of_mem hl he, Option.bind_some, inodeAt_inodeAddr]

theorem pointee_eq_none {l : List (ℕ × ℕ)} {key : ℕ} (h : ∀ e ∈ l, e.1 ≠ key) :
    pointee base l key = none := by
  rw [pointee, lookup_eq_none h, Option.bind_none]

/-- A file is found by the hash of its name. -/
theorem WellFormed.pointee_name (h : WellFormed base fs it nt files) {n : FsName}
    {i : InodePtr} (hn : files n = some i) :
    pointee base (treeList nt) (hashString n) = some i :=
  pointee_of_mem h.trees.names.pairwise ((h.names _).2 ⟨n, i, hn, rfl⟩)

/-- An i-node is found by its number. -/
theorem WellFormed.pointee_inode (h : WellFormed base fs it nt files) {n : FsName}
    {i : InodePtr} (hn : files n = some i) : pointee base (treeList it) i = some i :=
  pointee_of_mem h.trees.inodes.pairwise ((h.inodes _).2 ⟨n, i, hn, rfl⟩)

/-- Files have different hashes. -/
theorem WellFormed.hash_inj (h : WellFormed base fs it nt files) {n n' : FsName}
    {i i' : InodePtr} (hn : files n = some i) (hn' : files n' = some i')
    (heq : hashString n = hashString n') : n = n' := by
  have hi := h.pointee_name hn
  rw [heq, h.pointee_name hn', Option.some_inj] at hi
  exact h.inj n n' i hn (hi ▸ hn')

/-! ## What a deletion has to do -/

/-- `btree_fs_delete` returns, and if it returns 0, then the file is gone, by its name and by the
    number of its i-node, the other files are still there, and the entries of both trees
    point to i-nodes in use. -/
def DeletesRight (base fuel : ℕ) (files : FsName → Option InodePtr) (filename : FsName)
    (fs : TreeFs) : Prop :=
  ∃ r fs', (btreeFsDelete base fuel filename).run fs = some (r, fs') ∧ (r = 0 →
    (btreeFsOpen base fuel filename).run' fs' = some (-1) ∧
    (∀ num, (btreeFsOpen base fuel filename).run' fs = some num →
      (inodeGet base fuel num.toNat).run' fs' = some none) ∧
    (∀ n i, n ≠ filename → files n = some i → (btreeFsOpen base fuel n).run' fs' = some (i : ℤ) ∧
      (inodeGet base fuel i).run' fs' = some (some i)) ∧
    ∀ tree ∈ [fs'.index.inodeTree, fs'.index.nameTree], ∃ es,
      (btreeTraverse fuel tree).run' fs'.index.mem = some es ∧
        ∀ e ∈ es, ∃ i, inodeAt base e.2 = some i ∧ (fs'.inodes i).inUse = true)

theorem run'_eq_map {σ α : Type} (op : StateT σ Option α) (s : σ) :
    op.run' s = (op.run s).map Prod.fst := rfl

theorem run'_eq_some {σ α : Type} {op : StateT σ Option α} {s s' : σ} {a : α}
    (h : op.run s = some (a, s')) : op.run' s = some a := by
  rw [run'_eq_map, h, Option.map_some]

/-- The entries of a tree after a deletion. -/
theorem mem_treeList_erase {o : Option (MultiTree ℕ ℕ ℕ .tree)} {s : BtreeMem} {tree : Btree}
    (h : HoldsTree s.words tree.root o) {key : ℕ} {e : ℕ × ℕ} :
    e ∈ treeList (treeErase key o) ↔ e ∈ treeList o ∧ (key ∈ treeLeafKeys o → e.1 ≠ key) := by
  by_cases hkey : key ∈ treeLeafKeys o
  · rw [treeList_erase h hkey, List.mem_filter, decide_eq_true_iff]
    exact and_congr_right fun _ => ⟨fun h _ => h, fun h => h hkey⟩
  · rw [treeErase_eq_self hkey]
    exact ⟨fun he => ⟨he, fun hkey' => absurd hkey' hkey⟩, And.left⟩

theorem points_erase {o : Option (MultiTree ℕ ℕ ℕ .tree)} {s : BtreeMem} {tree : Btree}
    (h : HoldsTree s.words tree.root o) (hp : Points base (treeList o)) (key : ℕ) :
    Points base (treeList (treeErase key o)) := fun e he =>
  hp e ((mem_treeList_erase h).1 he).1

/-- The key of the entry of a file, after the deletion of a key that is in a leaf. -/
theorem pointee_erase_self {o : Option (MultiTree ℕ ℕ ℕ .tree)} {s : BtreeMem} {tree : Btree}
    (h : HoldsTree s.words tree.root o) {key : ℕ} (hkey : key ∈ treeLeafKeys o) :
    pointee base (treeList (treeErase key o)) key = none :=
  pointee_eq_none fun _ he => ((mem_treeList_erase h).1 he).2 hkey

/-- Another key. -/
theorem pointee_erase_of_ne {o : Option (MultiTree ℕ ℕ ℕ .tree)} {s : BtreeMem} {tree : Btree}
    (h : HoldsTree s.words tree.root o) {key key' : ℕ} (hne : key' ≠ key) :
    pointee base (treeList (treeErase key o)) key' = pointee base (treeList o) key' := by
  by_cases hkey : key ∈ treeLeafKeys o
  · rw [pointee, pointee, treeList_erase h hkey, lookup_filter_of_ne hne]
  · rw [treeErase_eq_self hkey]

/-- The condition under which `btree_fs_delete` does what it has to: there is no entry for the hash,
    or else the file exists and its entries are both in leaves. -/
def Deletable (it nt : Option (MultiTree ℕ ℕ ℕ .tree)) (files : FsName → Option InodePtr)
    (filename : FsName) : Prop :=
  (∀ e ∈ treeList nt, e.1 ≠ hashString filename) ∨
  ∃ i, files filename = some i ∧ hashString filename ∈ treeLeafKeys nt ∧ i.val ∈ treeLeafKeys it

/-- The state `fs'` after a deletion that found the i-node `i`, and what is found there. -/
structure Deleted (base fuel : ℕ) (it nt : Option (MultiTree ℕ ℕ ℕ .tree)) (filename : FsName)
    (i : InodePtr) (fs fs' : TreeFs) : Prop where
  run : (btreeFsDelete base fuel filename).run fs = some (0, fs')
  trees : HoldsTrees fs'.index (treeErase i it) (treeErase (hashString filename) nt)
  inodes : fs'.inodes = Function.update fs.inodes i { fs.inodes i with inUse := false }
  fsOpen : ∀ name, (btreeFsOpen base fuel name).run' fs' = some (openResult fs'
    (pointee base (treeList (treeErase (hashString filename) nt)) (hashString name)))
  get : ∀ num, (inodeGet base fuel num).run' fs' =
    some (pointee base (treeList (treeErase i it)) num)
  /-- What was found before. -/
  before : (btreeFsOpen base fuel filename).run' fs = some (i : ℤ)

/-- A deletion of a name whose hash is that of a file. -/
theorem WellFormed.run_delete (hbase : base ≠ 0) (h : WellFormed base fs it nt files)
    (hfuel : treeHeight nt < fuel) (hfuel' : treeHeight it < fuel) {n filename : FsName}
    {i : InodePtr} (hn : files n = some i) (hkey : hashString n = hashString filename) :
    ∃ fs', Deleted base fuel it nt filename i fs fs' := by
  have hi : pointee base (treeList nt) (hashString filename) = some i := hkey ▸ h.pointee_name hn
  have hnum := h.num n i hn
  obtain ⟨ix, bitmap, k, hrun, htrees⟩ :=
    h.trees.run_btreeFsDelete hbase h.points_names hfuel hfuel' hi (h.inUse n i hn)
  rw [hnum] at hrun htrees
  have hbefore := run'_eq_some (h.trees.run_btreeFsOpen hbase h.points_names hfuel filename)
  rw [hi, openResult, hnum] at hbefore
  refine ⟨_, hrun, htrees, rfl, fun name => ?_, fun num => ?_, hbefore⟩
  · exact run'_eq_some (htrees.run_btreeFsOpen hbase
      (points_erase h.trees.names h.points_names _) (by rwa [treeHeight_erase]) name)
  · exact run'_eq_some (htrees.run_inodeGet hbase
      (points_erase h.trees.inodes h.points_inodes _) (by rwa [treeHeight_erase]) num)

/-- A deletion that does what it has to was of the file itself, with its entries in leaves. -/
theorem Deleted.leaves {filename : FsName} {i : InodePtr}
    (hd : Deleted base fuel it nt filename i fs fs')
    (h : WellFormed base fs it nt files) {n : FsName} (hn : files n = some i)
    (hkey : hashString n = hashString filename)
    (hright : DeletesRight base fuel files filename fs) :
    files filename = some i ∧ hashString filename ∈ treeLeafKeys nt ∧ i.val ∈ treeLeafKeys it := by
  obtain ⟨r, fs'', hrun, hright⟩ := hright
  obtain ⟨rfl, rfl⟩ := Prod.mk.inj (Option.some.inj (hd.run.symm.trans hrun))
  obtain ⟨hgone, hfreed, hothers, -⟩ := hright rfl
  rw [hd.fsOpen] at hgone
  have hleaf : hashString filename ∈ treeLeafKeys nt := by
    by_contra hnot
    rw [treeErase_eq_self hnot, ← hkey, h.pointee_name hn] at hgone
    exact absurd (Option.some.inj hgone) (by simp [openResult])
  have hleaf' : i.val ∈ treeLeafKeys it := by
    by_contra hnot
    have hnone := hfreed i hd.before
    rw [hd.get, treeErase_eq_self hnot, Int.toNat_natCast, h.pointee_inode hn] at hnone
    exact absurd hnone (by simp)
  -- The file that was found is the one with the name: another one would be lost.
  obtain rfl : n = filename := by
    by_contra hne
    have hfound := (hothers n i hne hn).1
    rw [hd.fsOpen, hkey, hgone] at hfound
    exact absurd (Option.some.inj hfound) (by omega)
  exact ⟨hn, hleaf, hleaf'⟩

/-- A deletion of a file whose entries are in leaves does what it has to. -/
theorem Deleted.right {n : FsName} {i : InodePtr} (hd : Deleted base fuel it nt n i fs fs')
    (h : WellFormed base fs it nt files)
    (hfuel : treeHeight nt < fuel) (hfuel' : treeHeight it < fuel) (hn : files n = some i)
    (hleaf : hashString n ∈ treeLeafKeys nt) (hleaf' : i.val ∈ treeLeafKeys it) :
    DeletesRight base fuel files n fs := by
  have hother : ∀ name j, files name = some j → name ≠ n → j ≠ i ∧
      fs'.inodes j = fs.inodes j := fun name j hj hne => by
    have hji : j ≠ i := fun heq => hne (h.inj name n i (heq ▸ hj) hn)
    exact ⟨hji, by rw [hd.inodes, Function.update_of_ne hji]⟩
  have huse : ∀ name j, files name = some j → name ≠ n →
      ∃ j', inodeAt base (inodeAddr base j) = some j' ∧ (fs'.inodes j').inUse = true :=
    fun name j hj hne => ⟨j, inodeAt_inodeAddr base j, by
      rw [(hother name j hj hne).2, h.inUse name j hj]⟩
  refine ⟨0, fs', hd.run, fun _ => ⟨?_, fun num hnum => ?_, fun name j hne hj => ?_, ?_⟩⟩
  · rw [hd.fsOpen, pointee_erase_self h.trees.names hleaf]
    rfl
  · obtain rfl := Option.some.inj (hd.before.symm.trans hnum)
    rw [hd.get, Int.toNat_natCast, pointee_erase_self h.trees.inodes hleaf']
  · obtain ⟨hji, hsame⟩ := hother name j hj hne
    have hhash : hashString name ≠ hashString n := fun heq => hne (h.hash_inj hj hn heq)
    rw [hd.fsOpen, hd.get, pointee_erase_of_ne h.trees.names hhash, h.pointee_name hj,
      pointee_erase_of_ne h.trees.inodes (Fin.val_ne_of_ne hji), h.pointee_inode hj, openResult,
      hsame, h.num name j hj]
    exact ⟨rfl, rfl⟩
  · refine List.forall_mem_cons.2 ⟨⟨_, run'_eq_some (hd.trees.inodes.traverse
      (by rwa [treeHeight_erase])), fun e he => ?_⟩, List.forall_mem_singleton.2 ⟨_, run'_eq_some
        (hd.trees.names.traverse (by rwa [treeHeight_erase])), fun e he => ?_⟩⟩
    · obtain ⟨he, hne⟩ := (mem_treeList_erase h.trees.inodes).1 he
      obtain ⟨name, j, hj, rfl⟩ := (h.inodes e).1 he
      refine huse name j hj fun heq => hne hleaf' ?_
      subst heq
      rw [Option.some.inj (hj.symm.trans hn)]
    · obtain ⟨he, hne⟩ := (mem_treeList_erase h.trees.names).1 he
      obtain ⟨name, j, hj, rfl⟩ := (h.names e).1 he
      exact huse name j hj fun heq => hne hleaf (heq ▸ rfl)

theorem WellFormed.deletesRight_iff (hbase : base ≠ 0) (h : WellFormed base fs it nt files)
    (hfuel : treeHeight nt < fuel) (hfuel' : treeHeight it < fuel) (filename : FsName) :
    DeletesRight base fuel files filename fs ↔ Deletable it nt files filename := by
  by_cases hnone : ∀ e ∈ treeList nt, e.1 ≠ hashString filename
  · -- Nothing is found.
    refine iff_of_true ⟨-1, fs, ?_, fun hr => by cases hr⟩ (.inl hnone)
    rw [btreeFsDelete, StateT.run_bind, h.trees.run_nameSearch hbase h.points_names hfuel,
      pointee_eq_none hnone]
    rfl
  rw [Deletable, or_iff_right hnone]
  push Not at hnone
  obtain ⟨e, he, hkey⟩ := hnone
  obtain ⟨n, i, hn, rfl⟩ := (h.names e).1 he
  change hashString n = hashString filename at hkey
  obtain ⟨fs', hd⟩ := h.run_delete hbase hfuel hfuel' hn hkey
  constructor
  · intro hright
    exact ⟨i, hd.leaves h hn hkey hright⟩
  · rintro ⟨i', hi', hleaf, hleaf'⟩
    obtain rfl := h.hash_inj hn hi' hkey
    obtain rfl := Option.some.inj (hn.symm.trans hi')
    exact hd.right h hfuel hfuel' hn hleaf hleaf'

/-- `btree_fs_delete` does what it has to exactly if there is no entry for the hash, or else
    the file exists and its entries are both in leaves. -/
theorem delete_right_iff (hbase : base ≠ 0) (h : WellFormed base fs it nt files)
    (filename : FsName) :
    (∃ N, ∀ fuel ≥ N, DeletesRight base fuel files filename fs) ↔
      Deletable it nt files filename := by
  constructor
  · rintro ⟨N, hN⟩
    exact (h.deletesRight_iff hbase (by omega) (by omega) filename).1
      (hN (N + treeHeight nt + treeHeight it + 1) (by omega))
  · intro hdel
    exact ⟨treeHeight nt + treeHeight it + 1, fun fuel hfuel =>
      (h.deletesRight_iff hbase (by omega) (by omega) filename).2 hdel⟩

end Trees

/-! ## A tree with an inner node

The files `a`, `b` and `c`. The entry for the name `b` is in an inner node, as it is after a
split. -/

/-- The words of the nodes. -/
def threeFilesWords (p : ℕ) : List ℕ :=
  match p with
  | 1 => [3, 0, 1, 2, 0, 1000, 1088, 1176, 0, 0, 0, 0, 0, 0, 0, 1]
  | 2 => [1, 177671, 0, 0, 0, 1088, 0, 0, 0, 3, 4, 0, 0, 0, 0, 0]
  | 3 => [1, 177670, 0, 0, 0, 1000, 0, 0, 0, 0, 0, 0, 0, 0, 2, 1]
  | 4 => [1, 177672, 0, 0, 0, 1176, 0, 0, 0, 0, 0, 0, 0, 0, 2, 1]
  | _ => []

/-- The file system. -/
def threeFiles : TreeFs where
  index := ⟨⟨1, 1, 3⟩, ⟨2, 2, 3⟩,
    ⟨fun p i => (threeFilesWords p).getD i 0, fun n => n + 5, 4, true⟩⟩
  inodes i := ⟨i, 1, 0, permReadWrite, 1, 0, fun _ => 0, 0, 0, i < 3⟩
  blockStorage _ := 0
  blockBitmap _ := 0
  inodeBitmap i := if i = 0 then 7 else 0
  totalInodes := maxInodeCount
  freeInodes := maxInodeCount - 3
  totalBlocks := maxBlocks
  freeBlocks := maxBlocks

/-- Its i-nodes by their numbers. -/
def threeFilesInodes : Option (MultiTree ℕ ℕ ℕ .tree) :=
  some (leaf 1 [(0, 1000), (1, 1088), (2, 1176)])

/-- Its i-nodes by the hashes of the names. -/
def threeFilesNames : Option (MultiTree ℕ ℕ ℕ .tree) :=
  some (node 2 (cons (leaf 3 [(177670, 1000)]) 177671 1088 (last (leaf 4 [(177672, 1176)]))))

/-- Its files. -/
def threeFilesFiles (name : FsName) : Option InodePtr :=
  if name = [97] then some 0 else if name = [98] then some 1
  else if name = [99] then some 2 else none

theorem threeFilesFiles_eq_some {name : FsName} {i : InodePtr} :
    threeFilesFiles name = some i ↔
      name = [97] ∧ i = 0 ∨ name = [98] ∧ i = 1 ∨ name = [99] ∧ i = 2 := by
  rw [threeFilesFiles]
  split_ifs with ha hb hc
  · simp [ha, eq_comm]
  · simp [hb, eq_comm]
  · simp [hc, eq_comm]
  · simp [ha, hb, hc]

theorem hasEntries_of_forall {w : ℕ → ℕ} {es : List (ℕ × ℕ)} (h : ∀ i : Fin es.length,
    w (NodeArray.keys.base + i) = (es.get i).1 ∧ w (NodeArray.values.base + i) = (es.get i).2) :
    HasEntries w es := fun i e he => by
  obtain ⟨hi, rfl⟩ := List.getElem?_eq_some_iff.1 he
  exact h ⟨i, hi⟩

theorem wellFormed_threeFiles :
    WellFormed 1000 threeFiles threeFilesInodes threeFilesNames threeFilesFiles where
  trees := by
    refine ⟨⟨⟨rfl, by decide, rfl, by decide, by decide, hasEntries_of_forall (by decide)⟩,
      ?_, by decide⟩, ⟨⟨rfl, by decide, ?_, ?_, rfl, rfl, rfl, ⟨rfl, by decide, rfl, by decide,
        by decide, hasEntries_of_forall (by decide)⟩, ⟨rfl, by decide, rfl, by decide, by decide,
          hasEntries_of_forall (by decide)⟩⟩, ?_, by decide⟩, by decide⟩
    · show List.Pairwise _ [(0, 1000), (1, 1088), (2, 1176)]
      decide
    · rw [width, width]
      rfl
    · rw [width, width]
      decide
    · show List.Pairwise _ [(177670, 1000), (177671, 1088), (177672, 1176)]
      decide
  inodes e := by
    show e ∈ [(0, 1000), (1, 1088), (2, 1176)] ↔ _
    simp only [threeFilesFiles_eq_some, List.mem_cons, List.not_mem_nil, or_false]
    constructor
    · rintro (rfl | rfl | rfl)
      · exact ⟨_, _, .inl ⟨rfl, rfl⟩, rfl⟩
      · exact ⟨_, _, .inr (.inl ⟨rfl, rfl⟩), rfl⟩
      · exact ⟨_, _, .inr (.inr ⟨rfl, rfl⟩), rfl⟩
    · rintro ⟨_, _, ⟨rfl, rfl⟩ | ⟨rfl, rfl⟩ | ⟨rfl, rfl⟩, rfl⟩
      · exact .inl rfl
      · exact .inr (.inl rfl)
      · exact .inr (.inr rfl)
  names e := by
    show e ∈ [(177670, 1000), (177671, 1088), (177672, 1176)] ↔ _
    simp only [threeFilesFiles_eq_some, List.mem_cons, List.not_mem_nil, or_false]
    constructor
    · rintro (rfl | rfl | rfl)
      · exact ⟨_, _, .inl ⟨rfl, rfl⟩, rfl⟩
      · exact ⟨_, _, .inr (.inl ⟨rfl, rfl⟩), rfl⟩
      · exact ⟨_, _, .inr (.inr ⟨rfl, rfl⟩), rfl⟩
    · rintro ⟨_, _, ⟨rfl, rfl⟩ | ⟨rfl, rfl⟩ | ⟨rfl, rfl⟩, rfl⟩
      · exact .inl rfl
      · exact .inr (.inl rfl)
      · exact .inr (.inr rfl)
  inUse name i h := by
    rcases threeFilesFiles_eq_some.1 h with ⟨-, rfl⟩ | ⟨-, rfl⟩ | ⟨-, rfl⟩ <;> rfl
  num name i h := rfl
  inj name name' i h h' := by
    rw [threeFilesFiles_eq_some] at h h'
    rcases h with ⟨rfl, rfl⟩ | ⟨rfl, rfl⟩ | ⟨rfl, rfl⟩ <;> exact Eq.symm (by simpa using h')

theorem delete_right_threeFiles :
    ∃ N, ∀ fuel ≥ N, DeletesRight 1000 fuel threeFilesFiles [97] threeFiles :=
  (delete_right_iff (by decide) wellFormed_threeFiles [97]).2
    (.inr ⟨0, rfl, by decide, by decide⟩)

/-- The deletion of `b` returns 0, but the file is still there: `btree_delete` refuses, and the
    result is ignored. -/
theorem delete_wrong_threeFiles :
    WellFormed 1000 threeFiles threeFilesInodes threeFilesNames threeFilesFiles ∧
      ¬ ∃ N, ∀ fuel ≥ N, DeletesRight 1000 fuel threeFilesFiles [98] threeFiles := by
  refine ⟨wellFormed_threeFiles, fun ⟨N, hN⟩ => ?_⟩
  have hheight : treeHeight threeFilesNames = 2 ∧ treeHeight threeFilesInodes = 1 := ⟨rfl, rfl⟩
  rcases (wellFormed_threeFiles.deletesRight_iff (by decide) (by omega) (by omega) [98]).1
    (hN (N + 3) (by omega)) with hnone | ⟨i, -, hleaf, -⟩
  · exact hnone (177671, 1088) (by decide) (by decide)
  · exact absurd hleaf (by decide)

end Fru1tOs
