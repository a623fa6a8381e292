import Fru1tOs.Inode.Create
import Fru1tOs.Inode.Holes

/-!
# The directory

What the file system of `inode.c` is for: a directory, which has files, with their names, types
and bytes, at the numbers of their i-nodes. A file is known by the hash of its name. The
operations on a directory (`Directory.call`) say nothing of blocks, of bitmaps or of trees.

* `Directory.Holds`: the state of the file system holds a directory, and there is no node of a
  tree but its root.
* `Directory.Holds.create`: creating a file keeps it, as long as there are less than four.
-/

namespace Fru1tOs

open Lib MultiTree

/-! ## The abstract directory -/

/-- A file. -/
structure FsFile where
  name : FsName
  type : ℕ
  bytes : List UInt8

/-- The files, by the numbers of their i-nodes. -/
abbrev Directory := InodePtr → Option FsFile

/-- What `list_callback` prints of a file. -/
structure FileLine where
  inodeNum : ℕ
  size : ℕ
  blocks : ℕ
  type : ℕ
  deriving DecidableEq, Repr

/-- The operations of the file system, with arguments of 32 bits. -/
inductive DirCall
  | create (filename : FsName) (type : UInt32)
  | fsOpen (filename : FsName)
  | read (filename : FsName) (size : UInt32)
  | write (filename : FsName) (data : ℕ → UInt8) (size : UInt32)
  | delete (filename : FsName)
  | list

/-- What an operation gives: a number, a number with the bytes in the buffer, or lines. -/
inductive DirResult
  | number (r : ℤ)
  | bytes (r : ℤ) (buf : List UInt8)
  | lines (l : List FileLine)
  deriving DecidableEq

/-- The blocks that a file of the size has. -/
def fileBlocks (size : ℕ) : ℕ := (size + fsBlockSize - 1) / fsBlockSize

/-- The bytes after the first `n` of `data` were written over them. -/
def overwrite (bytes : List UInt8) (data : ℕ → UInt8) (n : ℕ) : List UInt8 :=
  (List.range n).map data ++ bytes.drop n

namespace Directory

variable (d : Directory)

/-- The file that is known by the name. -/
def find (filename : FsName) : Option InodePtr :=
  (List.finRange maxInodeCount).find? fun i =>
    (d i).any fun f => hashString f.name = hashString filename

/-- The first number without a file. -/
def free : Option InodePtr := (List.finRange maxInodeCount).find? fun i => (d i).isNone

/-- The number of files. -/
def count : ℕ := (Finset.univ.filter fun i => (d i).isSome).card

/-- The bytes of the file at a number. -/
def bytes (i : InodePtr) : List UInt8 := ((d i).map FsFile.bytes).getD []

/-- The files with their hashes. -/
def entries : List (ℕ × InodePtr × FsFile) :=
  (List.finRange maxInodeCount).filterMap fun i => (d i).map fun f => (hashString f.name, i, f)

/-- The lines for the files, in the order of their hashes. -/
def lines : List FileLine :=
  (d.entries.mergeSort fun e e' => e.1 ≤ e'.1).map fun e =>
    ⟨e.2.1, e.2.2.bytes.length, fileBlocks e.2.2.bytes.length, e.2.2.type⟩

/-- What an operation does. -/
def call : DirCall → DirResult × Directory
  | .create filename type =>
    if filename.length ≥ maxFilenameLen ∨ d.find filename ≠ none then (.number (-1), d)
    else match d.free with
      | none => (.number (-1), d)
      | some i => (.number i, Function.update d i (some ⟨filename, type.toNat, []⟩))
  | .fsOpen filename =>
    match d.find filename with
    | none => (.number (-1), d)
    | some i => (.number i, d)
  | .read filename size =>
    match d.find filename with
    | none => (.bytes (-1) [], d)
    | some i =>
      let buf := (d.bytes i).take size.toNat
      (.bytes buf.length buf, d)
  | .write filename data size =>
    match d.find filename with
    | none => (.number (-1), d)
    | some i =>
      let n := min size.toNat maxFileSize
      (.number n, Function.update d i
        ((d i).map fun f => { f with bytes := overwrite f.bytes data n }))
  | .delete filename =>
    match d.find filename with
    | none => (.number (-1), d)
    | some i => (.number 0, Function.update d i none)
  | .list => (.lines d.lines, d)

end Directory

/-! ## The operations of the source -/

section Model

variable (base fuel : ℕ)

/-- `list_callback`, called with an entry. -/
def listCallback (entry : ℕ × ℕ) : TreeFsM (List FileLine) := do
  match ← toInode base entry.2 with
  | none => return []
  | some i =>
    let inode := (← get).inodes i
    if inode.inUse then return [⟨inode.inodeNum, inode.size, inode.blockCount, inode.type⟩]
    else return []

/-- `btree_fs_list`. The callback does not change the tree, so the entries are gathered first. -/
def btreeFsList : TreeFsM (List FileLine) := do
  let fs ← get
  let (entries, mem) ← (btreeTraverse fuel fs.index.nameTree).run fs.index.mem
  set { fs with index := { fs.index with mem := mem } }
  return (← entries.mapM (listCallback base)).flatten

/-- A call of an operation. -/
def fsCall : DirCall → TreeFsM DirResult
  | .create filename type => do
    return .number (← btreeFsCreate base fuel filename type.toNat)
  | .fsOpen filename => do
    return .number (← btreeFsOpen base fuel filename)
  | .read filename size => do
    let (r, buf) ← btreeFsRead base fuel filename size.toNat
    return .bytes r buf
  | .write filename data size => do
    return .number (← btreeFsWrite base fuel filename data size.toNat)
  | .delete filename => do
    return .number (← btreeFsDelete base fuel filename)
  | .list => do
    return .lines (← btreeFsList base fuel)

end Model

/-! ## What is found in a directory -/

namespace Directory

variable {d : Directory} {filename : FsName} {i : InodePtr}

/-- The hashes of the names are different. -/
def Distinct (d : Directory) : Prop := ∀ i j f g, d i = some f → d j = some g →
  hashString f.name = hashString g.name → i = j

/-- The file of the name itself. -/
def files (d : Directory) (name : FsName) : Option InodePtr :=
  (List.finRange maxInodeCount).find? fun i => (d i).any fun f => f.name = name

theorem find?_finRange_eq_some {p : InodePtr → Bool}
    (h : ∀ j, p j = true → p i = true → j = i) :
    (List.finRange maxInodeCount).find? p = some i ↔ p i = true := by
  refine ⟨List.find?_some, fun hi => ?_⟩
  obtain ⟨j, hj⟩ := Option.isSome_iff_exists.1
    (List.find?_isSome.2 ⟨i, List.mem_finRange i, hi⟩)
  rw [hj, h j (List.find?_some hj) hi]

theorem find_eq_some_iff (hd : d.Distinct) : d.find filename = some i ↔
    ∃ f, d i = some f ∧ hashString f.name = hashString filename := by
  rw [find, find?_finRange_eq_some fun j hj hi => ?_]
  · simp only [Option.any_eq_true, decide_eq_true_iff]
  · simp only [Option.any_eq_true, decide_eq_true_iff] at hj hi
    obtain ⟨f, hf, hkey⟩ := hj
    obtain ⟨g, hg, hkey'⟩ := hi
    exact hd j i f g hf hg (hkey.trans hkey'.symm)

theorem find_eq_none_iff : d.find filename = none ↔
    ∀ i f, d i = some f → hashString f.name ≠ hashString filename := by
  rw [find, List.find?_eq_none]
  simp only [List.mem_finRange, Option.any_eq_true, decide_eq_true_iff, forall_true_left,
    not_exists, not_and, ne_eq]

theorem files_eq_some_iff (hd : d.Distinct) :
    d.files filename = some i ↔ ∃ f, d i = some f ∧ f.name = filename := by
  rw [files, find?_finRange_eq_some fun j hj hi => ?_]
  · simp only [Option.any_eq_true, decide_eq_true_iff]
  · simp only [Option.any_eq_true, decide_eq_true_iff] at hj hi
    obtain ⟨f, hf, rfl⟩ := hj
    obtain ⟨g, hg, hname⟩ := hi
    exact hd j i f g hf hg (by rw [hname])

/-- A file that is found is there. -/
theorem exists_of_find (h : d.find filename = some i) : ∃ f, d i = some f := by
  have hfound := List.find?_some h
  rw [Option.any_eq_true] at hfound
  obtain ⟨f, hf, -⟩ := hfound
  exact ⟨f, hf⟩

theorem Distinct.update (hd : d.Distinct) {f : FsFile}
    (hnew : ∀ j g, j ≠ i → d j = some g → hashString g.name ≠ hashString f.name) :
    Distinct (Function.update d i (some f)) := by
  intro j k g g' hg hg' heq
  rcases eq_or_ne j i with rfl | hj
  · rcases eq_or_ne k j with rfl | hk
    · rfl
    · rw [Function.update_self, Option.some_inj] at hg
      rw [Function.update_of_ne hk] at hg'
      exact absurd (hg ▸ heq).symm (hnew k g' hk hg')
  · rw [Function.update_of_ne hj] at hg
    rcases eq_or_ne k i with rfl | hk
    · rw [Function.update_self, Option.some_inj] at hg'
      exact absurd (hg' ▸ heq) (hnew j g hj hg)
    · rw [Function.update_of_ne hk] at hg'
      exact hd j k g g' hg hg' heq

theorem Distinct.erase (hd : d.Distinct) (i : InodePtr) : Distinct (Function.update d i none) := by
  intro j k g g' hg hg' heq
  have hj : j ≠ i := fun hj => by simp [hj] at hg
  have hk : k ≠ i := fun hk => by simp [hk] at hg'
  rw [Function.update_of_ne hj] at hg
  rw [Function.update_of_ne hk] at hg'
  exact hd j k g g' hg hg' heq

end Directory

/-! ## Trees of one node -/

section OneNode

variable {o o' : Option (MultiTree ℕ ℕ ℕ .tree)} {s s' : BtreeMem} {tree tree' : Btree}
  {key value fuel : ℕ}

theorem names_ne_nil {b : Kind} (t : MultiTree ℕ ℕ ℕ b) : t.names ≠ [] := by
  induction t with
  | leaf p es => exact List.cons_ne_nil _ _
  | node p r ih => exact List.cons_ne_nil _ _
  | last t ih => exact ih
  | cons t k v r iht ihr => exact fun h => iht (List.append_eq_nil_iff.1 h).1

/-- A tree of one node is a leaf. -/
theorem eq_leaf_of_length {t : MultiTree ℕ ℕ ℕ .tree} (h : t.names.length ≤ 1) :
    ∃ p es, t = leaf p es := by
  cases t with
  | leaf p es => exact ⟨p, es, rfl⟩
  | node p r =>
    have := List.length_pos_iff.2 (names_ne_nil r)
    rw [names, List.length_cons] at h
    omega

theorem treeHeight_le_one (h : (treeNames o).length ≤ 1) : treeHeight o ≤ 1 := by
  cases o with
  | none => exact Nat.zero_le _
  | some t =>
    obtain ⟨p, es, rfl⟩ := eq_leaf_of_length h
    exact le_rfl

theorem treeRoom_of_length (h : (treeNames o).length ≤ 1)
    (hlt : (treeList o).length < btreeMaxKeys) : treeRoom key o := by
  cases o with
  | none => trivial
  | some t =>
    obtain ⟨p, es, rfl⟩ := eq_leaf_of_length h
    exact hlt

theorem treeLeafKeys_eq (h : (treeNames o).length ≤ 1) :
    treeLeafKeys o = (treeList o).map Prod.fst := by
  cases o with
  | none => rfl
  | some t =>
    obtain ⟨p, es, rfl⟩ := eq_leaf_of_length h
    rfl

theorem HoldsTree.nodup (h : HoldsTree s.words tree.root o) : (treeNames o).Nodup := by
  cases o with
  | none => exact List.nodup_nil
  | some t => exact h.2.2

/-- A new key for a tree of one node at most, which has room. The tree stays so. -/
theorem HoldsTree.insert_one (h : HoldsTree s.words tree.root o)
    (hnew : ∀ e ∈ treeList o, e.1 ≠ key) (hone : (treeNames o).length ≤ 1)
    (hlt : (treeList o).length < btreeMaxKeys) (hfuel : treeHeight o < fuel)
    (hq : s.fresh s.calls ≠ 0) (value : ℕ) :
    ∃ r tree' s' o', (btreeInsert fuel tree key value).run s = some ((r, tree'), s') ∧
      HoldsTree s'.words tree'.root o' ∧ Inserted key value s s' o o' ∧
      (treeNames o').length ≤ 1 ∧ (key, value) ∈ treeList o' := by
  obtain ⟨r, tree', s', o', hrun, hholds, hins, hcalls, hmem⟩ :=
    h.insert hnew (treeRoom_of_length hone hlt) hfuel value
  refine ⟨r, tree', s', o', hrun, hholds, hins, ?_, hmem.2 fun _ => hq⟩
  -- An empty tree gets the new node, and another one keeps its node.
  obtain ⟨p, hp⟩ : ∃ p, ∀ q ∈ treeNames o', q = p := by
    cases o with
    | none => exact ⟨s.fresh s.calls, fun q hq => (hins.names q hq).elim
        (fun hq => absurd hq List.not_mem_nil) And.left⟩
    | some t =>
      obtain ⟨p, es, rfl⟩ := eq_leaf_of_length hone
      refine ⟨p, fun q hq => (hins.names q hq).elim List.mem_singleton.1 ?_⟩
      rintro ⟨-, -, hlt⟩
      have hroot : tree.root ≠ 0 := h.1.ne_zero
      rw [if_neg hroot] at hcalls
      omega
  calc (treeNames o').length
      _ = (treeNames o').toFinset.card := (List.toFinset_card_of_nodup hholds.nodup).symm
      _ ≤ 1 := Finset.card_le_one.2 fun a ha b hb => by
        rw [hp a (List.mem_toFinset.1 ha), hp b (List.mem_toFinset.1 hb)]

end OneNode

/-! ## What the file system holds -/

/-- The i-node `p` is that of the file `f`: the bytes are there, in the first blocks. -/
structure HoldsFile (fs : TreeFs) (p : InodePtr) (f : FsFile) : Prop where
  type : (fs.inodes p).type = f.type
  size : (fs.inodes p).size = f.bytes.length
  byte : ∀ j (hj : j < f.bytes.length), fs.byteAt p j = some f.bytes[j]
  gap : ∀ k, f.bytes.length ≤ k * fsBlockSize → fs.byteAt p (k * fsBlockSize) = none

/-- The file system holds the directory, in trees of one node at most. `kmalloc` has nodes. -/
structure Directory.Holds (base : ℕ) (fs : TreeFs) (it nt : Option (MultiTree ℕ ℕ ℕ .tree))
    (d : Directory) : Prop where
  wellFormed : WellFormed base fs it nt d.files
  distinct : d.Distinct
  inv : InodeInv fs []
  noLeak : NoLeak fs
  inUse : ∀ i, (fs.inodes i).inUse = (d i).isSome
  file : ∀ i f, d i = some f → HoldsFile fs i f
  inodes : (treeNames it).length ≤ 1
  names : (treeNames nt).length ≤ 1
  fresh : FreshNodes fs.index.mem (treeNames it ++ treeNames nt)
  memory : ∀ n, fs.index.mem.fresh n ≠ 0

section Holds

variable {base : ℕ} {fs fs' : TreeFs} {it nt : Option (MultiTree ℕ ℕ ℕ .tree)} {d : Directory}
  {filename : FsName} {i : InodePtr} {f : FsFile}

/-- What is found in the tree of the names. -/
theorem Directory.Holds.pointee (h : d.Holds base fs it nt) (filename : FsName) :
    pointee base (treeList nt) (hashString filename) = d.find filename := by
  rcases hfind : d.find filename with _ | i
  · refine pointee_eq_none fun e he heq => ?_
    obtain ⟨n, i, hn, rfl⟩ := (h.wellFormed.names e).1 he
    obtain ⟨f, hf, rfl⟩ := (Directory.files_eq_some_iff h.distinct).1 hn
    exact Directory.find_eq_none_iff.1 hfind i f hf heq
  · obtain ⟨f, hf, hkey⟩ := (Directory.find_eq_some_iff h.distinct).1 hfind
    rw [← hkey]
    exact h.wellFormed.pointee_name ((Directory.files_eq_some_iff h.distinct).2 ⟨f, hf, rfl⟩)

theorem Directory.Holds.files (h : d.Holds base fs it nt) (hf : d i = some f) :
    d.files f.name = some i :=
  (Directory.files_eq_some_iff h.distinct).2 ⟨f, hf, rfl⟩

/-- The entries of a tree are no more than the files. -/
theorem Directory.length_le_count {l : List (ℕ × ℕ)} (hl : l.Pairwise fun e e' => e.1 < e'.1)
    (g : InodePtr → ℕ × ℕ) (hg : ∀ e ∈ l, ∃ i, (d i).isSome ∧ e = g i) : l.length ≤ d.count := by
  have hnodup : l.Nodup := hl.imp fun hlt heq => hlt.ne (congrArg Prod.fst heq)
  rw [← List.toFinset_card_of_nodup hnodup, Directory.count]
  refine (Finset.card_le_card fun e he => ?_).trans
    (Finset.card_image_le (f := g) (s := Finset.univ.filter fun i => (d i).isSome))
  obtain ⟨i, hi, rfl⟩ := hg e (List.mem_toFinset.1 he)
  exact Finset.mem_image_of_mem g (Finset.mem_filter.2 ⟨Finset.mem_univ i, hi⟩)

theorem Directory.Holds.length_inodes (h : d.Holds base fs it nt) :
    (treeList it).length ≤ d.count := by
  refine length_le_count h.wellFormed.trees.inodes.pairwise (fun i => (i.val, inodeAddr base i))
    fun e he => ?_
  obtain ⟨n, i, hn, rfl⟩ := (h.wellFormed.inodes e).1 he
  obtain ⟨f, hf, -⟩ := (Directory.files_eq_some_iff h.distinct).1 hn
  exact ⟨i, by rw [hf]; rfl, rfl⟩

theorem Directory.Holds.length_names (h : d.Holds base fs it nt) :
    (treeList nt).length ≤ d.count := by
  refine length_le_count h.wellFormed.trees.names.pairwise
    (fun i => (((d i).map fun f => hashString f.name).getD 0, inodeAddr base i)) fun e he => ?_
  obtain ⟨n, i, hn, rfl⟩ := (h.wellFormed.names e).1 he
  obtain ⟨f, hf, rfl⟩ := (Directory.files_eq_some_iff h.distinct).1 hn
  exact ⟨i, by rw [hf]; rfl, by rw [hf]; rfl⟩

/-! ## Creating a file -/

section Inserted

variable {key value : ℕ} {s s' : BtreeMem} {o o' : Option (MultiTree ℕ ℕ ℕ .tree)} {l l' : List ℕ}

theorem Inserted.mem_iff (h : Inserted key value s s' o o') (hnew : ∀ e ∈ treeList o, e.1 ≠ key)
    (hmem : (key, value) ∈ treeList o') (e : ℕ × ℕ) :
    e ∈ treeList o' ↔ e = (key, value) ∨ e ∈ treeList o := by
  by_cases hkey : e.1 = key
  · refine ⟨fun he => .inl (Prod.ext hkey (h.value e he hkey)), ?_⟩
    rintro (rfl | he)
    · exact hmem
    · exact absurd hkey (hnew e he)
  · rw [h.mem e hkey, or_iff_right]
    rintro rfl
    exact hkey rfl

theorem FreshNodes.congr (h : FreshNodes s l) (hmem : ∀ q ∈ l', q ∈ l) : FreshNodes s l' :=
  ⟨fun n hn hq => h.unused n hn (hmem _ hq), h.distinct⟩

/-- The nodes that `kmalloc` has still to give are not those of the tree either, after an
    insertion. -/
theorem FreshNodes.inserted (h : FreshNodes s (treeNames o ++ l))
    (hins : Inserted key value s s' o o') : FreshNodes s' (treeNames o' ++ l) := by
  refine ⟨fun n hn hmem => ?_, fun m n hm => ?_⟩
  · rw [hins.fresh] at hmem
    have hcalls := hins.calls.trans hn
    rcases List.mem_append.1 hmem with hmem | hmem
    · rcases hins.names _ hmem with hmem | ⟨heq, hzero, hlt⟩
      · exact h.unused n hcalls (List.mem_append_left _ hmem)
      · exact hzero (heq ▸ h.distinct _ n le_rfl (hlt.trans_le hn) heq.symm)
    · exact h.unused n hcalls (List.mem_append_right _ hmem)
  · rw [hins.fresh]
    exact h.distinct m n (hins.calls.trans hm)

end Inserted

/-- The i-node that `inode_alloc` takes is the first number without a file. -/
theorem Directory.Holds.firstFree (h : d.Holds base fs it nt) : firstFree fs = d.free := by
  rw [Fru1tOs.firstFree, Directory.free]
  congr 1
  funext j
  rw [h.inv.bitmap, h.inUse]
  cases d j <;> rfl

theorem Directory.free_ne_none (h : d.count < maxInodeCount) : d.free ≠ none := fun hnone => by
  rw [Directory.free, List.find?_eq_none] at hnone
  have hall : (Finset.univ.filter fun j => (d j).isSome) = Finset.univ := by
    refine Finset.filter_true_of_mem fun j _ => ?_
    have hj := hnone j (List.mem_finRange j)
    rcases hd : d j with _ | f
    · rw [hd] at hj
      exact absurd rfl hj
    · rfl
  rw [Directory.count, hall, Finset.card_univ, Fintype.card_fin] at h
  exact lt_irrefl _ h

theorem Directory.free_eq_none_of_some (h : d.free = some i) : d i = none := by
  have := List.find?_some h
  simpa using this

theorem inodeAlloc_of_firstFree {fuel : ℕ} {p : InodePtr} {type : ℕ} {ix : TreeIndex}
    (hfind : Fru1tOs.firstFree fs = some p)
    (hinsert : (treeIndex base fuel).insert fs.index p p = some ix) :
    inodeAlloc (treeIndex base fuel) fs type = some (some p, allocated fs p type ix) := by
  have halloc : inodeAlloc (treeIndex base fuel) fs type =
      ((treeIndex base fuel).insert fs.index p p).map fun ix =>
        (some p, allocated fs p type ix) := by
    rw [Fru1tOs.firstFree] at hfind
    rw [inodeAlloc, hfind, Option.map_eq_bind]
    rfl
  rw [halloc, hinsert, Option.map_some]

/-- A file that is there is kept when another i-node changes. -/
theorem HoldsFile.congr {p : InodePtr} (h : HoldsFile fs p f) (hinode : fs'.inodes p = fs.inodes p)
    (hbyte : ∀ x, fs'.byteAt p x = fs.byteAt p x) : HoldsFile fs' p f where
  type := by rw [hinode, h.type]
  size := by rw [hinode, h.size]
  byte j hj := by rw [hbyte, h.byte j hj]
  gap k hk := by rw [hbyte, h.gap k hk]

/-- A new file is empty. -/
theorem holdsFile_new {p : InodePtr} {filename : FsName} {type : ℕ}
    (hinode : fs.inodes p = newInode p type) : HoldsFile fs p ⟨filename, type, []⟩ where
  type := by rw [hinode]; rfl
  size := by rw [hinode]; rfl
  byte j hj := absurd hj (Nat.not_lt_zero j)
  gap k _ := byteAt_eq_none_iff.2 fun _ => by rw [hinode]; rfl

/-- The entries of both trees, when a file has come. -/
theorem WellFormed.created (h : WellFormed base fs it nt d.files) (hd : d.Distinct)
    {it' nt' : Option (MultiTree ℕ ℕ ℕ .tree)} (hi : d i = none)
    (hfind : d.find f.name = none)
    (htrees : HoldsTrees fs'.index it' nt')
    (hinodes : ∀ e, e ∈ treeList it' ↔ e = (i.val, inodeAddr base i) ∨ e ∈ treeList it)
    (hnames : ∀ e, e ∈ treeList nt' ↔ e = (hashString f.name, inodeAddr base i) ∨ e ∈ treeList nt)
    (hinode : (fs'.inodes i).inUse = true ∧ (fs'.inodes i).inodeNum = i)
    (hothers : ∀ j, j ≠ i → fs'.inodes j = fs.inodes j) :
    WellFormed base fs' it' nt' (Directory.files (Function.update d i (some f))) ∧
      Directory.Distinct (Function.update d i (some f)) := by
  have hd' : Directory.Distinct (Function.update d i (some f)) :=
    hd.update fun j g _ hg => Directory.find_eq_none_iff.1 hfind j g hg
  -- The files that are there are the old ones and the new one.
  have hfiles : ∀ n j, Directory.files (Function.update d i (some f)) n = some j ↔
      n = f.name ∧ j = i ∨ d.files n = some j := fun n j => by
    rw [Directory.files_eq_some_iff hd', Directory.files_eq_some_iff hd]
    rcases eq_or_ne j i with rfl | hj
    · simp [hi, eq_comm]
    · simp [hj]
  refine ⟨⟨htrees, fun e => ?_, fun e => ?_, fun n j hn => ?_, fun n j hn => ?_,
    fun n n' j hn hn' => ?_⟩, hd'⟩
  · rw [hinodes, h.inodes]
    constructor
    · rintro (rfl | ⟨n, j, hn, rfl⟩)
      · exact ⟨f.name, i, (hfiles _ _).2 (.inl ⟨rfl, rfl⟩), rfl⟩
      · exact ⟨n, j, (hfiles _ _).2 (.inr hn), rfl⟩
    · rintro ⟨n, j, hn, rfl⟩
      rcases (hfiles _ _).1 hn with ⟨-, rfl⟩ | hn
      · exact .inl rfl
      · exact .inr ⟨n, j, hn, rfl⟩
  · rw [hnames, h.names]
    constructor
    · rintro (rfl | ⟨n, j, hn, rfl⟩)
      · exact ⟨f.name, i, (hfiles _ _).2 (.inl ⟨rfl, rfl⟩), rfl⟩
      · exact ⟨n, j, (hfiles _ _).2 (.inr hn), rfl⟩
    · rintro ⟨n, j, hn, rfl⟩
      rcases (hfiles _ _).1 hn with ⟨rfl, rfl⟩ | hn
      · exact .inl rfl
      · exact .inr ⟨n, j, hn, rfl⟩
  · rcases (hfiles _ _).1 hn with ⟨-, rfl⟩ | hn
    · exact hinode.1
    · rcases eq_or_ne j i with rfl | hj
      · exact hinode.1
      · rw [hothers j hj, h.inUse n j hn]
  · rcases (hfiles _ _).1 hn with ⟨-, rfl⟩ | hn
    · exact hinode.2
    · rcases eq_or_ne j i with rfl | hj
      · exact hinode.2
      · rw [hothers j hj, h.num n j hn]
  · obtain ⟨g, hg, rfl⟩ := (Directory.files_eq_some_iff hd').1 hn
    obtain ⟨g', hg', rfl⟩ := (Directory.files_eq_some_iff hd').1 hn'
    rw [Option.some.inj (hg.symm.trans hg')]

/-- Creating a file, as long as there are less than four. -/
theorem Directory.Holds.create (h : d.Holds base fs it nt) (hbase : base ≠ 0) {fuel : ℕ}
    (hfuel : 2 ≤ fuel) (hlen : filename.length < maxFilenameLen) (hfind : d.find filename = none)
    (hcount : d.count < btreeMaxKeys) (type : ℕ) : ∃ i fs' it' nt', d.free = some i ∧
      (btreeFsCreate base fuel filename type).run fs = some ((i : ℤ), fs') ∧
      Directory.Holds base fs' it' nt' (Function.update d i (some ⟨filename, type, []⟩)) := by
  obtain ⟨i, hfree⟩ := Option.ne_none_iff_exists'.1
    (free_ne_none (hcount.trans (by decide : btreeMaxKeys < maxInodeCount)))
  have hi := free_eq_none_of_some hfree
  have hfirst : Fru1tOs.firstFree fs = some i := h.firstFree.trans hfree
  have hit := (treeHeight_le_one h.inodes).trans_lt (Nat.lt_of_succ_le hfuel)
  have hnt := (treeHeight_le_one h.names).trans_lt (Nat.lt_of_succ_le hfuel)
  -- Both keys are new.
  have hnum : ∀ e ∈ treeList it, e.1 ≠ i := fun e he heq => by
    obtain ⟨n, j, hn, rfl⟩ := (h.wellFormed.inodes e).1 he
    obtain ⟨g, hg, -⟩ := (files_eq_some_iff h.distinct).1 hn
    rw [Fin.ext heq, hi] at hg
    cases hg
  have hhash : ∀ e ∈ treeList nt, e.1 ≠ hashString filename := fun e he heq => by
    obtain ⟨n, j, hn, rfl⟩ := (h.wellFormed.names e).1 he
    obtain ⟨g, hg, rfl⟩ := (files_eq_some_iff h.distinct).1 hn
    exact find_eq_none_iff.1 hfind j g hg heq
  obtain ⟨r, tree, s, it', hrun, hholds, hins, hone, hmem⟩ :=
    h.wellFormed.trees.inodes.insert_one hnum h.inodes (h.length_inodes.trans_lt hcount) hit
      (h.memory _) (inodeAddr base i)
  obtain ⟨hinsert, htrees, hfresh⟩ := h.wellFormed.trees.treeIndex_insert h.fresh hrun hholds hins
  obtain ⟨r', tree', s', nt', hrun', hholds', hins', hone', hmem'⟩ :=
    htrees.names.insert_one hhash h.names (h.length_names.trans_lt hcount) hnt
      (hins.fresh ▸ h.memory _) (inodeAddr base i)
  have halloc : inodeAlloc (treeIndex base fuel) fs type = some (some i, allocated fs i type _) :=
    inodeAlloc_of_firstFree hfirst hinsert
  have hinv := h.inv.alloc halloc
  have hleak := h.noLeak.alloc h.inv halloc
  have hallocated : HoldsTrees (allocated fs i type _).index it' nt := htrees
  obtain ⟨hname, htrees'⟩ := hallocated.run_nameInsert hfresh hrun' hholds' hins'
  have hrunCreate : (btreeFsCreate base fuel filename type).run fs = some ((i : ℤ), { allocated fs i
      type { fs.index with inodeTree := tree, mem := s } with index := ⟨tree, tree', s'⟩ }) := by
    rw [h.wellFormed.trees.run_btreeFsCreate hbase h.wellFormed.points_names hnt, h.pointee,
      if_neg (not_or_intro (not_le.2 hlen) (not_not.2 hfind)), Fru1tOs.run_createFile hfirst,
      hinsert, Option.bind_some, hname, Option.map_some]
    simp only [allocated, InodeFs.setInode, Function.update_self, newInode]
  refine ⟨i, _, it', nt', hfree, hrunCreate, ?_⟩
  have hothers : ∀ j, j ≠ i → (allocated fs i type ⟨tree, tree', s'⟩).inodes j = fs.inodes j :=
    fun j hj => Function.update_of_ne hj ..
  have hself : (allocated fs i type ⟨tree, tree', s'⟩).inodes i = newInode i type :=
    Function.update_self ..
  obtain ⟨hwell, hd⟩ := h.wellFormed.created (f := ⟨filename, type, []⟩) h.distinct hi hfind htrees'
    (hins.mem_iff hnum hmem) (hins'.mem_iff hhash hmem') (by rw [hself]; exact ⟨rfl, rfl⟩) hothers
  refine ⟨hwell, hd, ⟨hinv.owned, hinv.bitmap, hinv.num, hinv.count⟩,
    ⟨hleak.owner, hleak.count⟩, fun j => ?_, fun j g hg => ?_, hone, hone', ?_, fun n => ?_⟩
  · rcases eq_or_ne j i with rfl | hj
    · rw [Function.update_self]
      exact congrArg Inode.inUse hself
    · rw [Function.update_of_ne hj, ← h.inUse j]
      exact congrArg Inode.inUse (hothers j hj)
  · rcases eq_or_ne j i with rfl | hj
    · rw [Function.update_self, Option.some_inj] at hg
      subst hg
      exact holdsFile_new hself
    · rw [Function.update_of_ne hj] at hg
      exact (h.file j g hg).congr (hothers j hj) (byteAt_congr (hothers j hj) rfl)
  · have hfresh' := (hfresh.congr fun q hq => (List.mem_append.1 hq).elim
      (List.mem_append_right _) (List.mem_append_left _)).inserted hins'
    exact hfresh'.congr fun q hq => (List.mem_append.1 hq).elim
      (List.mem_append_right _) (List.mem_append_left _)
  · rw [hins'.fresh, hins.fresh]
    exact h.memory n

end Holds

end Fru1tOs
