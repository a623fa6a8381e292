import Fru1tOs.Inode.Names
import Fru1tOs.Inode.Run

/-!
# Files with different hashes

The file system of `inode.c` knows a file by the hash of its name. Operations on a name do not
change what is found under another one with a different hash (`names_isolated`). Names with
the same hash are one file (`names_collide`).

* `KeepsName`: what an operation must not change for a hash.
* `HoldsTrees.run_btreeFsRead`, `HoldsTrees.run_btreeFsCreate`: the results of the operations, from
  what is found in the trees.
-/

namespace Fru1tOs

open Lib MultiTree

variable {base fuel : ℕ} {fs fs' : TreeFs} {it nt it' nt' : Option (MultiTree ℕ ℕ ℕ .tree)}
  {files : FsName → Option InodePtr} {extra : List ℕ}

/-! ## Results -/

/-- What `btree_fs_read` returns, with the i-node that is found by the name. -/
def readResult (base : ℕ) (fs : TreeFs) (it : Option (MultiTree ℕ ℕ ℕ .tree)) (size : ℕ) :
    Option InodePtr → Option (ℤ × List UInt8)
  | none => some (-1, [])
  | some i => match pointee base (treeList it) (fs.inodes i).inodeNum with
    | none => some (-1, [])
    | some j => (inodeRead fs (some j) 0 size).map fun bytes => (bytes.length, bytes)

theorem HoldsTrees.run_btreeFsRead (h : HoldsTrees fs.index it nt) (hbase : base ≠ 0)
    (hpi : Points base (treeList it)) (hpn : Points base (treeList nt))
    (hfuel : treeHeight it < fuel) (hfuel' : treeHeight nt < fuel) (filename : FsName)
    (size : ℕ) : (btreeFsRead base fuel filename size).run' fs =
      readResult base fs it size (pointee base (treeList nt) (hashString filename)) := by
  rw [run'_eq_map, btreeFsRead, StateT.run_bind, h.run_btreeFsOpen hbase hpn hfuel']
  rcases pointee base (treeList nt) (hashString filename) with _ | i
  · rfl
  · have hnum : ¬ ((fs.inodes i).inodeNum : ℤ) < 0 := by omega
    simp only [openResult, Option.bind_eq_bind, Option.bind_some, if_neg hnum, StateT.run_bind,
      Int.toNat_natCast, h.run_inodeGet hbase hpi hfuel, readResult]
    rcases pointee base (treeList it) (fs.inodes i).inodeNum with _ | j
    · rfl
    · simp only [StateT.run_bind, StateT.run_get, Option.pure_def, Option.bind_eq_bind,
        Option.bind_some, StateT.run_monadLift, monadLift_self, StateT.run_pure]
      rcases inodeRead fs (some j) 0 size with _ | bytes
      · rfl
      · rfl

/-- `btree_fs_create` fails for a long name and for a hash that is found. -/
theorem HoldsTrees.run_btreeFsCreate (h : HoldsTrees fs.index it nt) (hbase : base ≠ 0)
    (hpn : Points base (treeList nt)) (hfuel : treeHeight nt < fuel) (filename : FsName)
    (type : ℕ) : (btreeFsCreate base fuel filename type).run fs =
      if filename.length ≥ maxFilenameLen ∨ pointee base (treeList nt) (hashString filename) ≠ none
      then some (-1, fs) else (createFile base fuel (hashString filename) type).run fs := by
  rw [btreeFsCreate]
  by_cases hlen : filename.length ≥ maxFilenameLen
  · rw [if_pos hlen, if_pos (.inl hlen)]
    rfl
  · rw [if_neg hlen, StateT.run_bind, h.run_nameSearch hbase hpn hfuel]
    rcases pointee base (treeList nt) (hashString filename) with _ | i
    · rw [if_neg (not_or_intro hlen (not_not.2 rfl))]
      rfl
    · rw [if_pos (.inr (Option.some_ne_none i))]
      rfl

/-- There is a free i-node. -/
def HasFree (fs : TreeFs) : Prop := ∃ i : InodePtr, fs.inodeBitmap.test i = false

/-- The i-node that `inode_alloc` takes. -/
def firstFree (fs : TreeFs) : Option InodePtr :=
  (List.finRange maxInodeCount).find? fun i : InodePtr => !fs.inodeBitmap.test i

theorem firstFree_ne_none (hfree : HasFree fs) : firstFree fs ≠ none := fun hfind => by
  obtain ⟨i, hi⟩ := hfree
  exact List.find?_eq_none.1 hfind i (List.mem_finRange i) (by rw [hi]; rfl)

/-- Without a free i-node, nothing is done. -/
theorem run_createFile_none (hfind : firstFree fs = none) (hash type : ℕ) :
    (createFile base fuel hash type).run fs = some (-1, fs) := by
  have halloc : inodeAlloc (treeIndex base fuel) fs type = some (none, fs) := by
    rw [firstFree] at hfind
    rw [inodeAlloc, hfind]
  rw [createFile, StateT.run_bind, StateT.run, halloc]
  rfl

/-- The file system when `inode_alloc` has taken the i-node `p`, with the index `ix`. -/
def allocated (fs : TreeFs) (p : InodePtr) (type : ℕ) (ix : TreeIndex) : TreeFs :=
  { fs.setInode p (newInode p type) with
    inodeBitmap := fs.inodeBitmap.set p, index := ix, freeInodes := fs.freeInodes - 1 }

/-- The i-node is taken, entered by its number, and then by the hash. -/
theorem run_createFile {p : InodePtr} {hash : ℕ} (hfind : firstFree fs = some p) (type : ℕ) :
    (createFile base fuel hash type).run fs =
      ((treeIndex base fuel).insert fs.index p p).bind fun ix =>
        ((nameInsert base fuel hash p).run (allocated fs p type ix)).map fun s =>
          (((s.2.inodes p).inodeNum : ℤ), s.2) := by
  have halloc : inodeAlloc (treeIndex base fuel) fs type =
      ((treeIndex base fuel).insert fs.index p p).map fun ix =>
        (some p, allocated fs p type ix) := by
    rw [firstFree] at hfind
    rw [inodeAlloc, hfind, Option.map_eq_bind]
    rfl
  rw [createFile, StateT.run_bind, StateT.run, halloc]
  rcases (treeIndex base fuel).insert fs.index p p with _ | ix
  · rfl
  · simp only [Option.map_some, Option.bind_eq_bind, Option.bind_some, StateT.run_bind]
    rcases (nameInsert base fuel hash p).run (allocated fs p type ix) with _ | s
    · rfl
    · rfl

/-- The result for a new file is the number of its i-node. -/
theorem firstFree_of_createFile {hash type : ℕ}
    (hrun : (createFile base fuel hash type).run fs = some (-1, fs')) : firstFree fs = none := by
  rcases hfind : firstFree fs with _ | p
  · rfl
  · rw [run_createFile hfind] at hrun
    obtain ⟨ix, -, hrun⟩ := Option.bind_eq_some_iff.1 hrun
    obtain ⟨s, -, hs⟩ := Option.map_eq_some_iff.1 hrun
    exact absurd (Prod.mk.inj hs).1 (by omega)

theorem createFile_ne (hfree : HasFree fs) (hash type : ℕ) :
    (createFile base fuel hash type).run' fs ≠ some (-1) := fun hrun => by
  obtain ⟨⟨r, fs₁⟩, hrun, rfl⟩ := Option.map_eq_some_iff.1 hrun
  exact firstFree_ne_none hfree (firstFree_of_createFile hrun)

/-! ## What an operation keeps for a hash -/

/-- What is found under the hash is the same in both states. -/
structure KeepsName (base key : ℕ) (fs fs' : TreeFs)
    (it nt it' nt' : Option (MultiTree ℕ ℕ ℕ .tree)) : Prop where
  trees : HoldsTrees fs'.index it' nt'
  points_inodes : Points base (treeList it')
  points_names : Points base (treeList nt')
  name : pointee base (treeList nt') key = pointee base (treeList nt) key
  inode : ∀ j, pointee base (treeList nt) key = some j → fs'.inodes j = fs.inodes j ∧
    pointee base (treeList it') j = pointee base (treeList it) j ∧
    ∀ offset size, inodeRead fs' (some j) offset size = inodeRead fs (some j) offset size

/-- The results of the operations on the name are the same in both states, where a file can be
    created as long as there are free i-nodes. -/
def SameResults (base fuel : ℕ) (name : FsName) (fs fs' : TreeFs) : Prop :=
  (btreeFsOpen base fuel name).run' fs' = (btreeFsOpen base fuel name).run' fs ∧
  (∀ size, (btreeFsRead base fuel name size).run' fs' = (btreeFsRead base fuel name size).run' fs) ∧
  (HasFree fs → HasFree fs' → ∀ type, (btreeFsCreate base fuel name type).run' fs' = some (-1) ↔
    (btreeFsCreate base fuel name type).run' fs = some (-1))

/-- What is found under a hash is a file. -/
theorem WellFormed.exists_file (h : WellFormed base fs it nt files) {key : ℕ} {j : InodePtr}
    (hj : pointee base (treeList nt) key = some j) :
    ∃ n, files n = some j ∧ hashString n = key := by
  obtain ⟨a, hlook, ha⟩ := Option.bind_eq_some_iff.1 hj
  obtain ⟨n, i, hn, heq⟩ := (h.names _).1 (mem_of_lookup hlook)
  obtain ⟨rfl, rfl⟩ := Prod.mk.inj heq
  rw [inodeAt_inodeAddr, Option.some_inj] at ha
  exact ⟨n, ha ▸ hn, rfl⟩

theorem KeepsName.sameResults (h : WellFormed base fs it nt files) (hbase : base ≠ 0)
    {name : FsName} (hk : KeepsName base (hashString name) fs fs' it nt it' nt')
    (hit : treeHeight it < fuel) (hnt : treeHeight nt < fuel) (hit' : treeHeight it' < fuel)
    (hnt' : treeHeight nt' < fuel) : SameResults base fuel name fs fs' := by
  have hfound : pointee base (treeList nt) (hashString name) = none ∨
      ∃ j, pointee base (treeList nt) (hashString name) = some j ∧ (fs.inodes j).inodeNum = j := by
    rcases hj : pointee base (treeList nt) (hashString name) with _ | j
    · exact .inl rfl
    · obtain ⟨n, hn, -⟩ := h.exists_file hj
      exact .inr ⟨j, rfl, h.num n j hn⟩
  refine ⟨?_, fun size => ?_, fun hfree hfree' type => ?_⟩
  · rw [run'_eq_some (hk.trees.run_btreeFsOpen hbase hk.points_names hnt' name),
      run'_eq_some (h.trees.run_btreeFsOpen hbase h.points_names hnt name), hk.name]
    rcases hfound with hj | ⟨j, hj, -⟩
    · rw [hj]
      rfl
    · rw [hj, openResult, openResult, (hk.inode j hj).1]
  · rw [hk.trees.run_btreeFsRead hbase hk.points_inodes hk.points_names hit' hnt',
      h.trees.run_btreeFsRead hbase h.points_inodes h.points_names hit hnt, hk.name]
    rcases hfound with hj | ⟨j, hj, hnum⟩
    · rw [hj]
      rfl
    · obtain ⟨hinode, hit, hread⟩ := hk.inode j hj
      obtain ⟨n, hn, -⟩ := h.exists_file hj
      rw [hj, readResult, readResult, hinode, hnum, hit, h.pointee_inode hn]
      simp only [hread]
  · rw [run'_eq_map, run'_eq_map, hk.trees.run_btreeFsCreate hbase hk.points_names hnt',
      h.trees.run_btreeFsCreate hbase h.points_names hnt, hk.name]
    split_ifs
    · exact Iff.rfl
    · exact iff_of_false (createFile_ne hfree' _ _) (createFile_ne hfree _ _)

/-- Nothing changed. -/
theorem KeepsName.refl (h : WellFormed base fs it nt files) (key : ℕ) :
    KeepsName base key fs fs it nt it nt :=
  ⟨h.trees, h.points_inodes, h.points_names, rfl, fun _ _ => ⟨rfl, rfl, fun _ _ => rfl⟩⟩

/-! ## Writing and deleting -/

/-- Writing a file keeps what is found under another hash. -/
theorem WellFormed.write_keeps (h : WellFormed base fs it nt files) (hinv : InodeInv fs extra)
    (hbase : base ≠ 0) (hit : treeHeight it < fuel) (hnt : treeHeight nt < fuel) {a : FsName}
    {key : ℕ} (hne : hashString a ≠ key) (data : ℕ → UInt8) (size : ℕ) :
    ∃ r fs', (btreeFsWrite base fuel a data size).run fs = some (r, fs') ∧
      KeepsName base key fs fs' it nt it nt := by
  rw [btreeFsWrite, StateT.run_bind, h.trees.run_btreeFsOpen hbase h.points_names hnt]
  rcases hi : pointee base (treeList nt) (hashString a) with _ | i
  · exact ⟨-1, fs, rfl, .refl h key⟩
  obtain ⟨n, hn, hhash⟩ := h.exists_file hi
  have huse := h.inUse n i hn
  have hpos : ¬ (i.val : ℤ) < 0 := by omega
  obtain ⟨len, fs', hwrite, hgrows, -⟩ := inodeWrite_spec hinv.owned huse data 0 size
  refine ⟨len, fs', ?_, hgrows.index ▸ h.trees, h.points_inodes, h.points_names, rfl,
    fun j hj => ?_⟩
  · simp only [openResult, h.num n i hn, Option.bind_eq_bind, Option.bind_some, if_neg hpos,
      StateT.run_bind, Int.toNat_natCast, h.trees.run_inodeGet hbase h.points_inodes hit,
      h.pointee_inode hn, StateT.run_get, Option.pure_def, StateT.run_monadLift, monadLift_self,
      hwrite, StateT.run_set, StateT.run_pure]
  · obtain ⟨n', hn', hhash'⟩ := h.exists_file hj
    have hji : j ≠ i := fun heq => by
      subst heq
      exact hne (by rw [← hhash, h.inj n n' j hn hn', hhash'])
    obtain ⟨len', fs'', hwrite', hread⟩ :=
      hinv.write_isolated huse (h.inUse n' j hn') hji data 0 size
    obtain ⟨rfl, rfl⟩ := Prod.mk.inj (Option.some.inj (hwrite'.symm.trans hwrite))
    exact ⟨hgrows.others j hji, rfl, hread⟩

/-- Deleting a file keeps what is found under another hash. -/
theorem WellFormed.delete_keeps (h : WellFormed base fs it nt files) (hbase : base ≠ 0)
    (hit : treeHeight it < fuel) (hnt : treeHeight nt < fuel) {a : FsName} {key : ℕ}
    (hne : hashString a ≠ key) : ∃ r fs' it' nt',
      (btreeFsDelete base fuel a).run fs = some (r, fs') ∧
      KeepsName base key fs fs' it nt it' nt' ∧ treeHeight it' = treeHeight it ∧
      treeHeight nt' = treeHeight nt := by
  rcases hi : pointee base (treeList nt) (hashString a) with _ | i
  · refine ⟨-1, fs, it, nt, ?_, .refl h key, rfl, rfl⟩
    rw [btreeFsDelete, StateT.run_bind, h.trees.run_nameSearch hbase h.points_names hnt, hi]
    rfl
  obtain ⟨n, hn, hhash⟩ := h.exists_file hi
  obtain ⟨ix, bitmap, k, hrun, htrees⟩ :=
    h.trees.run_btreeFsDelete hbase h.points_names hnt hit hi (h.inUse n i hn)
  rw [h.num n i hn] at htrees
  refine ⟨0, _, _, _, hrun, ⟨htrees, points_erase h.trees.inodes h.points_inodes _,
    points_erase h.trees.names h.points_names _, pointee_erase_of_ne h.trees.names hne.symm,
    fun j hj => ?_⟩, treeHeight_erase _ _, treeHeight_erase _ _⟩
  obtain ⟨n', hn', hhash'⟩ := h.exists_file hj
  have hji : j ≠ i := fun heq => by
    subst heq
    exact hne (by rw [← hhash, h.inj n n' j hn hn', hhash'])
  have hsame : Function.update fs.inodes i { fs.inodes i with inUse := false } j = fs.inodes j :=
    Function.update_of_ne hji ..
  exact ⟨hsame, pointee_erase_of_ne h.trees.inodes (Fin.val_ne_of_ne hji),
    inodeRead_congr hsame fun _ _ _ _ => rfl⟩

/-! ## Creating -/

/-- The nodes that `kmalloc` has still to give are new: it gives no memory that is in use, and
    nodes are never freed. -/
structure FreshNodes (s : BtreeMem) (names : List ℕ) : Prop where
  unused : ∀ n, s.calls ≤ n → s.fresh n ∉ names
  distinct : ∀ m n, s.calls ≤ m → m < n → s.fresh m = s.fresh n → s.fresh m = 0

/-- Creating the file splits no node. -/
def NoSplit (fs : TreeFs) (it nt : Option (MultiTree ℕ ℕ ℕ .tree)) (a : FsName) : Prop :=
  treeRoom (hashString a) nt ∧ ∀ i, firstFree fs = some i → treeRoom i it

section Inserted

variable {key key' value : ℕ} {s s' : BtreeMem} {tree tree' : Btree}
  {o o' : Option (MultiTree ℕ ℕ ℕ .tree)}

/-- The entry of another key is the same. -/
theorem Inserted.lookup_of_ne (h : Inserted key value s s' o o')
    (ho : HoldsTree s.words tree.root o) (ho' : HoldsTree s'.words tree'.root o')
    (hne : key' ≠ key) : (treeList o').lookup key' = (treeList o).lookup key' := by
  rcases hlook : (treeList o).lookup key' with _ | v
  · refine lookup_eq_none fun e he heq => ?_
    have hmem := (h.mem e (heq ▸ hne)).1 he
    rw [← heq, lookup_of_mem ho.pairwise hmem] at hlook
    exact Option.some_ne_none _ hlook
  · exact lookup_of_mem ho'.pairwise ((h.mem (key', v) hne).2 (mem_of_lookup hlook))

theorem Inserted.points (h : Inserted key value s s' o o') (hp : Points base (treeList o))
    {i : InodePtr} (hi : value = inodeAddr base i) : Points base (treeList o') := fun e he => by
  by_cases heq : e.1 = key
  · exact ⟨i, (h.value e he heq).trans hi⟩
  · exact hp e ((h.mem e heq).1 he)

end Inserted

/-- Entering an i-node by its number. -/
theorem HoldsTrees.treeIndex_insert {ix : TreeIndex} (h : HoldsTrees ix it nt)
    (hfresh : FreshNodes ix.mem (treeNames it ++ treeNames nt)) {num : ℕ} {i : InodePtr} {r : ℤ}
    {tree : Btree} {s : BtreeMem}
    (hrun : (btreeInsert fuel ix.inodeTree num (inodeAddr base i)).run ix.mem = some ((r, tree), s))
    (hholds : HoldsTree s.words tree.root it')
    (hins : Inserted num (inodeAddr base i) ix.mem s it it') :
    (treeIndex base fuel).insert ix num i = some { ix with inodeTree := tree, mem := s } ∧
      HoldsTrees { ix with inodeTree := tree, mem := s } it' nt ∧
      FreshNodes s (treeNames it' ++ treeNames nt) := by
  have hnot : ∀ n, ix.mem.calls ≤ n → ix.mem.fresh n ∉ treeNames nt := fun n hn hmem =>
    hfresh.unused n hn (List.mem_append_right _ hmem)
  refine ⟨?_, ⟨hholds, ?_, fun q hq hq' => ?_⟩, fun n hn hmem => ?_, fun m n hm => ?_⟩
  · simp only [treeIndex, hrun, Option.bind_eq_bind, Option.bind_some, Option.pure_def]
  · exact h.names.congr fun q hq => hins.frame q (fun hq' => h.disjoint q hq' hq)
      fun heq => hnot _ le_rfl (heq ▸ hq)
  · rcases hins.names q hq with hq | ⟨rfl, -, -⟩
    · exact h.disjoint q hq hq'
    · exact hnot _ le_rfl hq'
  · rw [hins.fresh] at hmem
    have hcalls := hins.calls.trans hn
    rcases List.mem_append.1 hmem with hmem | hmem
    · rcases hins.names _ hmem with hmem | ⟨heq, hzero, hlt⟩
      · exact hfresh.unused n hcalls (List.mem_append_left _ hmem)
      · exact hzero (heq ▸ hfresh.distinct _ n le_rfl (hlt.trans_le hn) heq.symm)
    · exact hnot n hcalls hmem
  · rw [hins.fresh]
    exact hfresh.distinct m n (hins.calls.trans hm)

/-- Entering an i-node by the hash of the name of the file. -/
theorem HoldsTrees.run_nameInsert (h : HoldsTrees fs.index it nt)
    (hfresh : FreshNodes fs.index.mem (treeNames it ++ treeNames nt)) {hash : ℕ} {i : InodePtr}
    {r : ℤ} {tree : Btree} {s : BtreeMem}
    (hrun : (btreeInsert fuel fs.index.nameTree hash (inodeAddr base i)).run fs.index.mem =
      some ((r, tree), s)) (hholds : HoldsTree s.words tree.root nt')
    (hins : Inserted hash (inodeAddr base i) fs.index.mem s nt nt') :
    (nameInsert base fuel hash i).run fs =
        some ((), { fs with index := { fs.index with nameTree := tree, mem := s } }) ∧
      HoldsTrees { fs.index with nameTree := tree, mem := s } it nt' := by
  have hnot : fs.index.mem.fresh fs.index.mem.calls ∉ treeNames it := fun hmem =>
    hfresh.unused _ le_rfl (List.mem_append_left _ hmem)
  refine ⟨?_, ?_, hholds, fun q hq hq' => ?_⟩
  · rw [nameInsert]
    simp only [StateT.run_bind, StateT.run_get, Option.pure_def, Option.bind_eq_bind,
      Option.bind_some, StateT.run_monadLift, monadLift_self, hrun, StateT.run_set]
  · exact h.inodes.congr fun q hq => hins.frame q (h.disjoint q hq) fun heq => hnot (heq ▸ hq)
  · rcases hins.names q hq' with hq' | ⟨rfl, -, -⟩
    · exact h.disjoint q hq hq'
    · exact hnot hq

/-- Creating a file, when both insertions return. -/
theorem HoldsTrees.run_createFile (h : HoldsTrees fs.index it nt)
    (hfresh : FreshNodes fs.index.mem (treeNames it ++ treeNames nt)) {p : InodePtr} {hash : ℕ}
    {r r' : ℤ} {tree tree' : Btree} {s s' : BtreeMem} (hfind : firstFree fs = some p)
    (hrun : (btreeInsert fuel fs.index.inodeTree p (inodeAddr base p)).run fs.index.mem =
      some ((r, tree), s)) (hholds : HoldsTree s.words tree.root it')
    (hins : Inserted p (inodeAddr base p) fs.index.mem s it it')
    (hrun' : (btreeInsert fuel fs.index.nameTree hash (inodeAddr base p)).run s =
      some ((r', tree'), s')) (hholds' : HoldsTree s'.words tree'.root nt')
    (hins' : Inserted hash (inodeAddr base p) s s' nt nt') (type : ℕ) :
    ∃ fs', (createFile base fuel hash type).run fs = some ((p : ℤ), fs') ∧
      HoldsTrees fs'.index it' nt' ∧
      fs'.inodes = Function.update fs.inodes p (newInode p type) ∧
      fs'.blockStorage = fs.blockStorage := by
  obtain ⟨hinsert, htrees, hfresh'⟩ := h.treeIndex_insert hfresh hrun hholds hins
  have halloc : HoldsTrees (allocated fs p type _).index it' nt := htrees
  obtain ⟨hname, htrees'⟩ := halloc.run_nameInsert hfresh' hrun' hholds' hins'
  refine ⟨{ allocated fs p type { fs.index with inodeTree := tree, mem := s } with
    index := ⟨tree, tree', s'⟩ }, ?_, htrees', rfl, rfl⟩
  rw [Fru1tOs.run_createFile hfind, hinsert, Option.bind_some, hname, Option.map_some]
  simp only [allocated, InodeFs.setInode, Function.update_self, newInode]

/-- Creating a file without a split keeps what is found under another hash. -/
theorem WellFormed.create_keeps (h : WellFormed base fs it nt files) (hinv : InodeInv fs extra)
    (hbase : base ≠ 0) (hfresh : FreshNodes fs.index.mem (treeNames it ++ treeNames nt))
    (hit : treeHeight it < fuel) (hnt : treeHeight nt < fuel) {a : FsName} {key : ℕ}
    (hne : hashString a ≠ key) (hsplit : NoSplit fs it nt a) (type : ℕ) :
    ∃ r fs' it' nt', (btreeFsCreate base fuel a type).run fs = some (r, fs') ∧
      KeepsName base key fs fs' it nt it' nt' ∧ treeHeight it' ≤ treeHeight it + 1 ∧
      treeHeight nt' ≤ treeHeight nt + 1 := by
  rw [h.trees.run_btreeFsCreate hbase h.points_names hnt]
  split_ifs with hcond
  · exact ⟨-1, fs, it, nt, rfl, .refl h key, Nat.le_succ _, Nat.le_succ _⟩
  have hnone := not_not.1 (not_or.1 hcond).2
  rcases hfind : firstFree fs with _ | p
  · exact ⟨-1, fs, it, nt, run_createFile_none hfind _ _, .refl h key, Nat.le_succ _, Nat.le_succ _⟩
  -- The i-node is nobody's.
  have huse : (fs.inodes p).inUse = false := by
    rw [← hinv.bitmap]
    simpa using List.find?_some hfind
  have hfile : ∀ n j, files n = some j → j ≠ p := fun n j hn heq => by
    rw [← heq, h.inUse n j hn] at huse
    exact Bool.noConfusion huse
  have hnum : ∀ e ∈ treeList it, e.1 ≠ p := fun e he => by
    obtain ⟨n, i, hn, rfl⟩ := (h.inodes e).1 he
    exact Fin.val_ne_of_ne (hfile n i hn)
  have hhash : ∀ e ∈ treeList nt, e.1 ≠ hashString a := fun e he heq => by
    obtain ⟨n, i, hn, rfl⟩ := (h.names e).1 he
    rw [← heq, h.pointee_name hn] at hnone
    exact Option.some_ne_none _ hnone
  obtain ⟨r, tree, m, it', hrun, hholds, hinserted, -⟩ :=
    h.trees.inodes.insert hnum (hsplit.2 p hfind) hit (inodeAddr base p)
  obtain ⟨-, htrees, -⟩ := h.trees.treeIndex_insert hfresh hrun hholds hinserted
  obtain ⟨r', tree', m', nt', hrun', hholds', hinserted', -⟩ :=
    htrees.names.insert hhash hsplit.1 hnt (inodeAddr base p)
  obtain ⟨fs', hcreate, htrees', hinodes, hstorage⟩ :=
    h.trees.run_createFile hfresh hfind hrun hholds hinserted hrun' hholds' hinserted' type
  refine ⟨p, fs', it', nt', hcreate, ⟨htrees', hinserted.points h.points_inodes rfl,
    hinserted'.points h.points_names rfl, ?_, fun j hj => ?_⟩, hinserted.height, hinserted'.height⟩
  · rw [pointee, pointee, hinserted'.lookup_of_ne htrees.names hholds' hne.symm]
  · obtain ⟨n, hn, -⟩ := h.exists_file hj
    have hjp := hfile n j hn
    have hinode : fs'.inodes j = fs.inodes j := by rw [hinodes, Function.update_of_ne hjp]
    refine ⟨hinode, ?_, inodeRead_congr hinode fun _ _ _ _ => by rw [hstorage]⟩
    rw [pointee, pointee, hinserted.lookup_of_ne h.trees.inodes hholds (Fin.val_ne_of_ne hjp)]

/-! ## Isolation -/

/-- The operations that change files, by name. -/
inductive NameOp
  | create (type : ℕ)
  | write (data : ℕ → UInt8) (size : ℕ)
  | delete

/-- The operation on the file `a`. -/
def NameOp.op (base fuel : ℕ) (a : FsName) : NameOp → TreeFsM ℤ
  | create type => btreeFsCreate base fuel a type
  | write data size => btreeFsWrite base fuel a data size
  | delete => btreeFsDelete base fuel a

/-- An operation on a name does not change the results for another name with a different hash. -/
theorem names_isolated (hbase : base ≠ 0) (h : WellFormed base fs it nt files)
    (hinv : InodeInv fs extra) (hfresh : FreshNodes fs.index.mem (treeNames it ++ treeNames nt))
    {a b : FsName} (hne : hashString a ≠ hashString b) (c : NameOp)
    (hsplit : ∀ type, c = .create type → NoSplit fs it nt a) :
    ∃ N, ∀ fuel ≥ N, ∃ r fs', (c.op base fuel a).run fs = some (r, fs') ∧
      SameResults base fuel b fs fs' := by
  refine ⟨treeHeight it + treeHeight nt + 2, fun fuel hfuel => ?_⟩
  have hit : treeHeight it < fuel := by omega
  have hnt : treeHeight nt < fuel := by omega
  cases c with
  | create type =>
    obtain ⟨r, fs', it', nt', hrun, hkeeps, hit', hnt'⟩ :=
      h.create_keeps hinv hbase hfresh hit hnt hne (hsplit type rfl) type
    exact ⟨r, fs', hrun, hkeeps.sameResults h hbase hit hnt (by omega) (by omega)⟩
  | write data size =>
    obtain ⟨r, fs', hrun, hkeeps⟩ := h.write_keeps hinv hbase hit hnt hne data size
    exact ⟨r, fs', hrun, hkeeps.sameResults h hbase hit hnt hit hnt⟩
  | delete =>
    obtain ⟨r, fs', it', nt', hrun, hkeeps, hit', hnt'⟩ := h.delete_keeps hbase hit hnt hne
    exact ⟨r, fs', hrun, hkeeps.sameResults h hbase hit hnt (hit' ▸ hit) (hnt' ▸ hnt)⟩

theorem inodeInv_threeFiles : InodeInv threeFiles [] := by
  have hentry : ∀ p k, threeFiles.entry p k = 0 := fun p k => ite_self 0
  refine ⟨⟨fun p k hk => absurd (hentry p k) hk, fun p k q l hk => absurd (hentry p k) hk,
    fun b hb => absurd hb List.not_mem_nil⟩, by decide +kernel, fun p => rfl, by decide +kernel⟩

theorem freshNodes_threeFiles : FreshNodes threeFiles.index.mem
    (treeNames threeFilesInodes ++ treeNames threeFilesNames) := by
  refine ⟨fun n hn hmem => ?_, fun m n _ hlt heq => ?_⟩
  · have hmem' : n + 5 ∈ [1, 2, 3, 4] := hmem
    simp at hmem'
  · have heq' : m + 5 = n + 5 := heq
    omega

theorem names_isolated_threeFiles : ∃ N, ∀ fuel ≥ N, ∃ r fs',
    (NameOp.delete.op 1000 fuel [98]).run threeFiles = some (r, fs') ∧
      SameResults 1000 fuel [97] threeFiles fs' :=
  names_isolated (by decide) wellFormed_threeFiles inodeInv_threeFiles freshNodes_threeFiles
    (by decide) .delete fun type heq => nomatch heq

/-- A new file system. -/
def newTreeFs : TreeFs :=
  inodeFsInit ⟨btreeInit, btreeInit, ⟨fun _ _ => 0, fun n => n + 1, 0, true⟩⟩ threeFiles

/-- The names `ab` and `bA` have the same hash, so that creating the one makes the other exist.
    And the number that a new file gets depends on the files created before. -/
theorem names_collide :
    (btreeFsOpen 1000 4 [98, 65]).run' newTreeFs = some (-1) ∧
    (btreeFsCreate 1000 4 [97, 98] 1 >>= fun _ => btreeFsOpen 1000 4 [98, 65]).run' newTreeFs =
      some 0 ∧
    (btreeFsCreate 1000 4 [98] 1).run' newTreeFs = some 0 ∧
    (btreeFsCreate 1000 4 [97] 1 >>= fun _ => btreeFsCreate 1000 4 [98] 1).run' newTreeFs =
      some 1 := by
  decide +kernel

end Fru1tOs
