import Fru1tOs.Btree.NoMemory
import Fru1tOs.Inode.Isolation

/-!
# Creating a file when a node cannot be allocated

`btree_fs_create` enters a new i-node in two trees, and looks at the result of neither insertion.
When it returns -1 nothing has changed. When it returns a number, the file is there if both
insertions have made an entry, which takes a node of the tree for the first one of all.

* `TreesPoint.create_cases`: what is found after the two insertions.
* `create_right_iff`: when the file that was created can be opened.
-/

namespace Fru1tOs

open Lib MultiTree

variable {base fuel : ℕ} {fs : TreeFs} {it nt : Option (MultiTree ℕ ℕ ℕ .tree)} {p : InodePtr}

/-- The trees of the file system are ordered, and have no node in common. The one has i-nodes by
    their numbers; the other has i-nodes. -/
structure TreesPoint (base : ℕ) (fs : TreeFs) (it nt : Option (MultiTree ℕ ℕ ℕ .tree)) : Prop where
  trees : HoldsTrees fs.index it nt
  inodes : ∀ e ∈ treeList it, ∃ i : InodePtr, e = (i.val, inodeAddr base i)
  names : Points base (treeList nt)

/-- `btree_fs_create` returns a number, and the file is opened and the i-node is got by it, or it
    returns -1 and leaves everything as it was. -/
def CreatesRight (base fuel : ℕ) (filename : FsName) (type : ℕ) (fs : TreeFs) : Prop :=
  ∃ r fs', (btreeFsCreate base fuel filename type).run fs = some (r, fs') ∧
    (0 ≤ r → (btreeFsOpen base fuel filename).run' fs' = some r ∧
      ∃ i : InodePtr, r = i ∧ (inodeGet base fuel i).run' fs' = some (some i)) ∧
    (r < 0 → r = -1 ∧ fs' = fs)

/-- The name is too long, its hash is there already, or there is no free i-node. -/
def CreateRefused (fs : TreeFs) (nt : Option (MultiTree ℕ ℕ ℕ .tree)) (filename : FsName) : Prop :=
  filename.length ≥ maxFilenameLen ∨ (∃ e ∈ treeList nt, e.1 = hashString filename) ∨
    firstFree fs = none

/-- The next node that `kmalloc` gives. -/
def nextNode (fs : TreeFs) : ℕ := fs.index.mem.fresh fs.index.mem.calls

/-- The node that it gives next when the i-node `p` was entered by its number, without a split. -/
def nameNode (fs : TreeFs) (it : Option (MultiTree ℕ ℕ ℕ .tree)) (p : InodePtr) : ℕ :=
  fs.index.mem.fresh (fs.index.mem.calls +
    if AsksRoot fs.index.mem.words fs.index.inodeTree it p then 1 else 0)

/-- Both insertions make their entries, without a split. -/
def CreateEnters (fs : TreeFs) (it nt : Option (MultiTree ℕ ℕ ℕ .tree)) (filename : FsName) :
    Prop :=
  ∃ p, firstFree fs = some p ∧ Enters (nextNode fs) fs.index.inodeTree it p ∧
    Enters (nameNode fs it p) fs.index.nameTree nt (hashString filename)

/-- One of the insertions comes to a split. -/
def CreateSplits (fs : TreeFs) (it nt : Option (MultiTree ℕ ℕ ℕ .tree)) (filename : FsName) :
    Prop :=
  ∃ p : InodePtr, firstFree fs = some p ∧
    (Splits (nextNode fs) fs.index.mem.words fs.index.inodeTree it p ∨
      Splits (nameNode fs it p) fs.index.mem.words fs.index.nameTree nt (hashString filename))

theorem TreesPoint.points_inodes (h : TreesPoint base fs it nt) : Points base (treeList it) :=
  fun e he => by
    obtain ⟨i, rfl⟩ := h.inodes e he
    exact ⟨i, rfl⟩

/-- A pointer is found for the keys of the entries. -/
theorem pointee_ne_none_iff {l : List (ℕ × ℕ)} (hl : l.Pairwise fun e e' => e.1 < e'.1)
    (hp : Points base l) {key : ℕ} : pointee base l key ≠ none ↔ ∃ e ∈ l, e.1 = key := by
  constructor
  · intro hne
    by_contra hnone
    exact hne (pointee_eq_none fun e he heq => hnone ⟨e, he, heq⟩)
  · rintro ⟨⟨k, a⟩, he, rfl⟩
    obtain ⟨i, hi⟩ := hp _ he
    change a = inodeAddr base i at hi
    subst hi
    rw [pointee_of_mem hl he]
    exact Option.some_ne_none i

/-- What is found for a key after its insertion is the new pointer, if it was entered. -/
theorem Inserted.pointee_cases {key : ℕ} {s s' : BtreeMem} {o o' : Option (MultiTree ℕ ℕ ℕ .tree)}
    {tree : Btree} {P : Prop} (h : Inserted key (inodeAddr base p) s s' o o')
    (ho : HoldsTree s'.words tree.root o') (hmem : (key, inodeAddr base p) ∈ treeList o' ↔ P) :
    P ∧ pointee base (treeList o') key = some p ∨ ¬P ∧ pointee base (treeList o') key = none := by
  by_cases hP : P
  · exact .inl ⟨hP, pointee_of_mem ho.pairwise (hmem.2 hP)⟩
  · refine .inr ⟨hP, pointee_eq_none fun e he heq => hP (hmem.1 ?_)⟩
    rw [← heq, ← h.value e he heq]
    exact he

/-- Creating a file, without a split: it returns the number of the i-node, whatever the insertions
    come to. -/
theorem TreesPoint.create_cases {filename : FsName} (h : TreesPoint base fs it nt)
    (hbase : base ≠ 0) (hfresh : FreshNodes fs.index.mem (treeNames it ++ treeNames nt))
    (hit : treeHeight it + 1 < fuel) (hnt : treeHeight nt + 1 < fuel)
    (hfind : firstFree fs = some p) (hnew : ∀ e ∈ treeList nt, e.1 ≠ hashString filename)
    (hsplit : ¬CreateSplits fs it nt filename) (type : ℕ) :
    ∃ fs' r, (createFile base fuel (hashString filename) type).run fs = some ((p : ℤ), fs') ∧
      (btreeFsOpen base fuel filename).run' fs' = some r ∧
      (Enters (nextNode fs) fs.index.inodeTree it p ∧
          (inodeGet base fuel p).run' fs' = some (some p) ∨
        ¬Enters (nextNode fs) fs.index.inodeTree it p ∧
          (inodeGet base fuel p).run' fs' = some none) ∧
      (Enters (nameNode fs it p) fs.index.nameTree nt (hashString filename) ∧ r = p ∨
        ¬Enters (nameNode fs it p) fs.index.nameTree nt (hashString filename) ∧ r = -1) := by
  have hsplits : ¬Splits (nextNode fs) fs.index.mem.words fs.index.inodeTree it p ∧
      ¬Splits (nameNode fs it p) fs.index.mem.words fs.index.nameTree nt (hashString filename) :=
    ⟨fun hs => hsplit ⟨p, hfind, .inl hs⟩, fun hs => hsplit ⟨p, hfind, .inr hs⟩⟩
  have haddr := inodeAddr_ne_zero hbase p
  -- An entry for the number leads to the i-node already.
  have hval : ∀ e ∈ treeList it, e.1 = p → e.2 = inodeAddr base p := fun e he heq => by
    obtain ⟨i, rfl⟩ := h.inodes e he
    rw [Fin.ext heq]
  obtain ⟨r, tree, s, it', hrun, hholds, hins, hcalls, hmem⟩ :=
    h.trees.inodes.insert_cases hval haddr (Nat.lt_of_succ_lt hit) hsplits.1
  obtain ⟨-, htrees, hfresh'⟩ := h.trees.treeIndex_insert hfresh hrun hholds hins
  have hnode : s.fresh s.calls = nameNode fs it p := by rw [hins.fresh, hcalls, nameNode]
  -- The first insertion leaves the nodes of the other tree as they were.
  have hsplit' : ¬Splits (s.fresh s.calls) s.words fs.index.nameTree nt (hashString filename) := by
    rintro ⟨hn, hroom, hfull⟩
    refine hsplits.2 ⟨hn, hroom, fun hw => hnode ▸ hfull ?_⟩
    cases nt with
    | none => exact absurd trivial hroom
    | some t =>
      have hroot := h.trees.names.1.mem_names
      rwa [hins.frame _ (fun hq => h.trees.disjoint _ hq hroot) fun heq =>
        hfresh.unused _ le_rfl (List.mem_append_right _ (heq ▸ hroot))]
  obtain ⟨r', tree', s', nt', hrun', hholds', hins', -, hmem'⟩ :=
    htrees.names.insert_cases (fun e he heq => absurd heq (hnew e he)) haddr
      (Nat.lt_of_succ_lt hnt) hsplit'
  rw [hnode] at hmem'
  obtain ⟨fs', hcreate, htrees', hinodes, -⟩ :=
    h.trees.run_createFile hfresh hfind hrun hholds hins hrun' hholds' hins' type
  have hget := run'_eq_some (htrees'.run_inodeGet hbase (hins.points h.points_inodes rfl)
    (hins.height.trans_lt hit) p)
  have hopen := run'_eq_some (htrees'.run_btreeFsOpen hbase (hins'.points h.names rfl)
    (hins'.height.trans_lt hnt) filename)
  refine ⟨fs', _, hcreate, hopen, ?_, ?_⟩
  · rw [hget]
    exact (hins.pointee_cases hholds hmem).imp (And.imp_right (congrArg some))
      (And.imp_right (congrArg some))
  · refine (hins'.pointee_cases hholds' hmem').imp (And.imp_right fun hp => ?_)
      (And.imp_right fun hp => ?_)
    · rw [hp, openResult, hinodes, Function.update_self, newInode]
    · rw [hp, openResult]

/-- When `btree_fs_create` returns -1, nothing has changed. -/
theorem TreesPoint.eq_of_create_neg {filename : FsName} {type : ℕ} {fs' : TreeFs}
    (h : TreesPoint base fs it nt) (hbase : base ≠ 0) (hnt : treeHeight nt < fuel)
    (hrun : (btreeFsCreate base fuel filename type).run fs = some (-1, fs')) : fs' = fs := by
  rw [h.trees.run_btreeFsCreate hbase h.names hnt] at hrun
  split_ifs at hrun
  · cases hrun
    rfl
  · rw [run_createFile_none (firstFree_of_createFile hrun)] at hrun
    cases hrun
    rfl

/-- A file that is refused is right. -/
theorem TreesPoint.createsRight_of_refused {filename : FsName} (h : TreesPoint base fs it nt)
    (hbase : base ≠ 0) (hnt : treeHeight nt < fuel) (href : CreateRefused fs nt filename)
    (type : ℕ) : CreatesRight base fuel filename type fs := by
  refine ⟨-1, fs, ?_, fun hr => absurd hr (by decide), fun _ => ⟨rfl, rfl⟩⟩
  rw [h.trees.run_btreeFsCreate hbase h.names hnt]
  split_ifs with hcond
  · rfl
  · rw [pointee_ne_none_iff h.trees.names.pairwise h.names] at hcond
    refine run_createFile_none (href.elim (fun hlen => absurd (.inl hlen) hcond) fun hrest =>
      hrest.resolve_left fun hkey => hcond (.inr hkey)) _ _

/-- A file that is not refused, and is created without a split, is right iff both entries are
    made. -/
theorem TreesPoint.createsRight_iff {filename : FsName} (h : TreesPoint base fs it nt)
    (hbase : base ≠ 0) (hfresh : FreshNodes fs.index.mem (treeNames it ++ treeNames nt))
    (hit : treeHeight it + 1 < fuel) (hnt : treeHeight nt + 1 < fuel)
    (href : ¬CreateRefused fs nt filename) (hsplit : ¬CreateSplits fs it nt filename) (type : ℕ) :
    CreatesRight base fuel filename type fs ↔ CreateEnters fs it nt filename := by
  simp only [CreateRefused, not_or] at href
  obtain ⟨hlen, hkey, hfree⟩ := href
  obtain ⟨p, hfind⟩ := Option.ne_none_iff_exists'.1 hfree
  have hnew : ∀ e ∈ treeList nt, e.1 ≠ hashString filename := fun e he heq => hkey ⟨e, he, heq⟩
  obtain ⟨fs', r, hcreate, hopen, hget, hname⟩ :=
    h.create_cases hbase hfresh hit hnt hfind hnew hsplit type
  have hrun : (btreeFsCreate base fuel filename type).run fs = some ((p : ℤ), fs') := by
    have hnone := mt (pointee_ne_none_iff h.trees.names.pairwise h.names).1 hkey
    rw [h.trees.run_btreeFsCreate hbase h.names (Nat.lt_of_succ_lt hnt),
      if_neg (not_or_intro hlen hnone), hcreate]
  constructor
  · rintro ⟨r', fs'', hrun', hright, -⟩
    cases hrun.symm.trans hrun'
    obtain ⟨hopen', i, hi, hget'⟩ := hright (Int.natCast_nonneg _)
    obtain rfl : p = i := Fin.ext (by exact_mod_cast hi)
    refine ⟨p, hfind, hget.elim And.left fun hnot => ?_, hname.elim And.left fun hnot => ?_⟩
    · cases hnot.2.symm.trans hget'
    · have heq := Option.some.inj (hopen.symm.trans hopen')
      exact absurd (hnot.2.symm.trans heq) (by omega)
  · rintro ⟨p', hfind', henters, henters'⟩
    cases hfind.symm.trans hfind'
    refine ⟨p, fs', hrun, fun _ => ⟨?_, p, rfl, ?_⟩, fun hneg => absurd hneg (by omega)⟩
    · rw [hopen, (hname.resolve_right fun hnot => hnot.1 henters').2]
    · exact (hget.resolve_right fun hnot => hnot.1 henters).2

theorem Enters.not_splits {q key : ℕ} {m : ℕ → ℕ → ℕ} {tree : Btree}
    {o : Option (MultiTree ℕ ℕ ℕ .tree)} (h : Enters q tree o key) : ¬Splits q m tree o key := by
  rintro ⟨hnew, hroom, -⟩
  rcases h with ⟨e, he, heq⟩ | h
  · exact hnew e he heq
  · exact hroom h.1

theorem CreateEnters.not_splits {filename : FsName} (h : CreateEnters fs it nt filename) :
    ¬CreateSplits fs it nt filename := by
  obtain ⟨p, hfind, henters, henters'⟩ := h
  rintro ⟨p', hfind', hsplit⟩
  cases hfind.symm.trans hfind'
  exact hsplit.elim henters.not_splits henters'.not_splits

/-- Two trees of a file system, ordered and of any shape, and any pattern of failures of `kmalloc`.
    When `btree_fs_create` returns -1, it has changed nothing. It is right if it refuses the file,
    or if both insertions make their entries without a split; and if none of them comes to a split,
    then only so. -/
theorem create_right_iff (hbase : base ≠ 0) (h : TreesPoint base fs it nt)
    (hfresh : FreshNodes fs.index.mem (treeNames it ++ treeNames nt)) (filename : FsName)
    (type : ℕ) : ∃ N, ∀ fuel ≥ N,
      (∀ fs', (btreeFsCreate base fuel filename type).run fs = some (-1, fs') → fs' = fs) ∧
      (CreateRefused fs nt filename ∨ CreateEnters fs it nt filename →
        CreatesRight base fuel filename type fs) ∧
      (CreatesRight base fuel filename type fs → ¬CreateSplits fs it nt filename →
        CreateRefused fs nt filename ∨ CreateEnters fs it nt filename) := by
  refine ⟨treeHeight it + treeHeight nt + 2, fun fuel hfuel => ⟨fun fs' hrun => ?_, ?_, ?_⟩⟩
  · exact h.eq_of_create_neg hbase (by omega) hrun
  · intro hcond
    by_cases href : CreateRefused fs nt filename
    · exact h.createsRight_of_refused hbase (by omega) href type
    · have henters := hcond.resolve_left href
      exact (h.createsRight_iff hbase hfresh (by omega) (by omega) href henters.not_splits type).2
        henters
  · intro hright hsplit
    rw [or_iff_not_imp_left]
    intro href
    exact (h.createsRight_iff hbase hfresh (by omega) (by omega) href hsplit type).1 hright

theorem treesPoint_threeFiles : TreesPoint 1000 threeFiles threeFilesInodes threeFilesNames where
  trees := wellFormed_threeFiles.trees
  inodes e he := by
    obtain ⟨n, i, -, rfl⟩ := (wellFormed_threeFiles.inodes e).1 he
    exact ⟨i, rfl⟩
  names := wellFormed_threeFiles.points_names

/-- Both trees have room for a file `d`. -/
theorem create_right_threeFiles : ∃ N, ∀ fuel ≥ N, CreatesRight 1000 fuel [100] 1 threeFiles := by
  obtain ⟨N, hN⟩ := create_right_iff (by decide) treesPoint_threeFiles freshNodes_threeFiles [100] 1
  have hfind : firstFree threeFiles = some 3 := by decide +kernel
  have hhash : hashString [100] = 177673 := by decide
  refine ⟨N, fun fuel hfuel => (hN fuel hfuel).2.1 (.inr ⟨3, hfind, .inr ⟨?_, ?_⟩, .inr ⟨?_, ?_⟩⟩)⟩
  · show [(0, 1000), (1, 1088), (2, 1176)].length < 4
    decide
  · exact fun h0 => absurd h0 (by decide)
  · rw [hhash]
    simp [treeRoom, threeFilesNames, Room, width]
  · exact fun h0 => absurd h0 (by decide)

/-- A new file system, and no memory for a node. -/
def noMemoryFs : TreeFs :=
  inodeFsInit ⟨btreeInit, btreeInit, ⟨fun _ _ => 0, fun _ => 0, 0, true⟩⟩ threeFiles

/-- The file `a` is created as the number 0, and cannot be opened. -/
theorem create_wrong_noMemory : TreesPoint 1000 noMemoryFs none none ∧
    FreshNodes noMemoryFs.index.mem (treeNames none ++ treeNames none) ∧
    (btreeFsCreate 1000 4 [97] 1).run' noMemoryFs = some 0 ∧
    (btreeFsCreate 1000 4 [97] 1 >>= fun _ => btreeFsOpen 1000 4 [97]).run' noMemoryFs =
      some (-1) ∧ ¬CreatesRight 1000 4 [97] 1 noMemoryFs := by
  have hcreate : (btreeFsCreate 1000 4 [97] 1).run' noMemoryFs = some 0 := by decide +kernel
  have hopen : (btreeFsCreate 1000 4 [97] 1 >>= fun _ => btreeFsOpen 1000 4 [97]).run' noMemoryFs =
      some (-1) := by decide +kernel
  refine ⟨⟨⟨rfl, rfl, fun q hq => absurd hq List.not_mem_nil⟩,
    fun e he => absurd he List.not_mem_nil, fun e he => absurd he List.not_mem_nil⟩,
    ⟨fun n _ => List.not_mem_nil, fun m n _ _ _ => rfl⟩,
    hcreate, hopen, ?_⟩
  rintro ⟨r, fs', hrun, hright, -⟩
  obtain rfl : r = 0 := Option.some.inj ((run'_eq_some hrun).symm.trans hcreate)
  rw [run'_eq_map, StateT.run_bind, hrun] at hopen
  exact absurd ((hright le_rfl).1.symm.trans hopen) (by decide)

end Fru1tOs
