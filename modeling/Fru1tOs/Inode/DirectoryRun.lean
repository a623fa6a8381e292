import Fru1tOs.Inode.Directory

/-!
# Runs of the file system

The operations of `inode.c` on files, in any order, and the directory they are meant to be. As
long as there are at most four files, the trees are one node each, and all results are those of
the directory.

* `Directory.Holds.write`, `Directory.Holds.read`, `Directory.Holds.delete`,
  `Directory.Holds.list`: what the operations do to the files.
* `btreeFs_refines_directory`: the results of a run.
-/

namespace Fru1tOs

open Lib MultiTree

section Holds

variable {base : ℕ} {fs fs' : TreeFs} {it nt : Option (MultiTree ℕ ℕ ℕ .tree)} {d : Directory}
  {filename : FsName} {i : InodePtr} {f : FsFile}

/-! ## Writing to a file -/

/-- There is a free block, as long as there are few i-nodes in use. -/
theorem NoLeak.exists_free (h : NoLeak fs)
    (hcard : (Finset.univ.filter fun p => (fs.inodes p).inUse).card * directBlockCount <
      maxBlocks - 1) : ∃ b, b ≠ 0 ∧ b < maxBlocks ∧ fs.blockBitmap.test b = false := by
  by_contra hnone
  simp only [not_exists, not_and, Bool.not_eq_false] at hnone
  -- Otherwise every block is at a place of an i-node in use, and there are too few of them.
  have hsub : Finset.Ico 1 maxBlocks ⊆ ((Finset.univ.filter fun p => (fs.inodes p).inUse) ×ˢ
      (Finset.univ : Finset (Fin directBlockCount))).image
        fun pk => (fs.inodes pk.1).directBlocks pk.2 := fun b hb => by
    obtain ⟨hpos, hlt⟩ := Finset.mem_Ico.1 hb
    obtain ⟨-, p, k, hp, hk⟩ := h.owner b hlt (hnone b (Nat.ne_of_gt hpos) hlt)
    exact Finset.mem_image.2 ⟨(p, k), by simp [hp], hk⟩
  have hle := (Finset.card_le_card hsub).trans Finset.card_image_le
  rw [Nat.card_Ico, Finset.card_product, Finset.card_univ, Fintype.card_fin] at hle
  omega

theorem type_blockFor {b : ℕ} {k : Fin directBlockCount}
    (hfor : blockFor fs i k = some (b, fs')) : (fs'.inodes i).type = (fs.inodes i).type := by
  rcases blockFor_cases fs i k with ⟨hnone, -⟩ | ⟨-, hold⟩ | ⟨b', -, -, -, -, hnew⟩
  · rw [hnone] at hfor
    cases hfor
  · rw [hold, Option.some_inj, Prod.mk.injEq] at hfor
    rw [hfor.2]
  · rw [hnew, Option.some_inj, Prod.mk.injEq] at hfor
    rw [← hfor.2, inodes_takeBlock_self]
    rfl

/-- `inode_write` keeps the type. -/
theorem InodeInv.type_write (h : InodeInv fs []) (hp : (fs.inodes i).inUse = true)
    (data : ℕ → UInt8) (size : ℕ) {n : ℕ}
    (hwrite : inodeWrite fs (some i) (some data) 0 size = some (n, fs')) :
    (fs'.inodes i).type = (fs.inodes i).type := by
  obtain ⟨r, hloop, -, -⟩ := writeLoop_spec h.owned hp data 0 size
  have htype : (r.1.inodes i).type = (fs.inodes i).type :=
    (writeLoop_induction (Q := fun s => (s.1.inodes i).type = (fs.inodes i).type) h.owned hp
      (by decide) hloop rfl fun fs₁ n k b fs₂ hQ _ _ _ _ _ hfor => (type_blockFor hfor).trans hQ).1
  rw [inodeWrite_eq hloop, Option.some_inj, Prod.mk.injEq] at hwrite
  rw [← hwrite.2, growSize]
  split_ifs
  · rw [inodes_setInode_self, htype]
  · exact htype

/-- `inode_write` from the start of the file writes all the bytes, up to the largest size. -/
theorem Directory.Holds.writesTo (h : d.Holds base fs it nt) (hi : d i = some f)
    (hcount : d.count ≤ btreeMaxKeys) (data : ℕ → UInt8) (size : ℕ) : ∃ fs',
      inodeWrite fs (some i) (some data) 0 size = some (min size maxFileSize, fs') ∧
      WritesTo i data 0 size fs fs' (min size maxFileSize) ∧ InodeInv fs' [] ∧ NoLeak fs' := by
  have huse : (fs.inodes i).inUse = true := by rw [h.inUse, hi]; rfl
  obtain ⟨n, fs', hwrite, hto, hinv⟩ := h.inv.writesTo huse data 0 size
  obtain ⟨n', fs₁, hwrite', hwrites, hgrows, -, hle, hstop⟩ :=
    h.inv.write_spec huse data (by decide : 0 < 2 ^ 32) size
  obtain ⟨rfl, -⟩ := Prod.mk.inj (Option.some.inj (hwrite.symm.trans hwrite'))
  have hroom : ∃ b, b ≠ 0 ∧ b < maxBlocks ∧ fs₁.blockBitmap.test b = false := by
    refine (h.noLeak.write huse hgrows).exists_free ?_
    have hused : (Finset.univ.filter fun p => (fs₁.inodes p).inUse).card = d.count := by
      refine congrArg Finset.card (Finset.filter_congr fun p _ => ?_)
      rcases eq_or_ne p i with rfl | hp
      · rw [hgrows.inUse, h.inUse]
      · rw [hgrows.others p hp, h.inUse]
    rw [hused]
    exact (Nat.mul_le_mul_right _ hcount).trans_lt (by decide)
  obtain rfl : n = min size maxFileSize := by
    have hfits := hwrites.fits
    refine le_antisymm (le_min hle (by omega)) (not_lt.1 fun hlt => ?_)
    refine hstop (hlt.trans_le (min_le_left _ _)) ⟨?_, .inr hroom⟩
    have hmax : n < maxFileSize := hlt.trans_le (min_le_right _ _)
    simp only [maxFileSize, fsBlockSize, directBlockCount] at hmax ⊢
    omega
  exact ⟨fs', hwrite, hto, hinv, h.noLeak.write huse hto.grows⟩

theorem length_overwrite (bytes : List UInt8) (data : ℕ → UInt8) (n : ℕ) :
    (overwrite bytes data n).length = max bytes.length n := by
  simp only [overwrite, List.length_append, List.length_map, List.length_range, List.length_drop]
  omega

/-- The file that was written to. -/
theorem HoldsFile.write (h : HoldsFile fs i f) {data : ℕ → UInt8} {size n : ℕ}
    (hto : WritesTo i data 0 size fs fs' n) (htype : (fs'.inodes i).type = (fs.inodes i).type) :
    HoldsFile fs' i { f with bytes := overwrite f.bytes data n } := by
  have hlen := length_overwrite f.bytes data n
  refine ⟨htype.trans h.type, ?_, fun j hj => ?_, fun k hk => ?_⟩
  · rw [hto.fileSize, h.size, hlen, Nat.zero_add]
  · change j < (overwrite f.bytes data n).length at hj
    rcases lt_or_ge j n with hlt | hge
    · have hwritten := hto.written j hlt
      rw [Nat.zero_add] at hwritten
      simp [hwritten, overwrite, hlt]
    · have hj' : j < f.bytes.length := by omega
      rw [hto.kept j _ (h.byte j hj') (.inr (by omega))]
      simp [overwrite, hge]
  · change (overwrite f.bytes data n).length ≤ k * fsBlockSize at hk
    refine hto.gap _ (h.gap k (by omega)) (.inr (by omega)) ?_
    rintro ⟨y, -, hy, heq⟩
    simp only [fsBlockSize] at hy heq hk
    omega

/-- Changing the bytes of a file does not change what files there are. -/
theorem Directory.files_update (hi : d i = some f) (bytes : List UInt8) :
    Directory.files (Function.update d i (some { f with bytes := bytes })) = d.files := by
  funext name
  rw [Directory.files, Directory.files]
  congr 1
  funext j
  rcases eq_or_ne j i with rfl | hj
  · rw [Function.update_self, hi]
    rfl
  · rw [Function.update_of_ne hj]

/-- Writing to a file, as long as there are at most four. -/
theorem Directory.Holds.write (h : d.Holds base fs it nt) (hbase : base ≠ 0) {fuel : ℕ}
    (hfuel : 2 ≤ fuel) (hfind : d.find filename = some i) (hi : d i = some f)
    (hcount : d.count ≤ btreeMaxKeys) (data : ℕ → UInt8) (size : ℕ) : ∃ fs',
      (btreeFsWrite base fuel filename data size).run fs =
        some (((min size maxFileSize : ℕ) : ℤ), fs') ∧
      Directory.Holds base fs' it nt (Function.update d i
        (some { f with bytes := overwrite f.bytes data (min size maxFileSize) })) := by
  have huse : (fs.inodes i).inUse = true := by rw [h.inUse, hi]; rfl
  have hnum : (fs.inodes i).inodeNum = i := h.inv.num i
  have hit := (treeHeight_le_one h.inodes).trans_lt (Nat.lt_of_succ_le hfuel)
  have hnt := (treeHeight_le_one h.names).trans_lt (Nat.lt_of_succ_le hfuel)
  obtain ⟨fs', hwrite, hto, hinv, hleak⟩ := h.writesTo hi hcount data size
  have hpos : ¬ (i.val : ℤ) < 0 := by omega
  refine ⟨fs', ?_, ?_, ?_, hinv, hleak, fun j => ?_, fun j g hg => ?_, h.inodes, h.names, ?_, ?_⟩
  · rw [btreeFsWrite, StateT.run_bind, h.wellFormed.trees.run_btreeFsOpen hbase
      h.wellFormed.points_names hnt, h.pointee, hfind]
    simp only [openResult, hnum, Option.bind_eq_bind, Option.bind_some, if_neg hpos,
      StateT.run_bind, Int.toNat_natCast, h.wellFormed.trees.run_inodeGet hbase
      h.wellFormed.points_inodes hit, h.wellFormed.pointee_inode (h.files hi), StateT.run_get,
      Option.pure_def, StateT.run_monadLift, monadLift_self, hwrite, StateT.run_set,
      StateT.run_pure]
  · rw [files_update hi]
    refine ⟨hto.grows.index ▸ h.wellFormed.trees, h.wellFormed.inodes, h.wellFormed.names,
      fun n j hn => ?_, fun n j _ => hinv.num j, h.wellFormed.inj⟩
    rcases eq_or_ne j i with rfl | hj
    · rw [hto.grows.inUse, huse]
    · rw [hto.grows.others j hj, h.wellFormed.inUse n j hn]
  · exact h.distinct.update fun j g hj hg heq => hj (h.distinct j i g f hg hi heq)
  · rcases eq_or_ne j i with rfl | hj
    · rw [hto.grows.inUse, huse, Function.update_self]
      rfl
    · rw [hto.grows.others j hj, h.inUse, Function.update_of_ne hj]
  · rcases eq_or_ne j i with rfl | hj
    · rw [Function.update_self, Option.some_inj] at hg
      subst hg
      exact (h.file j f hi).write hto (h.inv.type_write huse data size hwrite)
    · rw [Function.update_of_ne hj] at hg
      have huse' : (fs.inodes j).inUse = true := by rw [h.inUse, hg]; rfl
      exact (h.file j g hg).congr (hto.grows.others j hj)
        (h.inv.byteAt_of_grows huse huse' hj hto.grows)
  · rw [hto.grows.index]
    exact h.fresh
  · rw [hto.grows.index]
    exact h.memory

/-! ## Reading a file -/

theorem HoldsFile.reads (h : HoldsFile fs i f) {buf : List UInt8} {size : ℕ} (hsize : size < 2 ^ 32)
    (hreads : Reads fs i 0 (readSize (fs.inodes i).size 0 size) buf) : buf = f.bytes.take size := by
  have hmin : readSize (fs.inodes i).size 0 size = min size f.bytes.length := by
    rw [readSize, h.size, Nat.zero_add, wrap32_of_lt hsize]
    split_ifs <;> omega
  rw [hmin] at hreads
  have hdata : ∀ j < min size f.bytes.length, fs.byteAt i (0 + j) = some (f.bytes.getD j 0) :=
    fun j hj => by
      have hj' : j < f.bytes.length := hj.trans_le (min_le_right _ _)
      rw [Nat.zero_add, h.byte j hj', List.getD_eq_getElem _ _ hj']
  rw [hreads.eq_map hdata]
  refine List.ext_getElem (by simp) fun j hj hj' => ?_
  simp only [List.length_take] at hj'
  simp [show j < f.bytes.length by omega]

/-- Reading a file gives its bytes, up to the size that is asked for. -/
theorem Directory.Holds.read (h : d.Holds base fs it nt) (hbase : base ≠ 0) {fuel : ℕ}
    (hfuel : 2 ≤ fuel) (hfind : d.find filename = some i) (hi : d i = some f) {size : ℕ}
    (hsize : size < 2 ^ 32) : (btreeFsRead base fuel filename size).run fs =
      some ((((f.bytes.take size).length : ℤ), f.bytes.take size), fs) := by
  have huse : (fs.inodes i).inUse = true := by rw [h.inUse, hi]; rfl
  have hnum : (fs.inodes i).inodeNum = i := h.inv.num i
  have hit := (treeHeight_le_one h.inodes).trans_lt (Nat.lt_of_succ_le hfuel)
  have hnt := (treeHeight_le_one h.names).trans_lt (Nat.lt_of_succ_le hfuel)
  have hpos : ¬ (i.val : ℤ) < 0 := by omega
  obtain ⟨buf, hread, hreads⟩ := inodeRead_spec (h.inv.valid huse) (by decide : 0 < 2 ^ 32) size
  obtain rfl := (h.file i f hi).reads hsize hreads
  rw [btreeFsRead, StateT.run_bind, h.wellFormed.trees.run_btreeFsOpen hbase
    h.wellFormed.points_names hnt, h.pointee, hfind]
  simp only [openResult, hnum, Option.bind_eq_bind, Option.bind_some, if_neg hpos,
    StateT.run_bind, Int.toNat_natCast, h.wellFormed.trees.run_inodeGet hbase
    h.wellFormed.points_inodes hit, h.wellFormed.pointee_inode (h.files hi), StateT.run_get,
    Option.pure_def, StateT.run_monadLift, monadLift_self, hread, StateT.run_pure]

/-! ## Deleting a file -/

/-- The blocks of a file are the first ones. -/
theorem HoldsFile.directBlocks (h : HoldsFile fs i f) (k : Fin directBlockCount) :
    (fs.inodes i).directBlocks k ≠ 0 ↔ k < fileBlocks f.bytes.length := by
  have hdiv : k.val * fsBlockSize / fsBlockSize = k := Nat.mul_div_cancel _ (by decide)
  have hlt : k.val < fileBlocks f.bytes.length ↔ k.val * fsBlockSize < f.bytes.length := by
    simp only [fileBlocks, fsBlockSize]
    omega
  rw [hlt]
  constructor
  · intro hk
    by_contra hge
    have hnone := byteAt_eq_none_iff.1 (h.gap k (not_lt.1 hge)) (by rw [hdiv]; exact k.isLt)
    simp only [hdiv] at hnone
    exact hk hnone
  · intro hk
    obtain ⟨hidx, hne, -⟩ := byteAt_eq_some_iff.1 (h.byte _ hk)
    simpa only [hdiv] using hne

/-- A file is within its blocks. -/
theorem HoldsFile.length_le (h : HoldsFile fs i f) : f.bytes.length ≤ maxFileSize := by
  by_contra hlt
  obtain ⟨hidx, -⟩ := byteAt_eq_some_iff.1 (h.byte maxFileSize (not_le.1 hlt))
  exact absurd hidx (by decide)

theorem HoldsFile.blockCount (h : HoldsFile fs i f) (hleak : NoLeak fs)
    (huse : (fs.inodes i).inUse = true) :
    (fs.inodes i).blockCount = fileBlocks f.bytes.length := by
  have hle : fileBlocks f.bytes.length ≤ directBlockCount := by
    have := h.length_le
    simp only [fileBlocks, maxFileSize, fsBlockSize, directBlockCount] at this ⊢
    omega
  rw [hleak.count i huse, Inode.blocks]
  simp only [h.directBlocks, Fin.card_filter_val_lt, min_eq_right hle]

/-- What is left when a file goes. -/
theorem Directory.files_erase (hd : d.Distinct) (hi : d i = some f) {name : FsName}
    {j : InodePtr} : Directory.files (Function.update d i none) name = some j ↔
      j ≠ i ∧ d.files name = some j := by
  rw [files_eq_some_iff (hd.erase i), files_eq_some_iff hd]
  rcases eq_or_ne j i with rfl | hj
  · simp
  · simp [hj]

/-- The entries of a tree of one node after a deletion. -/
theorem mem_treeList_erase_one {o : Option (MultiTree ℕ ℕ ℕ .tree)} {s : BtreeMem} {tree : Btree}
    (h : HoldsTree s.words tree.root o) (hone : (treeNames o).length ≤ 1) {key : ℕ} {e : ℕ × ℕ} :
    e ∈ treeList (treeErase key o) ↔ e ∈ treeList o ∧ e.1 ≠ key := by
  rw [mem_treeList_erase h, treeLeafKeys_eq hone]
  refine and_congr_right fun he => ⟨fun hne heq => hne ?_ heq, fun hne _ => hne⟩
  exact heq ▸ List.mem_map_of_mem he

/-- The entries of both trees, when a file has gone. -/
theorem WellFormed.erased (h : WellFormed base fs it nt d.files) (hd : d.Distinct)
    (hi : d i = some f) (hone : (treeNames it).length ≤ 1) (hone' : (treeNames nt).length ≤ 1)
    (htrees : HoldsTrees fs'.index (treeErase i it) (treeErase (hashString f.name) nt))
    (hothers : ∀ j, j ≠ i → fs'.inodes j = fs.inodes j) :
    WellFormed base fs' (treeErase i it) (treeErase (hashString f.name) nt)
      (Directory.files (Function.update d i none)) := by
  have hname : d.files f.name = some i := (Directory.files_eq_some_iff hd).2 ⟨f, hi, rfl⟩
  refine ⟨htrees, fun e => ?_, fun e => ?_, fun n j hn => ?_, fun n j hn => ?_,
    fun n n' j hn hn' => ?_⟩
  · rw [mem_treeList_erase_one h.trees.inodes hone, h.inodes]
    constructor
    · rintro ⟨⟨n, j, hn, rfl⟩, hne⟩
      refine ⟨n, j, (Directory.files_erase hd hi).2 ⟨?_, hn⟩, rfl⟩
      rintro rfl
      exact hne rfl
    · rintro ⟨n, j, hn, rfl⟩
      obtain ⟨hj, hn⟩ := (Directory.files_erase hd hi).1 hn
      exact ⟨⟨n, j, hn, rfl⟩, Fin.val_ne_of_ne hj⟩
  · rw [mem_treeList_erase_one h.trees.names hone', h.names]
    constructor
    · rintro ⟨⟨n, j, hn, rfl⟩, hne⟩
      refine ⟨n, j, (Directory.files_erase hd hi).2 ⟨?_, hn⟩, rfl⟩
      rintro rfl
      exact hne (by rw [h.inj n f.name j hn hname])
    · rintro ⟨n, j, hn, rfl⟩
      obtain ⟨hj, hn⟩ := (Directory.files_erase hd hi).1 hn
      refine ⟨⟨n, j, hn, rfl⟩, fun heq => hj ?_⟩
      obtain rfl := h.hash_inj hn hname heq
      exact Option.some_inj.1 (hn.symm.trans hname)
  · obtain ⟨hj, hn⟩ := (Directory.files_erase hd hi).1 hn
    rw [hothers j hj, h.inUse n j hn]
  · obtain ⟨hj, hn⟩ := (Directory.files_erase hd hi).1 hn
    rw [hothers j hj, h.num n j hn]
  · exact h.inj n n' j ((Directory.files_erase hd hi).1 hn).2
      ((Directory.files_erase hd hi).1 hn').2

/-- The memory has given no node, and will give the same ones. -/
def SameKmalloc (s s' : BtreeMem) : Prop := s'.fresh = s.fresh ∧ s'.calls = s.calls

theorem HoldsTrees.nameDelete_kmalloc {fuel : ℕ} (h : HoldsTrees fs.index it nt)
    (hfuel : treeHeight nt < fuel) {hash : ℕ} {ix : TreeIndex}
    (hrun : (nameDelete fuel hash).run fs = some ((), { fs with index := ix })) :
    SameKmalloc fs.index.mem ix.mem := by
  obtain ⟨m, r, tree, hdel, -⟩ := h.names.delete hfuel hash
  rw [nameDelete] at hrun
  simp only [StateT.run_bind, StateT.run_get, Option.pure_def, Option.bind_eq_bind,
    Option.bind_some, StateT.run_monadLift, monadLift_self, hdel, StateT.run_set, Option.some_inj,
    Prod.mk.injEq, true_and] at hrun
  obtain rfl := congrArg InodeFs.index hrun
  exact ⟨rfl, rfl⟩

theorem HoldsTrees.treeIndex_delete_kmalloc {fuel : ℕ} {ix ix' : TreeIndex}
    (h : HoldsTrees ix it nt) (hfuel : treeHeight it < fuel) {num : ℕ}
    (hrun : (treeIndex base fuel).delete ix num = some ix') : SameKmalloc ix.mem ix'.mem := by
  obtain ⟨m, r, tree, hdel, -⟩ := h.inodes.delete hfuel num
  simp only [treeIndex, hdel, Option.bind_eq_bind, Option.bind_some, Option.pure_def,
    Option.some_inj] at hrun
  obtain rfl := hrun
  exact ⟨rfl, rfl⟩

theorem inodeFree_index {ix : TreeIndex} {idx : Index TreeIndex}
    (hp : (fs.inodes i).inUse = true)
    (hdel : idx.delete fs.index (fs.inodes i).inodeNum = some ix) :
    ∃ fs', inodeFree idx fs (some i) = some fs' ∧ fs'.index = ix := by
  obtain ⟨bitmap, n, hfree⟩ := inodeFree_run hp hdel
  exact ⟨_, hfree, rfl⟩

/-- Deleting a file. -/
theorem Directory.Holds.delete (h : d.Holds base fs it nt) (hbase : base ≠ 0) {fuel : ℕ}
    (hfuel : 2 ≤ fuel) (hfind : d.find filename = some i) : ∃ fs' it' nt',
      (btreeFsDelete base fuel filename).run fs = some (0, fs') ∧
      Directory.Holds base fs' it' nt' (Function.update d i none) := by
  obtain ⟨f, hi, hkey⟩ := (find_eq_some_iff h.distinct).1 hfind
  have huse : (fs.inodes i).inUse = true := by rw [h.inUse, hi]; rfl
  have hnum : (fs.inodes i).inodeNum = i := h.inv.num i
  have hit := (treeHeight_le_one h.inodes).trans_lt (Nat.lt_of_succ_le hfuel)
  have hnt := (treeHeight_le_one h.names).trans_lt (Nat.lt_of_succ_le hfuel)
  obtain ⟨ix₁, hrun₁, h₁⟩ := h.wellFormed.trees.run_nameDelete hnt (hashString filename)
  obtain ⟨ix₂, hrun₂, h₂⟩ := h₁.treeIndex_delete hit base i
  obtain ⟨hfresh₁, hcalls₁⟩ := h.wellFormed.trees.nameDelete_kmalloc hnt hrun₁
  obtain ⟨hfresh₂, hcalls₂⟩ := h₁.treeIndex_delete_kmalloc hit hrun₂
  obtain ⟨fs₁, hfs₁⟩ : ∃ fs₁ : TreeFs, fs₁ = { fs with index := ix₁ } := ⟨_, rfl⟩
  have hinodes₁ : fs₁.inodes = fs.inodes := by rw [hfs₁]
  have hinv₁ : InodeInv fs₁ [] := by
    rw [hfs₁]
    exact ⟨h.inv.owned, h.inv.bitmap, h.inv.num, h.inv.count⟩
  have hleak₁ : NoLeak fs₁ := by
    rw [hfs₁]
    exact ⟨h.noLeak.owner, h.noLeak.count⟩
  have huse₁ : (fs₁.inodes i).inUse = true := by rw [hinodes₁, huse]
  have hdel₁ : (treeIndex base fuel).delete fs₁.index (fs₁.inodes i).inodeNum = some ix₂ := by
    rw [hinodes₁, hnum, hfs₁]
    exact hrun₂
  obtain ⟨fs₂, hfree, hindex⟩ := inodeFree_index huse₁ hdel₁
  have hfreed := inodeFree_spec huse₁ (hinv₁.valid huse₁) hfree
  have hothers : ∀ j, j ≠ i → fs₂.inodes j = fs.inodes j := fun j hj =>
    (hfreed.others j hj).trans (congrFun hinodes₁ j)
  have hstorage : fs₂.blockStorage = fs.blockStorage :=
    (blockStorage_inodeFree hfree).trans (by rw [hfs₁])
  refine ⟨fs₂, treeErase i it, treeErase (hashString f.name) nt, ?_, ?_, h.distinct.erase i,
    hinv₁.free huse₁ hfree, ?_, fun j => ?_, fun j g hg => ?_, ?_, ?_, ?_, fun m => ?_⟩
  · rw [btreeFsDelete, StateT.run_bind, h.wellFormed.trees.run_nameSearch hbase
      h.wellFormed.points_names hnt, h.pointee, hfind]
    simp only [StateT.run_bind, hrun₁, ← hfs₁, StateT.run_get, Option.pure_def,
      Option.bind_eq_bind, Option.bind_some, StateT.run_monadLift, monadLift_self, hfree,
      StateT.run_set, StateT.run_pure]
  · refine h.wellFormed.erased h.distinct hi h.inodes h.names ?_ hothers
    rw [hindex, hkey]
    exact h₂
  · -- The file has no block from `block_count` on, so none is lost.
    refine (hleak₁.free_iff hinv₁ huse₁ hfree).2 fun k hk => ?_
    rw [hinodes₁] at hk ⊢
    rw [(h.file i f hi).blockCount h.noLeak huse]
    exact ((h.file i f hi).directBlocks k).1 hk
  · rcases eq_or_ne j i with rfl | hj
    · rw [hfreed.inode, Function.update_self]
      rfl
    · rw [hothers j hj, h.inUse, Function.update_of_ne hj]
  · have hj : j ≠ i := by
      rintro rfl
      rw [Function.update_self] at hg
      cases hg
    rw [Function.update_of_ne hj] at hg
    exact (h.file j g hg).congr (hothers j hj) (byteAt_congr (hothers j hj) hstorage)
  · rw [treeNames_erase]
    exact h.inodes
  · rw [treeNames_erase]
    exact h.names
  · rw [treeNames_erase, treeNames_erase, hindex]
    refine ⟨fun m hm => ?_, fun m m' hm => ?_⟩
    · rw [hfresh₂, hfresh₁]
      exact h.fresh.unused m (by rwa [hcalls₂, hcalls₁] at hm)
    · rw [hfresh₂, hfresh₁]
      exact h.fresh.distinct m m' (by rwa [hcalls₂, hcalls₁] at hm)
  · rw [hindex, hfresh₂, hfresh₁]
    exact h.memory m

/-! ## Listing the files -/

/-- Entries in the order of their keys, by what they are. -/
theorem eq_of_mem_iff {l l' : List (ℕ × ℕ)} (hl : l.Pairwise fun e e' => e.1 < e'.1)
    (hl' : l'.Pairwise fun e e' => e.1 < e'.1) (h : ∀ e, e ∈ l ↔ e ∈ l') : l = l' :=
  have : Std.Irrefl fun e e' : ℕ × ℕ => e.1 < e'.1 := ⟨fun _ => lt_irrefl _⟩
  have : Std.Antisymm fun e e' : ℕ × ℕ => e.1 < e'.1 :=
    ⟨fun _ _ hlt hgt => absurd hlt hgt.not_gt⟩
  hl.eq_of_mem_iff hl' h

theorem Directory.mem_entries {e : ℕ × InodePtr × FsFile} :
    e ∈ d.entries ↔ d e.2.1 = some e.2.2 ∧ e.1 = hashString e.2.2.name := by
  simp only [entries, List.mem_filterMap, List.mem_finRange, true_and, Option.map_eq_some_iff]
  constructor
  · rintro ⟨i, f, hi, rfl⟩
    exact ⟨hi, rfl⟩
  · rintro ⟨hi, heq⟩
    exact ⟨e.2.1, e.2.2, hi, by rw [← heq]⟩

/-- The files in the order of their hashes, as `lines` has them. -/
abbrev Directory.sorted (d : Directory) : List (ℕ × InodePtr × FsFile) :=
  d.entries.mergeSort fun e e' => e.1 ≤ e'.1

theorem Directory.Distinct.pairwise_sorted (hd : d.Distinct) :
    d.sorted.Pairwise fun e e' => e.1 < e'.1 := by
  have hnodup : d.entries.Nodup := (List.nodup_finRange _).filterMap fun i i' e he he' => by
    obtain ⟨f, -, rfl⟩ := Option.map_eq_some_iff.1 he
    obtain ⟨f', -, heq⟩ := Option.map_eq_some_iff.1 he'
    exact (congrArg (fun e => e.2.1) heq).symm
  have hle : d.sorted.Pairwise fun e e' => decide (e.1 ≤ e'.1) = true :=
    List.pairwise_mergeSort (fun _ _ _ h h' => by simp at *; omega) (fun _ _ => by simp; omega) _
  have hne : d.sorted.Pairwise (· ≠ ·) := (List.mergeSort_perm _ _).nodup_iff.2 hnodup
  refine (hle.and hne).imp_of_mem fun {e e'} he he' hboth => ?_
  obtain ⟨hle, hne⟩ := hboth
  rw [decide_eq_true_iff] at hle
  obtain ⟨hi, hkey⟩ := mem_entries.1 (List.mem_mergeSort.1 he)
  obtain ⟨hi', hkey'⟩ := mem_entries.1 (List.mem_mergeSort.1 he')
  refine lt_of_le_of_ne hle fun heq => hne ?_
  -- Files with one hash are one file.
  have hnum := hd e.2.1 e'.2.1 _ _ hi hi' (by rw [← hkey, ← hkey', heq])
  rw [hnum] at hi
  exact Prod.ext heq (Prod.ext hnum (Option.some.inj (hi.symm.trans hi')))

/-- The tree of the names has the files in that order. -/
theorem Directory.Holds.treeList_names (h : d.Holds base fs it nt) :
    treeList nt = d.sorted.map fun e => (e.1, inodeAddr base e.2.1) := by
  refine eq_of_mem_iff h.wellFormed.trees.names.pairwise
    (List.pairwise_map.2 h.distinct.pairwise_sorted) fun e => ?_
  rw [h.wellFormed.names, List.mem_map]
  constructor
  · rintro ⟨n, i, hn, rfl⟩
    obtain ⟨f, hi, rfl⟩ := (files_eq_some_iff h.distinct).1 hn
    exact ⟨(hashString f.name, i, f), List.mem_mergeSort.2 (mem_entries.2 ⟨hi, rfl⟩), rfl⟩
  · rintro ⟨e, he, rfl⟩
    obtain ⟨hi, hkey⟩ := mem_entries.1 (List.mem_mergeSort.1 he)
    exact ⟨e.2.2.name, e.2.1, h.files hi, by rw [hkey]⟩

/-- The callback gives the line of a file. -/
theorem Directory.Holds.run_listCallback (h : d.Holds base fs it nt) (hbase : base ≠ 0)
    (hi : d i = some f) (key : ℕ) : (listCallback base (key, inodeAddr base i)).run fs =
      some ([⟨i, f.bytes.length, fileBlocks f.bytes.length, f.type⟩], fs) := by
  have huse : (fs.inodes i).inUse = true := by rw [h.inUse, hi]; rfl
  have hfile := h.file i f hi
  rw [listCallback, toInode, if_neg (inodeAddr_ne_zero hbase i), inodeAt_inodeAddr]
  simp only [pure_bind, StateT.run_bind, StateT.run_get, Option.pure_def, Option.bind_eq_bind,
    Option.bind_some, huse, if_true, StateT.run_pure, h.inv.num i, hfile.size, hfile.type,
    hfile.blockCount h.noLeak huse]

/-- `btree_fs_list` gives the lines of the files, in the order of their hashes. -/
theorem Directory.Holds.list (h : d.Holds base fs it nt) (hbase : base ≠ 0) {fuel : ℕ}
    (hfuel : 2 ≤ fuel) : (btreeFsList base fuel).run fs = some (d.lines, fs) := by
  have hnt := (treeHeight_le_one h.names).trans_lt (Nat.lt_of_succ_le hfuel)
  have hmapM : ∀ l : List (ℕ × InodePtr × FsFile), (∀ e ∈ l, d e.2.1 = some e.2.2) →
      ((l.map fun e => (e.1, inodeAddr base e.2.1)).mapM (listCallback base)).run fs =
        some (l.map fun e => [⟨e.2.1, e.2.2.bytes.length, fileBlocks e.2.2.bytes.length,
          e.2.2.type⟩], fs) := by
    intro l hl
    induction l with
    | nil => rfl
    | cons e l ih =>
      obtain ⟨he, hl⟩ := List.forall_mem_cons.1 hl
      rw [List.map_cons, List.mapM_cons, StateT.run_bind, h.run_listCallback hbase he]
      simp only [Option.bind_eq_bind, Option.bind_some, StateT.run_bind, ih hl, StateT.run_pure,
        List.map_cons, Option.pure_def]
  have hmap := hmapM d.sorted fun e he => (mem_entries.1 (List.mem_mergeSort.1 he)).1
  rw [← h.treeList_names] at hmap
  rw [btreeFsList]
  simp only [StateT.run_bind, StateT.run_get, Option.pure_def, Option.bind_eq_bind,
    Option.bind_some, StateT.run_monadLift, monadLift_self, h.wellFormed.trees.names.traverse hnt,
    StateT.run_set, hmap, StateT.run_pure, ← List.flatMap_def]
  rw [lines, List.map_eq_flatMap]

/-! ## Runs -/

theorem Directory.count_insert (hi : d i = none) (f : FsFile) :
    Directory.count (Function.update d i (some f)) = d.count + 1 := by
  have hset : (Finset.univ.filter fun j => ((Function.update d i (some f)) j).isSome) =
      Insert.insert i (Finset.univ.filter fun j => (d j).isSome) := by
    ext j
    rcases eq_or_ne j i with rfl | hj
    · simp
    · simp [hj]
  rw [Directory.count, hset, Finset.card_insert_of_notMem (by simp [hi]), Directory.count]

/-- An operation on the file system gives what it gives on the directory, as long as there are at
    most four files, before and after it. -/
theorem Directory.Holds.fsCall (h : d.Holds base fs it nt) (hbase : base ≠ 0) {fuel : ℕ}
    (hfuel : 2 ≤ fuel) (hcount : d.count ≤ btreeMaxKeys) {c : DirCall}
    (hcount' : (d.call c).2.count ≤ btreeMaxKeys) : ∃ fs' it' nt',
      (Fru1tOs.fsCall base fuel c).run fs = some ((d.call c).1, fs') ∧
      Directory.Holds base fs' it' nt' (d.call c).2 := by
  have hnt := (treeHeight_le_one h.names).trans_lt (Nat.lt_of_succ_le hfuel)
  have hopen := h.wellFormed.trees.run_btreeFsOpen hbase h.wellFormed.points_names hnt
  cases c with
  | create filename type =>
    rw [call] at hcount' ⊢
    split_ifs at hcount' ⊢ with hrefused
    · refine ⟨fs, it, nt, ?_, h⟩
      rw [Fru1tOs.fsCall, StateT.run_bind, h.wellFormed.trees.run_btreeFsCreate hbase
        h.wellFormed.points_names hnt, h.pointee, if_pos hrefused]
      rfl
    · obtain ⟨hlen, hfind⟩ := not_or.1 hrefused
      rcases hfree : d.free with _ | i
      · exact absurd hfree (free_ne_none (hcount.trans_lt (by decide)))
      rw [hfree] at hcount'
      dsimp only at hcount'
      rw [count_insert (free_eq_none_of_some hfree)] at hcount'
      obtain ⟨i', fs', it', nt', hfree', hrun, hholds⟩ :=
        h.create hbase hfuel (not_le.1 hlen) (not_not.1 hfind) hcount' type.toNat
      obtain rfl := Option.some.inj (hfree.symm.trans hfree')
      refine ⟨fs', it', nt', ?_, hholds⟩
      rw [Fru1tOs.fsCall, StateT.run_bind, hrun]
      rfl
  | fsOpen filename =>
    rw [call]
    rcases hfind : d.find filename with _ | i
    · refine ⟨fs, it, nt, ?_, h⟩
      rw [Fru1tOs.fsCall, StateT.run_bind, hopen, h.pointee, hfind]
      rfl
    · refine ⟨fs, it, nt, ?_, h⟩
      rw [Fru1tOs.fsCall, StateT.run_bind, hopen, h.pointee, hfind, openResult, h.inv.num]
      rfl
  | read filename size =>
    rw [call]
    rcases hfind : d.find filename with _ | i
    · refine ⟨fs, it, nt, ?_, h⟩
      rw [Fru1tOs.fsCall, StateT.run_bind, btreeFsRead, StateT.run_bind, hopen, h.pointee, hfind]
      rfl
    · obtain ⟨f, hi⟩ := exists_of_find hfind
      refine ⟨fs, it, nt, ?_, h⟩
      rw [Fru1tOs.fsCall, StateT.run_bind, h.read hbase hfuel hfind hi size.toNat_lt]
      simp only [bytes, hi, Option.map_some, Option.getD_some]
      rfl
  | write filename data size =>
    rw [call]
    rcases hfind : d.find filename with _ | i
    · refine ⟨fs, it, nt, ?_, h⟩
      rw [Fru1tOs.fsCall, StateT.run_bind, btreeFsWrite, StateT.run_bind, hopen, h.pointee, hfind]
      rfl
    · obtain ⟨f, hi⟩ := exists_of_find hfind
      obtain ⟨fs', hrun, hholds⟩ := h.write hbase hfuel hfind hi hcount data size.toNat
      dsimp only
      rw [hi, Option.map_some]
      refine ⟨fs', it, nt, ?_, hholds⟩
      rw [Fru1tOs.fsCall, StateT.run_bind, hrun]
      rfl
  | delete filename =>
    rw [call]
    rcases hfind : d.find filename with _ | i
    · refine ⟨fs, it, nt, ?_, h⟩
      rw [Fru1tOs.fsCall, StateT.run_bind, btreeFsDelete, StateT.run_bind,
        h.wellFormed.trees.run_nameSearch hbase h.wellFormed.points_names hnt, h.pointee, hfind]
      rfl
    · obtain ⟨fs', it', nt', hrun, hholds⟩ := h.delete hbase hfuel hfind
      refine ⟨fs', it', nt', ?_, hholds⟩
      rw [Fru1tOs.fsCall, StateT.run_bind, hrun]
      rfl
  | list =>
    refine ⟨fs, it, nt, ?_, h⟩
    rw [Fru1tOs.fsCall, StateT.run_bind, h.list hbase hfuel, call]
    rfl

end Holds

/-- The results of operations in turn, and the directory after them. -/
def Directory.run (d : Directory) : List DirCall → List DirResult × Directory
  | [] => ([], d)
  | c :: calls => ((d.call c).1 :: ((d.call c).2.run calls).1, ((d.call c).2.run calls).2)

/-- No more files than a node has keys, all along the run. -/
def Directory.StaysSmall (d : Directory) (calls : List DirCall) : Prop :=
  ∀ pre, pre <+: calls → (d.run pre).2.count ≤ btreeMaxKeys

instance (d : Directory) (calls : List DirCall) : Decidable (d.StaysSmall calls) :=
  decidable_of_iff (∀ pre ∈ calls.inits, (d.run pre).2.count ≤ btreeMaxKeys)
    (forall_congr' fun _ => imp_congr_left (List.mem_inits _ _))

/-- No file. -/
def emptyDirectory : Directory := fun _ => none

/-- The file system as `inode_fs_init` leaves it, where `kmalloc` has nodes to give. -/
def initTreeFs (words : ℕ → ℕ → ℕ) (fresh : ℕ → ℕ) (fs : TreeFs) : TreeFs :=
  inodeFsInit ⟨btreeInit, btreeInit, ⟨words, fresh, 0, true⟩⟩ fs

theorem holds_initTreeFs {base : ℕ} (words : ℕ → ℕ → ℕ) {fresh : ℕ → ℕ} (hfresh : ∀ n, fresh n ≠ 0)
    (hinj : Function.Injective fresh) (fs : TreeFs) :
    Directory.Holds base (initTreeFs words fresh fs) none none emptyDirectory := by
  have hd : emptyDirectory.Distinct := fun i j f g hf => by cases hf
  have hfiles : ∀ n i, emptyDirectory.files n ≠ some i := fun n i hn => by
    obtain ⟨f, hf, -⟩ := (Directory.files_eq_some_iff hd).1 hn
    cases hf
  have hnone : ∀ g : FsName → InodePtr → ℕ × ℕ, ∀ e, e ∈ treeList none ↔
      ∃ n i, emptyDirectory.files n = some i ∧ e = g n i := fun g e =>
    iff_of_false List.not_mem_nil (by rintro ⟨n, i, hn, -⟩; exact hfiles n i hn)
  refine ⟨⟨⟨rfl, rfl, fun q hq => absurd hq List.not_mem_nil⟩, hnone _, hnone _,
    fun n i hn => absurd hn (hfiles n i), fun n i hn => absurd hn (hfiles n i),
    fun n n' i hn => absurd hn (hfiles n i)⟩, hd, inodeInv_init _ fs, noLeak_init _ fs,
    fun i => rfl, fun i f hf => (by cases hf), Nat.zero_le _, Nat.zero_le _,
    ⟨fun n _ => List.not_mem_nil, fun m n _ hlt heq => ?_⟩, hfresh⟩
  exact absurd (hinj heq) hlt.ne

/-- The operations in turn, from a state that holds a directory. -/
theorem Directory.Holds.run {base : ℕ} (hbase : base ≠ 0) {fuel : ℕ} (hfuel : 2 ≤ fuel)
    {calls : List DirCall} {fs : TreeFs} {it nt : Option (MultiTree ℕ ℕ ℕ .tree)} {d : Directory}
    (h : d.Holds base fs it nt) (hsmall : d.StaysSmall calls) : ∃ fs' it' nt',
      (calls.mapM (Fru1tOs.fsCall base fuel)).run fs = some ((d.run calls).1, fs') ∧
      Directory.Holds base fs' it' nt' (d.run calls).2 := by
  induction calls generalizing fs it nt d with
  | nil => exact ⟨fs, it, nt, rfl, h⟩
  | cons c calls ih =>
    have hcount : d.count ≤ btreeMaxKeys := hsmall [] (List.nil_prefix)
    have hcount' : (d.call c).2.count ≤ btreeMaxKeys :=
      hsmall [c] (List.prefix_cons_inj c |>.2 List.nil_prefix)
    obtain ⟨fs₁, it₁, nt₁, hrun₁, h₁⟩ := h.fsCall hbase hfuel hcount hcount'
    obtain ⟨fs', it', nt', hrun, h'⟩ := ih h₁ fun pre hpre =>
      hsmall (c :: pre) ((List.prefix_cons_inj c).2 hpre)
    refine ⟨fs', it', nt', ?_, h'⟩
    rw [List.mapM_cons, StateT.run_bind, hrun₁]
    simp only [Option.bind_eq_bind, Option.bind_some, StateT.run_bind, hrun, StateT.run_pure,
      Option.pure_def, Directory.run]

/-- Any operations on files, in any order, of a new file system with at most four files at a time,
    where `kmalloc` gives a new node whenever it is called: all results are those of the
    directory. -/
theorem btreeFs_refines_directory {base : ℕ} (hbase : base ≠ 0) (words : ℕ → ℕ → ℕ) {fresh : ℕ → ℕ}
    (hfresh : ∀ n, fresh n ≠ 0) (hinj : Function.Injective fresh) (fs : TreeFs)
    {calls : List DirCall} (hsmall : emptyDirectory.StaysSmall calls) {fuel : ℕ}
    (hfuel : 2 ≤ fuel) : (calls.mapM (fsCall base fuel)).run' (initTreeFs words fresh fs) =
      some (emptyDirectory.run calls).1 := by
  obtain ⟨fs', it', nt', hrun, -⟩ :=
    (holds_initTreeFs words hfresh hinj fs).run hbase hfuel hsmall
  exact run'_eq_some hrun

/-- Two files, of which one is deleted, and its i-node is given to the next one. In the end there
    are four. -/
theorem btreeFs_refines_directory_five :
    ([.create [97] 1, .create [98] 1, .write [97] (fun i => UInt8.ofNat i) 3,
        .write [98] (fun _ => 7) 600, .read [97] 2, .delete [97], .list, .create [99] 2,
        .create [100] 1, .create [101] 1, .fsOpen [97], .fsOpen [99], .create [98] 1,
        .read [98] 1].mapM (fsCall 1000 2)).run' (initTreeFs (fun _ _ => 0) Nat.succ threeFiles) =
      some [.number 0, .number 1, .number 3, .number 600, .bytes 2 [0, 1], .number 0,
        .lines [⟨1, 600, 2, 1⟩], .number 0, .number 2, .number 3, .number (-1), .number 0,
        .number (-1), .bytes 1 [7]] := by
  refine (btreeFs_refines_directory (by decide) _ Nat.succ_ne_zero Nat.succ_injective _
    (by decide +kernel) le_rfl).trans ?_
  decide +kernel

end Fru1tOs
