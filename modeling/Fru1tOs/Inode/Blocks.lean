import Fru1tOs.Inode.Basic

/-!
# Who owns which block

An i-node in use owns the blocks that its direct blocks name. No block is owned twice, and the
blocks that are owned are marked in the bitmap (`Owned`). What a write does to the others
is stated once, by `Grows`: the i-node gets blocks that were free, and nothing changes in
the blocks that others own.
-/

namespace Fru1tOs

open Lib

variable {ι : Type} {fs fs' : InodeFs ι} {p q : InodePtr} {b : ℕ}

/-- The block that an i-node in use owns at the index `k`, or zero. -/
def InodeFs.entry (fs : InodeFs ι) (p : InodePtr) (k : Fin directBlockCount) : ℕ :=
  if (fs.inodes p).inUse then (fs.inodes p).directBlocks k else 0

theorem entry_eq (hp : (fs.inodes p).inUse = true) (k : Fin directBlockCount) :
    fs.entry p k = (fs.inodes p).directBlocks k := if_pos hp

/-- Blocks that are owned, at the places `ent` or by others (`extra`), are marked and owned
    once. -/
structure Owned (ent : InodePtr → Fin directBlockCount → ℕ) (m : Bitmap) (extra : List ℕ) :
    Prop where
  valid : ∀ p k, ent p k ≠ 0 → ent p k < maxBlocks ∧ m.test (ent p k) = true ∧ ent p k ∉ extra
  inj : ∀ p k q l, ent p k ≠ 0 → ent p k = ent q l → p = q ∧ k = l
  extra : ∀ b ∈ extra, m.test b = true

section Owned

variable {ent ent' : InodePtr → Fin directBlockCount → ℕ} {m m' : Bitmap} {extra : List ℕ}

/-- Places may be given up, if the marks of the blocks that remain are kept. -/
theorem Owned.mono (h : Owned ent m extra) (hent : ∀ p k, ent' p k ≠ 0 → ent' p k = ent p k)
    (hm : ∀ b, m.test b = true → b ∈ extra ∨ (∃ p k, ent' p k ≠ 0 ∧ ent' p k = b) →
      m'.test b = true) : Owned ent' m' extra := by
  refine ⟨fun p k hk => ?_, fun p k q l hk heq => ?_, fun b hb => hm b (h.extra b hb) (.inl hb)⟩
  · have heq := hent p k hk
    obtain ⟨hlt, htest, hextra⟩ := h.valid p k (heq ▸ hk)
    rw [← heq] at hlt htest hextra
    exact ⟨hlt, hm _ htest (.inr ⟨p, k, hk, rfl⟩), hextra⟩
  · have hl : ent' q l ≠ 0 := heq ▸ hk
    exact h.inj p k q l (hent p k hk ▸ hk) (hent p k hk ▸ hent q l hl ▸ heq)

/-- A free block is taken for a place. -/
theorem Owned.take (h : Owned ent m extra) (hb : b ≠ 0) (hlt : b < maxBlocks)
    (hfree : m.test b = false) {k : Fin directBlockCount}
    (hent : ∀ q l, ent' q l = if q = p ∧ l = k then b else ent q l) :
    Owned ent' (m.set b) extra := by
  have hset : ∀ b', m.test b' = true → (m.set b).test b' = true := fun b' hb' => by
    rw [Bitmap.test_set, hb', Bool.true_or]
  -- The block was nobody's.
  have hnew : ∀ q l, ent q l ≠ 0 → ent q l ≠ b := fun q l hl heq => by
    have := (h.valid q l hl).2.1
    rw [heq, hfree] at this
    cases this
  refine ⟨fun q l hl => ?_, fun q l q' l' hl heq => ?_, fun b' hb' => hset b' (h.extra b' hb')⟩
  · rw [hent] at hl ⊢
    split_ifs at hl ⊢
    · refine ⟨hlt, by simp [Bitmap.test_set], fun hb' => ?_⟩
      rw [h.extra b hb'] at hfree
      cases hfree
    · obtain ⟨hlt', htest, hextra⟩ := h.valid q l hl
      exact ⟨hlt', hset _ htest, hextra⟩
  · rw [hent] at hl
    rw [hent, hent] at heq
    split_ifs at hl heq with h₁ h₂ h₃
    · exact ⟨h₁.1.trans h₂.1.symm, h₁.2.trans h₂.2.symm⟩
    · exact absurd heq.symm (hnew q' l' (heq ▸ hb))
    · exact absurd heq (hnew q l hl)
    · exact h.inj q l q' l' hl heq

/-- A free block is taken by others. -/
theorem Owned.takeExtra (h : Owned ent m extra) (hfree : m.test b = false) :
    Owned ent (m.set b) (b :: extra) := by
  have hset : ∀ b', m.test b' = true → (m.set b).test b' = true := fun b' hb' => by
    rw [Bitmap.test_set, hb', Bool.true_or]
  refine ⟨fun p k hk => ?_, h.inj, fun b' hb' => ?_⟩
  · obtain ⟨hlt, htest, hextra⟩ := h.valid p k hk
    refine ⟨hlt, hset _ htest, fun hmem => ?_⟩
    rcases List.mem_cons.1 hmem with heq | hmem
    · rw [heq, hfree] at htest
      cases htest
    · exact hextra hmem
  · rcases List.mem_cons.1 hb' with rfl | hb'
    · simp [Bitmap.test_set]
    · exact hset b' (h.extra b' hb')

/-- The blocks of an i-node in use. -/
theorem Owned.block (h : Owned fs.entry m extra) (hp : (fs.inodes p).inUse = true)
    {k : Fin directBlockCount} (hk : (fs.inodes p).directBlocks k ≠ 0) :
    (fs.inodes p).directBlocks k < maxBlocks ∧ m.test ((fs.inodes p).directBlocks k) = true ∧
      (fs.inodes p).directBlocks k ∉ extra := by
  rw [← entry_eq hp] at hk ⊢
  exact h.valid p k hk

theorem Owned.block_inj (h : Owned fs.entry m extra) (hp : (fs.inodes p).inUse = true)
    (hq : (fs.inodes q).inUse = true) {k l : Fin directBlockCount}
    (hk : (fs.inodes p).directBlocks k ≠ 0)
    (heq : (fs.inodes p).directBlocks k = (fs.inodes q).directBlocks l) : p = q ∧ k = l := by
  rw [← entry_eq hp] at hk heq
  rw [← entry_eq hq] at heq
  exact h.inj p k q l hk heq

end Owned

/-! ## Blocks -/

theorem length_zeroBlock : zeroBlock.length = fsBlockSize := by
  rw [zeroBlock, List.length_replicate]

theorem blockGetPtr_of_valid (hb : b ≠ 0) (hlt : b < maxBlocks) :
    blockGetPtr b = some (b * fsBlockSize) :=
  if_neg (by simp only [hb, false_or, not_le]; exact hlt)

/-- The free block `b` is taken and cleared. -/
def allocBlock (fs : InodeFs ι) (b : ℕ) : InodeFs ι :=
  { fs with
    blockBitmap := fs.blockBitmap.set b
    freeBlocks := fs.freeBlocks - 1
    blockStorage := storeBytes fs.blockStorage (b * fsBlockSize) zeroBlock }

@[simp] theorem inodes_allocBlock (fs : InodeFs ι) (b : ℕ) :
    (allocBlock fs b).inodes = fs.inodes := rfl
@[simp] theorem blockBitmap_allocBlock (fs : InodeFs ι) (b : ℕ) :
    (allocBlock fs b).blockBitmap = fs.blockBitmap.set b := rfl

/-- What `block_alloc` can do: find no block, or take a free one and clear it. -/
theorem blockAlloc_cases (fs : InodeFs ι) :
    (blockAlloc fs = (0, fs) ∧ ∀ b, b ≠ 0 → b < maxBlocks → fs.blockBitmap.test b = true) ∨
    ∃ b, b ≠ 0 ∧ b < maxBlocks ∧ fs.blockBitmap.test b = false ∧
      blockAlloc fs = (b, allocBlock fs b) := by
  rw [blockAlloc]
  rcases hfind : (List.range' 1 (maxBlocks - 1)).find? fun i => !fs.blockBitmap.test i with _ | b
  · refine .inl ⟨rfl, fun b hb hlt => ?_⟩
    have := List.find?_eq_none.1 hfind b (List.mem_range'_1.2 ⟨Nat.pos_of_ne_zero hb, by omega⟩)
    simpa using this
  · have hmem := List.mem_range'_1.1 (List.mem_of_find?_eq_some hfind)
    have hfree := List.find?_some hfind
    have hb : b ≠ 0 := by omega
    have hlt : b < maxBlocks := by omega
    refine .inr ⟨b, hb, hlt, by simpa using hfree, ?_⟩
    simp only [blockGetPtr_of_valid hb hlt, allocBlock]

/-- The bytes of two blocks are apart. -/
theorem block_disjoint {c j : ℕ} (hne : b ≠ c) (hj : j < fsBlockSize) :
    b * fsBlockSize + j < c * fsBlockSize ∨
      c * fsBlockSize + fsBlockSize ≤ b * fsBlockSize + j := by
  have hj' : j < 512 := hj
  show b * 512 + j < c * 512 ∨ c * 512 + 512 ≤ b * 512 + j
  omega

/-- Bytes stored in one block do not change another. -/
theorem storeBytes_block {m : Mem} {c o j : ℕ} {bytes : List UInt8} (hne : b ≠ c)
    (hle : o + bytes.length ≤ fsBlockSize) (hj : j < fsBlockSize) :
    storeBytes m (c * fsBlockSize + o) bytes (b * fsBlockSize + j) = m (b * fsBlockSize + j) := by
  refine storeBytes_of_disjoint ((block_disjoint hne hj).imp (fun h => ?_) fun h => ?_)
  · exact lt_of_lt_of_le h (Nat.le_add_right _ _)
  · exact le_trans (by rw [Nat.add_assoc]; exact Nat.add_le_add_left hle _) h

/-! ## What a write does to the others -/

/-- The number of blocks that an i-node names. -/
def Inode.blocks (inode : Inode) : ℕ :=
  (Finset.univ.filter fun k => inode.directBlocks k ≠ 0).card

/-- The i-node `p` may get blocks that were free. Others, and the blocks that were not free and
    not those of `p`, do not change. -/
structure Grows (p : InodePtr) (fs fs' : InodeFs ι) : Prop where
  others : ∀ q, q ≠ p → fs'.inodes q = fs.inodes q
  inUse : (fs'.inodes p).inUse = (fs.inodes p).inUse
  inodeNum : (fs'.inodes p).inodeNum = (fs.inodes p).inodeNum
  index : fs'.index = fs.index
  inodeBitmap : fs'.inodeBitmap = fs.inodeBitmap
  freeInodes : fs'.freeInodes = fs.freeInodes
  marked : ∀ b, fs.blockBitmap.test b = true → fs'.blockBitmap.test b = true
  kept : ∀ k, (fs.inodes p).directBlocks k ≠ 0 →
    (fs'.inodes p).directBlocks k = (fs.inodes p).directBlocks k
  taken : ∀ k, (fs'.inodes p).directBlocks k ≠ (fs.inodes p).directBlocks k →
    fs.blockBitmap.test ((fs'.inodes p).directBlocks k) = false
  new : ∀ b, fs'.blockBitmap.test b = true → fs.blockBitmap.test b = true ∨
    (b ≠ 0 ∧ ∃ k, (fs'.inodes p).directBlocks k = b)
  count : (fs.inodes p).blockCount = (fs.inodes p).blocks →
    (fs'.inodes p).blockCount = (fs'.inodes p).blocks
  storage : ∀ b, fs.blockBitmap.test b = true → (∀ k, (fs.inodes p).directBlocks k ≠ b) →
    ∀ j < fsBlockSize,
      fs'.blockStorage (b * fsBlockSize + j) = fs.blockStorage (b * fsBlockSize + j)

theorem Grows.refl (p : InodePtr) (fs : InodeFs ι) : Grows p fs fs :=
  ⟨fun _ _ => rfl, rfl, rfl, rfl, rfl, rfl, fun _ => id, fun _ _ => rfl,
    fun _ h => absurd rfl h, fun _ => .inl, id, fun _ _ _ _ _ => rfl⟩

theorem Grows.trans {fs'' : InodeFs ι} (h : Grows p fs fs') (h' : Grows p fs' fs'') :
    Grows p fs fs'' where
  others q hq := (h'.others q hq).trans (h.others q hq)
  inUse := h'.inUse.trans h.inUse
  inodeNum := h'.inodeNum.trans h.inodeNum
  index := h'.index.trans h.index
  inodeBitmap := h'.inodeBitmap.trans h.inodeBitmap
  freeInodes := h'.freeInodes.trans h.freeInodes
  marked b hb := h'.marked b (h.marked b hb)
  kept k hk := (h'.kept k (by rwa [h.kept k hk])).trans (h.kept k hk)
  taken k hk := by
    by_cases hk' : (fs''.inodes p).directBlocks k = (fs'.inodes p).directBlocks k
    · rw [hk'] at hk ⊢
      exact h.taken k hk
    · rcases htest : fs.blockBitmap.test ((fs''.inodes p).directBlocks k) with _ | _
      · rfl
      · have := h.marked _ htest
        rw [h'.taken k hk'] at this
        cases this
  new b hb := by
    rcases h'.new b hb with hb' | hb'
    · rcases h.new b hb' with hb'' | ⟨hzero, k, hk⟩
      · exact .inl hb''
      · exact .inr ⟨hzero, k, (h'.kept k (hk ▸ hzero)).trans hk⟩
    · exact .inr hb'
  count hcount := h'.count (h.count hcount)
  storage b hb hne j hj := by
    have hne' : ∀ k, (fs'.inodes p).directBlocks k ≠ b := fun k hk => by
      by_cases hk' : (fs'.inodes p).directBlocks k = (fs.inodes p).directBlocks k
      · exact hne k (hk' ▸ hk)
      · have := h.taken k hk'
        rw [hk, hb] at this
        cases this
    exact (h'.storage b (h.marked b hb) hne' j hj).trans (h.storage b hb hne j hj)

@[simp] theorem directBlocks_addBlock (inode : Inode) (k : Fin directBlockCount) (b : ℕ) :
    (addBlock inode k b).directBlocks = Function.update inode.directBlocks k b := rfl

/-- One block more. -/
theorem blocks_addBlock {inode : Inode} {k : Fin directBlockCount} (hk : inode.directBlocks k = 0)
    (hb : b ≠ 0) : (addBlock inode k b).blocks = inode.blocks + 1 := by
  have hset : (Finset.univ.filter fun l => (addBlock inode k b).directBlocks l ≠ 0) =
      insert k (Finset.univ.filter fun l => inode.directBlocks l ≠ 0) := by
    ext l
    simp only [Finset.mem_filter, Finset.mem_univ, true_and, Finset.mem_insert, addBlock,
      Function.update_apply]
    by_cases hl : l = k
    · simp [hl, hb]
    · simp [hl]
  rw [Inode.blocks, hset, Finset.card_insert_of_notMem (by simp [hk]), Inode.blocks]

theorem blocks_le (inode : Inode) : inode.blocks ≤ directBlockCount :=
  (Finset.card_le_univ _).trans (by simp)

@[simp] theorem inodes_setInode_self (fs : InodeFs ι) (p : InodePtr) (inode : Inode) :
    (fs.setInode p inode).inodes p = inode := Function.update_self ..

theorem inodes_setInode_of_ne (h : q ≠ p) (fs : InodeFs ι) (inode : Inode) :
    (fs.setInode p inode).inodes q = fs.inodes q := Function.update_of_ne h ..

/-- The free block `b` is taken for the index `k` of `p`. -/
def takeBlock (fs : InodeFs ι) (p : InodePtr) (k : Fin directBlockCount) (b : ℕ) : InodeFs ι :=
  (allocBlock fs b).setInode p (addBlock (fs.inodes p) k b)

section TakeBlock

variable {k : Fin directBlockCount}

theorem inodes_takeBlock_self : (takeBlock fs p k b).inodes p = addBlock (fs.inodes p) k b :=
  Function.update_self ..

theorem blockBitmap_takeBlock : (takeBlock fs p k b).blockBitmap = fs.blockBitmap.set b := rfl

theorem blockStorage_takeBlock {c j : ℕ} (hne : c ≠ b) (hj : j < fsBlockSize) :
    (takeBlock fs p k b).blockStorage (c * fsBlockSize + j) =
      fs.blockStorage (c * fsBlockSize + j) := by
  have hdisj : c * fsBlockSize + j < b * fsBlockSize ∨
      b * fsBlockSize + zeroBlock.length ≤ c * fsBlockSize + j := by
    rw [length_zeroBlock]
    exact block_disjoint hne hj
  exact storeBytes_of_disjoint hdisj

theorem entry_takeBlock (hp : (fs.inodes p).inUse = true) (q : InodePtr)
    (l : Fin directBlockCount) :
    (takeBlock fs p k b).entry q l = if q = p ∧ l = k then b else fs.entry q l := by
  by_cases hq : q = p
  · subst hq
    rw [InodeFs.entry, inodes_takeBlock_self, InodeFs.entry, if_pos hp]
    simp [addBlock, hp, Function.update_apply]
  · have hne : (takeBlock fs p k b).inodes q = fs.inodes q := Function.update_of_ne hq ..
    rw [if_neg (show ¬(q = p ∧ l = k) from fun h => hq h.1), InodeFs.entry, hne, InodeFs.entry]

theorem grows_takeBlock (hk : (fs.inodes p).directBlocks k = 0) (hb : b ≠ 0)
    (hfree : fs.blockBitmap.test b = false) : Grows p fs (takeBlock fs p k b) where
  others q hq := Function.update_of_ne hq ..
  inUse := by rw [inodes_takeBlock_self]; rfl
  inodeNum := by rw [inodes_takeBlock_self]; rfl
  index := rfl
  inodeBitmap := rfl
  freeInodes := rfl
  marked b' hb' := by
    rw [blockBitmap_takeBlock, Bitmap.test_set, hb', Bool.true_or]
  kept l hl := by
    have hne : l ≠ k := fun heq => hl (heq ▸ hk)
    rw [inodes_takeBlock_self, directBlocks_addBlock, Function.update_of_ne hne]
  taken l hl := by
    rw [inodes_takeBlock_self, directBlocks_addBlock] at hl ⊢
    by_cases hlk : l = k
    · rw [hlk, Function.update_self]
      exact hfree
    · exact absurd (Function.update_of_ne hlk ..) hl
  new b' hb' := by
    rw [blockBitmap_takeBlock, Bitmap.test_set, Bool.or_eq_true, decide_eq_true_iff] at hb'
    rcases hb' with hb' | heq
    · exact .inl hb'
    refine .inr ⟨heq ▸ hb, k, ?_⟩
    rw [inodes_takeBlock_self, directBlocks_addBlock, Function.update_self, heq]
  count hcount := by
    have hle := blocks_le (fs.inodes p)
    have hten : directBlockCount = 10 := rfl
    rw [inodes_takeBlock_self, blocks_addBlock hk hb, addBlock, ← hcount]
    exact Nat.mod_eq_of_lt (by omega)
  storage b' hb' _ j hj := by
    have hne : b' ≠ b := fun heq => by
      rw [heq, hfree] at hb'
      cases hb'
    exact blockStorage_takeBlock hne hj

end TakeBlock

/-- What `inode_write` can do for the block of an index: find no free block, use the one that is
    there, or take a free one. -/
theorem blockFor_cases (fs : InodeFs ι) (p : InodePtr) (k : Fin directBlockCount) :
    (blockFor fs p k = none ∧ (fs.inodes p).directBlocks k = 0 ∧
      ∀ b, b ≠ 0 → b < maxBlocks → fs.blockBitmap.test b = true) ∨
    ((fs.inodes p).directBlocks k ≠ 0 ∧
      blockFor fs p k = some ((fs.inodes p).directBlocks k, fs)) ∨
    ∃ b, b ≠ 0 ∧ b < maxBlocks ∧ fs.blockBitmap.test b = false ∧
      (fs.inodes p).directBlocks k = 0 ∧ blockFor fs p k = some (b, takeBlock fs p k b) := by
  by_cases hk : (fs.inodes p).directBlocks k = 0
  · rcases blockAlloc_cases fs with ⟨halloc, hfull⟩ | ⟨b, hb, hlt, hfree, halloc⟩
    · refine .inl ⟨?_, hk, hfull⟩
      simp only [blockFor, if_pos hk, halloc, if_true]
    · refine .inr (.inr ⟨b, hb, hlt, hfree, hk, ?_⟩)
      rw [blockFor, if_pos hk, halloc]
      dsimp only
      rw [if_neg hb, inodes_allocBlock, takeBlock]
  · exact .inr (.inl ⟨hk, by rw [blockFor, if_neg hk]⟩)

/-- The block for an index, the blocks that are owned being in the storage. -/
theorem blockFor_spec {extra : List ℕ} (h : Owned fs.entry fs.blockBitmap extra)
    (hp : (fs.inodes p).inUse = true) {k : Fin directBlockCount}
    (hsome : blockFor fs p k = some (b, fs')) : b ≠ 0 ∧ b < maxBlocks ∧
      (fs'.inodes p).directBlocks k = b ∧ Grows p fs fs' ∧
      Owned fs'.entry fs'.blockBitmap extra := by
  rcases blockFor_cases fs p k with ⟨hnone, -⟩ | ⟨hk, hold⟩ | ⟨b', hb, hlt, hfree, hk, hnew⟩
  · rw [hnone] at hsome
    cases hsome
  · rw [hold, Option.some_inj, Prod.mk.injEq] at hsome
    obtain ⟨rfl, rfl⟩ := hsome
    exact ⟨hk, (h.block hp hk).1, rfl, Grows.refl p fs, h⟩
  · rw [hnew, Option.some_inj, Prod.mk.injEq] at hsome
    obtain ⟨rfl, rfl⟩ := hsome
    refine ⟨hb, hlt, ?_, grows_takeBlock hk hb hfree, h.take hb hlt hfree (entry_takeBlock hp)⟩
    rw [inodes_takeBlock_self, directBlocks_addBlock, Function.update_self]

/-- Bytes are written into a block of `p`. -/
theorem grows_storage {k : Fin directBlockCount} (hk : (fs.inodes p).directBlocks k = b) {o : ℕ}
    {bytes : List UInt8} (hle : o + bytes.length ≤ fsBlockSize) : Grows p fs { fs with
      blockStorage := storeBytes fs.blockStorage (b * fsBlockSize + o) bytes } := by
  refine ⟨fun _ _ => rfl, rfl, rfl, rfl, rfl, rfl, fun _ => id, fun _ _ => rfl,
    fun _ h => absurd rfl h, fun _ => .inl, id, fun b' hb' hne j hj => ?_⟩
  exact storeBytes_block (fun heq => hne k (hk.trans heq.symm)) hle hj

/-- The size of `p` changes. -/
theorem grows_size (n : ℕ) : Grows p fs (fs.setInode p { fs.inodes p with size := n }) where
  others q hq := inodes_setInode_of_ne hq ..
  inUse := by rw [inodes_setInode_self]
  inodeNum := by rw [inodes_setInode_self]
  index := rfl
  inodeBitmap := rfl
  freeInodes := rfl
  marked _ := id
  kept k _ := by rw [inodes_setInode_self]
  taken k hk := absurd (by rw [inodes_setInode_self]) hk
  new _ := .inl
  count hcount := by
    rw [inodes_setInode_self]
    exact hcount
  storage _ _ _ _ _ := rfl

theorem entry_setInode {inode : Inode} (huse : inode.inUse = (fs.inodes p).inUse)
    (hblocks : inode.directBlocks = (fs.inodes p).directBlocks) :
    (fs.setInode p inode).entry = fs.entry := by
  funext q k
  by_cases hq : q = p
  · rw [hq, InodeFs.entry, inodes_setInode_self, huse, hblocks, InodeFs.entry]
  · rw [InodeFs.entry, inodes_setInode_of_ne hq, InodeFs.entry]

/-! ## Writing -/

section Write

variable {extra : List ℕ} {offset size n : ℕ}

/-- The end of a pass that is not the last one is the end of a block. -/
theorem next_block (hidx : wrap32 (offset + n) / fsBlockSize < directBlockCount)
    (hn' : n + min (fsBlockSize - wrap32 (offset + n) % fsBlockSize) (size - n) < size) :
    wrap32 (offset + (n + min (fsBlockSize - wrap32 (offset + n) % fsBlockSize) (size - n))) /
      fsBlockSize = wrap32 (offset + n) / fsBlockSize + 1 := by
  have hmin : min (fsBlockSize - wrap32 (offset + n) % fsBlockSize) (size - n) =
      fsBlockSize - wrap32 (offset + n) % fsBlockSize := by omega
  rw [hmin]
  simp only [wrap32, fsBlockSize, directBlockCount] at hidx ⊢
  omega

/-- The bytes that a pass of `inode_write` stores, from the `n`th on. -/
def passBytes (data : ℕ → UInt8) (offset size n : ℕ) : List UInt8 :=
  (List.range (min (fsBlockSize - wrap32 (offset + n) % fsBlockSize) (size - n))).map
    fun i => data (n + i)

@[simp] theorem length_passBytes (data : ℕ → UInt8) (offset size n : ℕ) :
    (passBytes data offset size n).length =
      min (fsBlockSize - wrap32 (offset + n) % fsBlockSize) (size - n) := by
  rw [passBytes, List.length_map, List.length_range]

/-- The bytes of a pass stay in their block. -/
theorem passBytes_le (data : ℕ → UInt8) (offset size n : ℕ) :
    wrap32 (offset + n) % fsBlockSize + (passBytes data offset size n).length ≤ fsBlockSize := by
  have hmod : wrap32 (offset + n) % fsBlockSize < fsBlockSize := Nat.mod_lt _ (by decide)
  rw [length_passBytes]
  generalize wrap32 (offset + n) % fsBlockSize = o at hmod ⊢
  omega

/-- What a pass of `inode_write` can do: leave, at the end or without a block, or store its bytes
    in their block and go on. -/
theorem writePass_cases (h : Owned fs.entry fs.blockBitmap extra)
    (hp : (fs.inodes p).inUse = true) (data : ℕ → UInt8) (offset size n : ℕ) :
    (writePass p data offset size (fs, n) = .done (fs, n) ∧
      (n < size → ∀ hidx : wrap32 (offset + n) / fsBlockSize < directBlockCount,
        blockFor fs p ⟨_, hidx⟩ = none)) ∨
    ∃ (hidx : wrap32 (offset + n) / fsBlockSize < directBlockCount) (b : ℕ) (fs' : InodeFs ι),
      n < size ∧ blockFor fs p ⟨_, hidx⟩ = some (b, fs') ∧
      writePass p data offset size (fs, n) = .next ({ fs' with
        blockStorage := storeBytes fs'.blockStorage
          (b * fsBlockSize + wrap32 (offset + n) % fsBlockSize) (passBytes data offset size n) },
        n + (passBytes data offset size n).length) := by
  rw [length_passBytes]
  simp only [writePass]
  by_cases hn : n < size
  swap
  · exact .inl ⟨if_neg hn, fun hn' => absurd hn' hn⟩
  by_cases hidx : wrap32 (offset + n) / fsBlockSize < directBlockCount
  swap
  · refine .inl ⟨?_, fun _ hidx' => absurd hidx' hidx⟩
    rw [if_pos hn, dif_neg hidx]
  rw [if_pos hn, dif_pos hidx]
  rcases hfor : blockFor fs p ⟨_, hidx⟩ with _ | ⟨b, fs'⟩
  · exact .inl ⟨rfl, fun _ _ => hfor⟩
  · obtain ⟨hb, hlt, -⟩ := blockFor_spec h hp hfor
    refine .inr ⟨hidx, b, fs', hn, hfor, ?_⟩
    simp only [blockGetPtr_of_valid hb hlt, passBytes]

/-- What holds of the i-nodes and the blocks after a pass that goes on. -/
theorem grows_pass (h : Owned fs.entry fs.blockBitmap extra) (hp : (fs.inodes p).inUse = true)
    {k : Fin directBlockCount} (hfor : blockFor fs p k = some (b, fs')) (data : ℕ → UInt8)
    (offset size n : ℕ) :
    Grows p fs { fs' with
      blockStorage := storeBytes fs'.blockStorage
        (b * fsBlockSize + wrap32 (offset + n) % fsBlockSize) (passBytes data offset size n) } ∧
    Owned fs'.entry fs'.blockBitmap extra := by
  obtain ⟨-, -, hk, hgrows, howned⟩ := blockFor_spec h hp hfor
  exact ⟨hgrows.trans (grows_storage hk (passBytes_le data offset size n)), howned⟩

/-- The loop of `inode_write` ends. -/
theorem writeLoop_spec (h : Owned fs.entry fs.blockBitmap extra)
    (hp : (fs.inodes p).inUse = true) (data : ℕ → UInt8) (offset size : ℕ) :
    ∃ r, loop (fun s => some (writePass p data offset size s)) blockFuel (fs, 0) = some r ∧
      Grows p fs r.1 ∧ Owned r.1.entry r.1.blockBitmap extra := by
  -- The variant: the blocks that are left.
  let Inv : ℕ → InodeFs ι × ℕ → Prop := fun k s => Grows p fs s.1 ∧
    Owned s.1.entry s.1.blockBitmap extra ∧
    (s.2 < size → directBlockCount ≤ wrap32 (offset + s.2) / fsBlockSize + k)
  have hbody : ∀ k s, Inv k s → (∃ r, some (writePass p data offset size s) = some (.done r) ∧
        Grows p fs r.1 ∧ Owned r.1.entry r.1.blockBitmap extra) ∨
      ∃ s' k', some (writePass p data offset size s) = some (.next s') ∧ k' < k ∧ Inv k' s' := by
    rintro k ⟨fs₁, n⟩ ⟨hgrows, howned, hk⟩
    have hp₁ : (fs₁.inodes p).inUse = true := hgrows.inUse.trans hp
    rcases writePass_cases howned hp₁ data offset size n with
      ⟨hdone, -⟩ | ⟨hidx, b, fs', hn, hfor, hnext⟩
    · exact .inl ⟨_, congrArg some hdone, hgrows, howned⟩
    · obtain ⟨hg, ho⟩ := grows_pass howned hp₁ hfor data offset size n
      have hk' : directBlockCount ≤ wrap32 (offset + n) / fsBlockSize + k := hk hn
      refine .inr ⟨_, k - 1, congrArg some hnext, by omega, hgrows.trans hg, ho, fun hn' => ?_⟩
      simp only [length_passBytes] at hn' ⊢
      have := next_block hidx hn'
      omega
  exact loop_of_variant (n := blockFuel) (k := directBlockCount) hbody
    ⟨Grows.refl p fs, h, fun _ => Nat.le_add_left _ _⟩ (by decide)

/-- `inode_write`, the size: it grows to the end of what was written. -/
def growSize (fs : InodeFs ι) (p : InodePtr) (n : ℕ) : InodeFs ι :=
  if n > (fs.inodes p).size then fs.setInode p { fs.inodes p with size := n } else fs

theorem inodeWrite_eq {data : ℕ → UInt8} {r : InodeFs ι × ℕ}
    (hloop : loop (fun s => some (writePass p data offset size s)) blockFuel (fs, 0) = some r) :
    inodeWrite fs (some p) (some data) offset size =
      some (r.2, growSize r.1 p (wrap32 (offset + r.2))) := by
  simp only [inodeWrite, hloop, Option.bind_eq_bind, Option.bind_some, growSize]
  rfl

theorem grows_growSize (fs : InodeFs ι) (p : InodePtr) (n : ℕ) : Grows p fs (growSize fs p n) := by
  rw [growSize]
  split_ifs
  · exact grows_size n
  · exact Grows.refl p fs

theorem entry_growSize (fs : InodeFs ι) (p : InodePtr) (n : ℕ) :
    (growSize fs p n).entry = fs.entry := by
  rw [growSize]
  split_ifs
  · exact entry_setInode rfl rfl
  · rfl

theorem blockBitmap_growSize (fs : InodeFs ι) (p : InodePtr) (n : ℕ) :
    (growSize fs p n).blockBitmap = fs.blockBitmap := by
  rw [growSize]
  split_ifs <;> rfl

/-- `inode_write` returns. -/
theorem inodeWrite_spec (h : Owned fs.entry fs.blockBitmap extra)
    (hp : (fs.inodes p).inUse = true) (data : ℕ → UInt8) (offset size : ℕ) :
    ∃ n fs', inodeWrite fs (some p) (some data) offset size = some (n, fs') ∧ Grows p fs fs' ∧
      Owned fs'.entry fs'.blockBitmap extra := by
  obtain ⟨r, hloop, hgrows, howned⟩ := writeLoop_spec h hp data offset size
  refine ⟨_, _, inodeWrite_eq hloop, hgrows.trans (grows_growSize ..), ?_⟩
  rw [entry_growSize, blockBitmap_growSize]
  exact howned

end Write

/-! ## Reading -/

/-- What an i-node reads depends on its fields and its blocks only. -/
theorem inodeRead_congr (hq : fs'.inodes q = fs.inodes q)
    (hstorage : ∀ k, (fs.inodes q).directBlocks k ≠ 0 → ∀ j < fsBlockSize,
      fs'.blockStorage ((fs.inodes q).directBlocks k * fsBlockSize + j) =
        fs.blockStorage ((fs.inodes q).directBlocks k * fsBlockSize + j)) (offset size : ℕ) :
    inodeRead fs' (some q) offset size = inodeRead fs (some q) offset size := by
  have hpass : ∀ size buf, readPass fs' (fs.inodes q) offset size buf =
      readPass fs (fs.inodes q) offset size buf := by
    intro size buf
    simp only [readPass]
    split_ifs with hlt hidx hzero
    · rfl
    · rcases hptr : blockGetPtr ((fs.inodes q).directBlocks ⟨_, hidx⟩) with _ | ptr
      · rfl
      · have hmod : wrap32 (offset + buf.length) % fsBlockSize < fsBlockSize :=
          Nat.mod_lt _ (by decide)
        have hptr' : ptr = (fs.inodes q).directBlocks ⟨_, hidx⟩ * fsBlockSize := by
          rw [blockGetPtr] at hptr
          split_ifs at hptr with hbad
          exact (Option.some.inj hptr).symm
        dsimp only
        rw [hptr', loadBytes_congr fun x hx hx' => ?_]
        obtain ⟨j, rfl⟩ := Nat.exists_eq_add_of_le ((Nat.le_add_right _ _).trans hx)
        refine hstorage ⟨_, hidx⟩ hzero j ?_
        omega
    · rfl
    · rfl
  simp only [inodeRead, hq, hpass]

/-! ## Freeing -/

/-- The state `fs'` is `fs` with the blocks satisfying `S` freed. -/
structure Freed (S : ℕ → Prop) (fs fs' : InodeFs ι) : Prop where
  inodes : fs'.inodes = fs.inodes
  index : fs'.index = fs.index
  inodeBitmap : fs'.inodeBitmap = fs.inodeBitmap
  freeInodes : fs'.freeInodes = fs.freeInodes
  test : ∀ b, fs'.blockBitmap.test b = true ↔ fs.blockBitmap.test b = true ∧ ¬S b

theorem freed_blockFree (hb : b ≠ 0) (hlt : b < maxBlocks) :
    Freed (· = b) fs (blockFree fs b) := by
  have hbad : ¬(b = 0 ∨ b ≥ maxBlocks) := by omega
  rw [blockFree, if_neg hbad]
  refine ⟨rfl, rfl, rfl, rfl, fun b' => ?_⟩
  show (fs.blockBitmap.clear b).test b' = true ↔ _
  rw [Bitmap.test_clear, Bool.and_eq_true, decide_eq_true_iff]

/-- The loop of `inode_free`. -/
theorem freed_foldl {node : Inode} (hvalid : ∀ k, node.directBlocks k < maxBlocks)
    (l : List (Fin directBlockCount)) (fs : InodeFs ι) :
    Freed (fun b => b ≠ 0 ∧ ∃ k ∈ l, k < node.blockCount ∧ node.directBlocks k = b) fs
      (l.foldl (fun fs (k : Fin directBlockCount) =>
        if k < node.blockCount ∧ node.directBlocks k > 0 then blockFree fs (node.directBlocks k)
        else fs) fs) := by
  induction l generalizing fs with
  | nil => exact ⟨rfl, rfl, rfl, rfl, fun b => by simp⟩
  | cons k l ih =>
    rw [List.foldl_cons]
    split_ifs with hk
    · have h₁ : Freed (· = node.directBlocks k) fs (blockFree fs (node.directBlocks k)) :=
        freed_blockFree (Nat.pos_iff_ne_zero.1 hk.2) (hvalid k)
      have h₂ := ih (blockFree fs (node.directBlocks k))
      refine ⟨h₂.inodes.trans h₁.inodes, h₂.index.trans h₁.index,
        h₂.inodeBitmap.trans h₁.inodeBitmap, h₂.freeInodes.trans h₁.freeInodes, fun b => ?_⟩
      rw [h₂.test, h₁.test]
      have hpos : node.directBlocks k ≠ 0 := Nat.pos_iff_ne_zero.1 hk.2
      simp only [List.mem_cons, exists_eq_or_imp]
      constructor
      · rintro ⟨⟨hb, hne⟩, hnot⟩
        exact ⟨hb, fun ⟨h0, hor⟩ => hor.elim (fun h => hne h.2.symm) fun h => hnot ⟨h0, h⟩⟩
      · rintro ⟨hb, hnot⟩
        exact ⟨⟨hb, fun h => hnot ⟨h ▸ hpos, .inl ⟨hk.1, h.symm⟩⟩⟩, fun h => hnot ⟨h.1, .inr h.2⟩⟩
    · have h₂ := ih fs
      refine ⟨h₂.inodes, h₂.index, h₂.inodeBitmap, h₂.freeInodes, fun b => ?_⟩
      rw [h₂.test]
      simp only [List.mem_cons, exists_eq_or_imp]
      refine and_congr_right fun _ => not_congr (and_congr_right fun hb => ?_)
      refine ⟨.inr, fun h => h.resolve_left fun ⟨hlt, heq⟩ => hk ⟨hlt, ?_⟩⟩
      exact Nat.pos_of_ne_zero (heq ▸ hb)

/-- The i-node with other blocks. -/
def Inode.setBlocks (inode : Inode) (f : Fin directBlockCount → ℕ) : Inode :=
  { inode with directBlocks := f }

@[simp] theorem directBlocks_setBlocks (inode : Inode) (f : Fin directBlockCount → ℕ) :
    (inode.setBlocks f).directBlocks = f := rfl

/-- The state `fs'` is `fs` with the places satisfying `S` of the i-node `p` given up, and their
    blocks freed. -/
structure Truncated (p : InodePtr) (S : Fin directBlockCount → Prop) [DecidablePred S]
    (fs fs' : InodeFs ι) : Prop where
  others : ∀ q, q ≠ p → fs'.inodes q = fs.inodes q
  inode : fs'.inodes p = (fs.inodes p).setBlocks fun k =>
    if S k then 0 else (fs.inodes p).directBlocks k
  index : fs'.index = fs.index
  inodeBitmap : fs'.inodeBitmap = fs.inodeBitmap
  freeInodes : fs'.freeInodes = fs.freeInodes
  test : ∀ b, fs'.blockBitmap.test b = true ↔ fs.blockBitmap.test b = true ∧
    ¬(b ≠ 0 ∧ ∃ k, S k ∧ (fs.inodes p).directBlocks k = b)

section Truncated

variable {S T : Fin directBlockCount → Prop} [DecidablePred S] [DecidablePred T]

theorem Truncated.congr (h : Truncated p S fs fs') (hST : ∀ k, S k ↔ T k) :
    Truncated p T fs fs' := by
  refine ⟨h.others, ?_, h.index, h.inodeBitmap, h.freeInodes, fun b => ?_⟩
  · rw [h.inode]
    simp only [hST]
  · rw [h.test]
    simp only [hST]

theorem Truncated.trans {fs'' : InodeFs ι} (h : Truncated p S fs fs')
    (h' : Truncated p T fs' fs'') : Truncated p (fun k => S k ∨ T k) fs fs'' := by
  refine ⟨fun q hq => (h'.others q hq).trans (h.others q hq), ?_, h'.index.trans h.index,
    h'.inodeBitmap.trans h.inodeBitmap, h'.freeInodes.trans h.freeInodes, fun b => ?_⟩
  · rw [h'.inode, h.inode]
    refine congrArg (fs.inodes p).setBlocks (funext fun k => ?_)
    rw [directBlocks_setBlocks]
    by_cases hS : S k
    · simp [hS]
    · simp [hS]
  · rw [h'.test, h.test, h.inode, directBlocks_setBlocks]
    constructor
    · rintro ⟨⟨hb, hS⟩, hT⟩
      refine ⟨hb, ?_⟩
      rintro ⟨h0, k, hk, heq⟩
      by_cases hSk : S k
      · exact hS ⟨h0, k, hSk, heq⟩
      · exact hT ⟨h0, k, hk.resolve_left hSk, by rw [if_neg hSk, heq]⟩
    · rintro ⟨hb, hST⟩
      refine ⟨⟨hb, fun ⟨h0, k, hk, heq⟩ => hST ⟨h0, k, .inl hk, heq⟩⟩, ?_⟩
      rintro ⟨h0, k, hk, heq⟩
      by_cases hSk : S k
      · rw [if_pos hSk] at heq
        exact h0 heq.symm
      · rw [if_neg hSk] at heq
        exact hST ⟨h0, k, .inr hk, heq⟩

theorem truncated_pass {k : Fin directBlockCount}
    (hlt : (fs.inodes p).directBlocks k < maxBlocks) :
    Truncated p (· = k) fs (truncatePass p fs k) := by
  rw [truncatePass]
  have hupdate : ∀ l, (if l = k then 0 else (fs.inodes p).directBlocks l) =
      Function.update (fs.inodes p).directBlocks k 0 l := fun l => by
    rw [Function.update_apply]
  by_cases hk : (fs.inodes p).directBlocks k > 0
  · have hfreed : Freed (· = (fs.inodes p).directBlocks k) fs
        (blockFree fs ((fs.inodes p).directBlocks k)) :=
      freed_blockFree (Nat.pos_iff_ne_zero.1 hk) hlt
    rw [if_pos hk]
    refine ⟨fun q hq => ?_, ?_, hfreed.index, hfreed.inodeBitmap, hfreed.freeInodes, fun b => ?_⟩
    · rw [inodes_setInode_of_ne hq, hfreed.inodes]
    · rw [inodes_setInode_self]
      simp only [hupdate]
      rfl
    · refine (hfreed.test b).trans (and_congr_right fun _ => not_congr ?_)
      constructor
      · rintro rfl
        exact ⟨Nat.pos_iff_ne_zero.1 hk, k, rfl, rfl⟩
      · rintro ⟨-, l, rfl, heq⟩
        exact heq.symm
  · have hzero : (fs.inodes p).directBlocks k = 0 := by omega
    rw [if_neg hk]
    refine ⟨fun _ _ => rfl, ?_, rfl, rfl, rfl, fun b => ?_⟩
    · simp only [hupdate]
      rw [← hzero, Function.update_eq_self]
      rfl
    · refine (and_iff_left ?_).symm
      rintro ⟨h0, l, rfl, heq⟩
      exact h0 (heq.symm.trans hzero)

end Truncated

/-- The loop of `inode_truncate`. -/
theorem truncated_foldl (l : List (Fin directBlockCount)) (fs : InodeFs ι)
    (hvalid : ∀ k, (fs.inodes p).directBlocks k < maxBlocks) :
    Truncated p (· ∈ l) fs (l.foldl (truncatePass p) fs) := by
  induction l generalizing fs with
  | nil => exact ⟨fun _ _ => rfl, by simp [Inode.setBlocks], rfl, rfl, rfl, fun b => by simp⟩
  | cons k l ih =>
    rw [List.foldl_cons]
    have h₁ := truncated_pass (hvalid k)
    have h₂ := ih (truncatePass p fs k) fun j => by
      rw [h₁.inode, directBlocks_setBlocks]
      split_ifs
      · decide
      · exact hvalid j
    exact (h₁.trans h₂).congr fun j => List.mem_cons.symm

end Fru1tOs
