import Fru1tOs.Inode.Blocks

/-!
# Runs of the i-nodes

Any sequence of operations on i-nodes in use, whatever the calls to the index do.

* `blocks_owned`: blocks are owned once, and writing one i-node does not change what another
  one reads.
* `no_leak_iff`: no block is lost as long as `inode_free` and `inode_truncate`, which go by the
  number of blocks, meet i-nodes whose blocks are the first ones.
-/

namespace Fru1tOs

open Lib

variable {ι : Type} {idx : Index ι}

/-- The operations on i-nodes. -/
inductive InodeCall
  | alloc (type : ℕ)
  | free (p : InodePtr)
  | write (p : InodePtr) (data : ℕ → UInt8) (offset size : ℕ)
  | truncate (p : InodePtr) (newSize : ℕ)

/-- An operation. It is made only on an i-node in use. -/
def InodeCall.step (idx : Index ι) (fs : InodeFs ι) : InodeCall → Option (InodeFs ι)
  | alloc type => (inodeAlloc idx fs type).map Prod.snd
  | free p => if (fs.inodes p).inUse then inodeFree idx fs (some p) else some fs
  | write p data offset size =>
    if (fs.inodes p).inUse then
      (inodeWrite fs (some p) (some data) offset size).map Prod.snd
    else some fs
  | truncate p newSize =>
    if (fs.inodes p).inUse then some (inodeTruncate fs (some p) newSize).2 else some fs

/-- What holds of the i-nodes and the bitmaps, other blocks being in the hands of others. -/
structure InodeInv (fs : InodeFs ι) (extra : List ℕ) : Prop where
  owned : Owned fs.entry fs.blockBitmap extra
  bitmap : ∀ p : InodePtr, fs.inodeBitmap.test p = (fs.inodes p).inUse
  num : ∀ p, (fs.inodes p).inodeNum = p
  count : fs.freeInodes = (Finset.univ.filter fun p => (fs.inodes p).inUse = false).card

section Invariant

variable {fs fs' : InodeFs ι} {extra : List ℕ} {p : InodePtr}

theorem inodeInv_init (index : ι) (fs : InodeFs ι) : InodeInv (inodeFsInit index fs) [] := by
  have hentry : ∀ p k, (inodeFsInit index fs).entry p k = 0 := fun p k =>
    if_neg Bool.false_ne_true
  refine ⟨⟨fun p k hk => absurd (hentry p k) hk, fun p k q l hk => absurd (hentry p k) hk,
    fun b hb => absurd hb List.not_mem_nil⟩, fun p => ?_, fun p => rfl, ?_⟩
  · have hlt : p.val / 32 < maxInodeCount / 32 := Nat.div_lt_div_of_lt_of_dvd (by decide) p.isLt
    rw [Bitmap.test_eq]
    show BitVec.getLsbD (if p.val / 32 < maxInodeCount / 32 then 0 else _) _ = false
    rw [if_pos hlt]
    simp
  · have hall : (Finset.univ.filter fun p => ((inodeFsInit index fs).inodes p).inUse = false) =
        Finset.univ := Finset.filter_true_of_mem fun p _ => rfl
    rw [hall, Finset.card_univ, Fintype.card_fin]
    rfl

/-- The blocks of an i-node in use are in the storage. -/
theorem InodeInv.valid (h : InodeInv fs extra) (hp : (fs.inodes p).inUse = true)
    (k : Fin directBlockCount) : (fs.inodes p).directBlocks k < maxBlocks := by
  by_cases hk : (fs.inodes p).directBlocks k = 0
  · rw [hk]
    decide
  · exact (h.owned.block hp hk).1

theorem InodeInv.grows (h : InodeInv fs extra) (hg : Grows p fs fs')
    (howned : Owned fs'.entry fs'.blockBitmap extra) : InodeInv fs' extra := by
  have huse : ∀ q, (fs'.inodes q).inUse = (fs.inodes q).inUse := fun q => by
    by_cases hq : q = p
    · rw [hq, hg.inUse]
    · rw [hg.others q hq]
  refine ⟨howned, fun q => ?_, fun q => ?_, ?_⟩
  · rw [hg.inodeBitmap, huse, h.bitmap]
  · by_cases hq : q = p
    · rw [hq, hg.inodeNum, h.num]
    · rw [hg.others q hq, h.num]
  · rw [hg.freeInodes, h.count]
    simp only [huse]

/-- A new i-node. -/
def newInode (p : InodePtr) (type : ℕ) : Inode :=
  { inodeNum := p
    type := type
    size := 0
    permissions := permReadWrite
    linkCount := 1
    blockCount := 0
    directBlocks := fun _ => 0
    indirectBlock := 0
    doubleIndirectBlock := 0
    inUse := true }

/-- The state `fs'` is `fs` with the new i-node `p`, which was free. -/
structure AllocsInode (p : InodePtr) (type : ℕ) (fs fs' : InodeFs ι) : Prop where
  free : fs.inodeBitmap.test p = false
  others : ∀ q, q ≠ p → fs'.inodes q = fs.inodes q
  inode : fs'.inodes p = newInode p type
  blockBitmap : fs'.blockBitmap = fs.blockBitmap
  inodeBitmap : fs'.inodeBitmap = fs.inodeBitmap.set p
  freeInodes : fs'.freeInodes = fs.freeInodes - 1

/-- What `inode_alloc` can do: find no i-node, or take a free one. -/
theorem inodeAlloc_cases {type : ℕ} {r : Option InodePtr × InodeFs ι}
    (h : inodeAlloc idx fs type = some r) :
    r = (none, fs) ∨ ∃ p, r.1 = some p ∧ AllocsInode p type fs r.2 := by
  rw [inodeAlloc] at h
  rcases hfind : (List.finRange maxInodeCount).find? fun i : InodePtr => !fs.inodeBitmap.test i
    with _ | p
  · rw [hfind] at h
    exact .inl (Option.some.inj h).symm
  · rw [hfind] at h
    obtain ⟨index, -, hr⟩ := Option.bind_eq_some_iff.1 h
    obtain rfl := Option.some.inj hr
    exact .inr ⟨p, rfl, by simpa using List.find?_some hfind,
      fun q hq => inodes_setInode_of_ne hq .., inodes_setInode_self .., rfl, rfl, rfl⟩

/-- The state `fs'` is `fs` with the i-node `p` given up, and its blocks before `block_count`
    freed. -/
structure FreesInode (p : InodePtr) (fs fs' : InodeFs ι) : Prop where
  others : ∀ q, q ≠ p → fs'.inodes q = fs.inodes q
  inode : fs'.inodes p = { fs.inodes p with inUse := false }
  inodeBitmap : fs'.inodeBitmap = fs.inodeBitmap.clear (fs.inodes p).inodeNum
  freeInodes : fs'.freeInodes = fs.freeInodes + 1
  test : ∀ b, fs'.blockBitmap.test b = true ↔ fs.blockBitmap.test b = true ∧
    ¬(b ≠ 0 ∧ ∃ k : Fin directBlockCount, k < (fs.inodes p).blockCount ∧
      (fs.inodes p).directBlocks k = b)

/-- What `inode_free` does with an i-node in use. -/
theorem inodeFree_spec (hp : (fs.inodes p).inUse = true)
    (hvalid : ∀ k, (fs.inodes p).directBlocks k < maxBlocks)
    (h : inodeFree idx fs (some p) = some fs') : FreesInode p fs fs' := by
  rw [inodeFree] at h
  simp only [hp, Bool.true_eq_false, if_false] at h
  have hfreed := freed_foldl hvalid (List.finRange directBlockCount) fs
  generalize (List.finRange directBlockCount).foldl _ fs = fs₁ at h hfreed
  obtain ⟨index, -, hr⟩ := Option.bind_eq_some_iff.1 h
  obtain rfl := Option.some.inj hr
  refine ⟨fun q hq => ?_, ?_, ?_, ?_, fun b => ?_⟩
  · rw [← hfreed.inodes]
    exact inodes_setInode_of_ne hq ..
  · rw [← hfreed.inodes]
    exact inodes_setInode_self ..
  · rw [← hfreed.inodeBitmap]
    rfl
  · rw [← hfreed.freeInodes]
    rfl
  · refine (hfreed.test b).trans ?_
    simp only [List.mem_finRange, true_and]

/-- The i-nodes that are not in use, when `p` is taken. -/
theorem card_unused (use use' : InodePtr → Bool) (hp : use p = false) (hp' : use' p = true)
    (hne : ∀ q, q ≠ p → use' q = use q) :
    (Finset.univ.filter fun q => use q = false).card =
      (Finset.univ.filter fun q => use' q = false).card + 1 := by
  have hset : (Finset.univ.filter fun q => use q = false) =
      insert p (Finset.univ.filter fun q => use' q = false) := by
    ext q
    by_cases hq : q = p
    · simp [hq, hp]
    · simp [hq, hne q hq]
  rw [hset, Finset.card_insert_of_notMem (by simp [hp'])]

theorem InodeInv.alloc (h : InodeInv fs extra) {type : ℕ} {r : Option InodePtr × InodeFs ι}
    (hr : inodeAlloc idx fs type = some r) : InodeInv r.2 extra := by
  rcases inodeAlloc_cases hr with rfl | ⟨p, -, ha⟩
  · exact h
  · have hp : (fs.inodes p).inUse = false := by rw [← h.bitmap, ha.free]
    have hentry : r.2.entry = fs.entry := by
      funext q k
      by_cases hq : q = p
      · rw [hq, InodeFs.entry, ha.inode, InodeFs.entry, hp]
        rfl
      · rw [InodeFs.entry, ha.others q hq, InodeFs.entry]
    refine ⟨?_, fun q => ?_, fun q => ?_, ?_⟩
    · rw [hentry, ha.blockBitmap]
      exact h.owned
    · rw [ha.inodeBitmap, Bitmap.test_set, h.bitmap]
      by_cases hq : q = p
      · rw [hq, ha.inode]
        simp [newInode]
      · rw [ha.others q hq]
        simp [Fin.val_inj, hq]
    · by_cases hq : q = p
      · rw [hq, ha.inode]
        rfl
      · rw [ha.others q hq, h.num]
    · have hcard := card_unused (fun q => (fs.inodes q).inUse) (fun q => (r.2.inodes q).inUse) hp
        (by rw [ha.inode]; rfl) fun q hq => by rw [ha.others q hq]
      rw [ha.freeInodes, h.count, hcard]
      push_cast
      exact add_sub_cancel_right _ _

theorem InodeInv.free (h : InodeInv fs extra) (hp : (fs.inodes p).inUse = true)
    (hr : inodeFree idx fs (some p) = some fs') : InodeInv fs' extra := by
  have hf := inodeFree_spec hp (h.valid hp) hr
  have hentry : ∀ q k, fs'.entry q k ≠ 0 → q ≠ p ∧ fs'.entry q k = fs.entry q k := by
    intro q k hk
    by_cases hq : q = p
    · rw [hq, InodeFs.entry, hf.inode] at hk
      exact absurd rfl hk
    · exact ⟨hq, by rw [InodeFs.entry, hf.others q hq, InodeFs.entry]⟩
  refine ⟨h.owned.mono (fun q k hk => (hentry q k hk).2) fun b hb hkept => ?_, fun q => ?_,
    fun q => ?_, ?_⟩
  · -- A block that someone else owns is not freed.
    refine (hf.test b).2 ⟨hb, ?_⟩
    rintro ⟨h0, k, -, hk⟩
    rw [← entry_eq hp] at hk
    rcases hkept with hextra | ⟨q, l, hl, heq⟩
    · exact (h.owned.valid p k (hk ▸ h0)).2.2 (hk ▸ hextra)
    · obtain ⟨hq, hl'⟩ := hentry q l hl
      exact hq (h.owned.inj p k q l (hk ▸ h0) (hk.trans (heq.symm.trans hl'))).1.symm
  · rw [hf.inodeBitmap, Bitmap.test_clear, h.bitmap, h.num]
    by_cases hq : q = p
    · rw [hq, hf.inode]
      simp
    · rw [hf.others q hq]
      simp [Fin.val_inj, hq]
  · by_cases hq : q = p
    · rw [hq, hf.inode, h.num]
    · rw [hf.others q hq, h.num]
  · have hcard := card_unused (fun q => (fs'.inodes q).inUse) (fun q => (fs.inodes q).inUse)
      (by rw [hf.inode]) hp fun q hq => by rw [hf.others q hq]
    rw [hf.freeInodes, h.count]
    refine Eq.trans ?_ (congrArg Nat.cast hcard.symm)
    push_cast
    rfl

/-- The places that `inode_truncate` gives up. -/
abbrev GivenUp (inode : Inode) (newSize : ℕ) (k : Fin directBlockCount) : Prop :=
  blocksFor newSize ≤ k ∧ k < inode.blockCount

/-- The state `fs'` is `fs` with the i-node `p` cut to a size. -/
structure ShortensInode (p : InodePtr) (newSize : ℕ) (fs fs' : InodeFs ι) : Prop where
  others : ∀ q, q ≠ p → fs'.inodes q = fs.inodes q
  inode : fs'.inodes p = { (fs.inodes p).setBlocks fun k =>
      if GivenUp (fs.inodes p) newSize k then 0 else (fs.inodes p).directBlocks k with
    size := newSize, blockCount := blocksFor newSize }
  inodeBitmap : fs'.inodeBitmap = fs.inodeBitmap
  freeInodes : fs'.freeInodes = fs.freeInodes
  test : ∀ b, fs'.blockBitmap.test b = true ↔ fs.blockBitmap.test b = true ∧
    ¬(b ≠ 0 ∧ ∃ k, GivenUp (fs.inodes p) newSize k ∧ (fs.inodes p).directBlocks k = b)

/-- What `inode_truncate` can do: leave a file that is not longer, or cut it. -/
theorem inodeTruncate_cases (hvalid : ∀ k, (fs.inodes p).directBlocks k < maxBlocks)
    (newSize : ℕ) :
    ((fs.inodes p).size ≤ newSize ∧ inodeTruncate fs (some p) newSize = (0, fs)) ∨
    (newSize < (fs.inodes p).size ∧
      ShortensInode p newSize fs (inodeTruncate fs (some p) newSize).2) := by
  rw [inodeTruncate]
  dsimp only
  by_cases hlt : newSize < (fs.inodes p).size
  · rw [if_neg (not_le.2 hlt)]
    refine .inr ⟨hlt, ?_⟩
    have htr := (truncated_foldl ((List.finRange directBlockCount).filter fun k =>
      decide (GivenUp (fs.inodes p) newSize k)) fs hvalid).congr fun k => by
        rw [List.mem_filter, decide_eq_true_iff, and_iff_right (List.mem_finRange k)]
    generalize List.foldl _ fs _ = fs₁ at htr ⊢
    refine ⟨fun q hq => ?_, ?_, htr.inodeBitmap, htr.freeInodes, htr.test⟩
    · rw [inodes_setInode_of_ne hq, htr.others q hq]
    · rw [inodes_setInode_self, htr.inode]
  · rw [if_pos (not_lt.1 hlt)]
    exact .inl ⟨not_lt.1 hlt, rfl⟩

theorem InodeInv.truncate (h : InodeInv fs extra) (hp : (fs.inodes p).inUse = true)
    (newSize : ℕ) : InodeInv (inodeTruncate fs (some p) newSize).2 extra := by
  rcases inodeTruncate_cases (h.valid hp) newSize with ⟨-, heq⟩ | ⟨-, hs⟩
  · rw [heq]
    exact h
  generalize (inodeTruncate fs (some p) newSize).2 = fs' at hs ⊢
  have huse : ∀ q, (fs'.inodes q).inUse = (fs.inodes q).inUse := fun q => by
    by_cases hq : q = p
    · rw [hq, hs.inode, Inode.setBlocks]
    · rw [hs.others q hq]
  have hentry : ∀ q k, fs'.entry q k =
      if q = p ∧ GivenUp (fs.inodes p) newSize k then 0 else fs.entry q k := fun q k => by
    rw [InodeFs.entry, InodeFs.entry, huse]
    by_cases hq : q = p
    · subst hq
      rw [hs.inode, directBlocks_setBlocks, hp, if_pos rfl, if_pos rfl]
      simp only [true_and]
    · rw [hs.others q hq, if_neg (show ¬(q = p ∧ _) from fun h => hq h.1)]
  refine ⟨h.owned.mono (fun q k hk => ?_) fun b hb hkept => ?_, fun q => ?_, fun q => ?_, ?_⟩
  · rw [hentry] at hk ⊢
    split_ifs at hk ⊢
    · exact absurd rfl hk
    · rfl
  · -- A block that is owned at another place is not freed.
    refine (hs.test b).2 ⟨hb, ?_⟩
    rintro ⟨h0, k, hgiven, hk⟩
    rw [← entry_eq hp] at hk
    rcases hkept with hextra | ⟨q, l, hl, heq⟩
    · exact (h.owned.valid p k (hk ▸ h0)).2.2 (hk ▸ hextra)
    · rw [hentry] at hl heq
      split_ifs at hl heq with hnot
      · exact hl rfl
      · obtain ⟨rfl, rfl⟩ := h.owned.inj p k q l (hk ▸ h0) (hk.trans heq.symm)
        exact hnot ⟨rfl, hgiven⟩
  · rw [huse, ← h.bitmap, hs.inodeBitmap]
  · by_cases hq : q = p
    · rw [hq, hs.inode, Inode.setBlocks, h.num]
    · rw [hs.others q hq, h.num]
  · rw [hs.freeInodes, h.count]
    simp only [huse]

theorem InodeInv.step (h : InodeInv fs extra) {c : InodeCall} (hr : c.step idx fs = some fs') :
    InodeInv fs' extra := by
  cases c with
  | alloc type =>
    obtain ⟨r, hr', rfl⟩ := Option.map_eq_some_iff.1 hr
    exact h.alloc hr'
  | free p =>
    rw [InodeCall.step] at hr
    split_ifs at hr with hp
    · exact h.free hp hr
    · exact Option.some.inj hr ▸ h
  | write p data offset size =>
    rw [InodeCall.step] at hr
    split_ifs at hr with hp
    · obtain ⟨n, fs₁, hwrite, hgrows, howned⟩ := inodeWrite_spec h.owned hp data offset size
      rw [hwrite, Option.map_some, Option.some_inj] at hr
      exact hr ▸ h.grows hgrows howned
    · exact Option.some.inj hr ▸ h
  | truncate p newSize =>
    rw [InodeCall.step] at hr
    split_ifs at hr with hp
    · exact Option.some.inj hr ▸ h.truncate hp newSize
    · exact Option.some.inj hr ▸ h

/-- An operation returns when the calls to the index do. -/
theorem InodeInv.step_ne_none (h : InodeInv fs extra) (hins : ∀ i k p, idx.insert i k p ≠ none)
    (hdel : ∀ i k, idx.delete i k ≠ none) (c : InodeCall) : c.step idx fs ≠ none := by
  cases c with
  | alloc type =>
    rw [InodeCall.step, ne_eq, Option.map_eq_none_iff, inodeAlloc]
    split
    · exact Option.some_ne_none _
    · intro hnone
      rw [Option.bind_eq_bind, Option.bind_eq_none_iff] at hnone
      obtain ⟨index, hindex⟩ := Option.ne_none_iff_exists'.1 (hins fs.index _ _)
      exact absurd (hnone index hindex) (Option.some_ne_none _)
  | free p =>
    rw [InodeCall.step]
    split_ifs with hp
    · rw [inodeFree]
      dsimp only
      rw [if_neg (by rw [hp]; decide)]
      intro hnone
      rw [Option.bind_eq_bind, Option.bind_eq_none_iff] at hnone
      obtain ⟨index, hindex⟩ := Option.ne_none_iff_exists'.1 (hdel _ _)
      exact absurd (hnone index hindex) (Option.some_ne_none _)
    · exact Option.some_ne_none _
  | write p data offset size =>
    rw [InodeCall.step]
    split_ifs with hp
    · obtain ⟨n, fs₁, hwrite, -⟩ := inodeWrite_spec h.owned hp data offset size
      rw [hwrite]
      exact Option.some_ne_none _
    · exact Option.some_ne_none _
  | truncate p newSize =>
    rw [InodeCall.step]
    split_ifs
    · exact Option.some_ne_none _
    · exact Option.some_ne_none _

/-- What `p` gets does not change what another i-node reads. -/
theorem InodeInv.read_of_grows (h : InodeInv fs extra) {q : InodePtr} (hp : (fs.inodes p).inUse)
    (hq : (fs.inodes q).inUse) (hne : q ≠ p) (hgrows : Grows p fs fs') (offset size : ℕ) :
    inodeRead fs' (some q) offset size = inodeRead fs (some q) offset size := by
  refine inodeRead_congr (hgrows.others q hne) (fun k hk => ?_) offset size
  refine hgrows.storage _ (h.owned.block hq hk).2.1 fun l hl => hne ?_
  exact (h.owned.block_inj hq hp hk hl.symm).1

/-- Writing one i-node does not change what another one reads. -/
theorem InodeInv.write_isolated (h : InodeInv fs extra) {q : InodePtr} (hp : (fs.inodes p).inUse)
    (hq : (fs.inodes q).inUse) (hne : q ≠ p) (data : ℕ → UInt8) (offset size : ℕ) :
    ∃ n fs', inodeWrite fs (some p) (some data) offset size = some (n, fs') ∧
      ∀ offset' size', inodeRead fs' (some q) offset' size' =
        inodeRead fs (some q) offset' size' := by
  obtain ⟨n, fs', hwrite, hgrows, -⟩ := inodeWrite_spec h.owned hp data offset size
  exact ⟨n, fs', hwrite, h.read_of_grows hp hq hne hgrows⟩

end Invariant

/-! ## Ownership -/

/-- The operations on i-nodes, and calls of `block_alloc` by others. -/
inductive BlockCall
  | inode (c : InodeCall)
  | blockAlloc

/-- An operation, with the blocks that others have. -/
def BlockCall.step (idx : Index ι) (s : InodeFs ι × List ℕ) :
    BlockCall → Option (InodeFs ι × List ℕ)
  | inode c => (c.step idx s.1).map fun fs => (fs, s.2)
  | blockAlloc =>
    let (b, fs) := Fru1tOs.blockAlloc s.1
    some (fs, if b = 0 then s.2 else b :: s.2)

/-- Blocks are owned once, the bitmaps say what is in use, and writing one i-node does not
    change what another one reads. -/
structure BlocksOwned (fs : InodeFs ι) (extra : List ℕ) : Prop where
  valid : ∀ p k, (fs.inodes p).inUse → (fs.inodes p).directBlocks k ≠ 0 →
    1 ≤ (fs.inodes p).directBlocks k ∧ (fs.inodes p).directBlocks k ≤ maxBlocks - 1 ∧
      fs.blockBitmap.test ((fs.inodes p).directBlocks k)
  unique : ∀ p k q l, (fs.inodes p).inUse → (fs.inodes q).inUse →
    (fs.inodes p).directBlocks k ≠ 0 →
    (fs.inodes p).directBlocks k = (fs.inodes q).directBlocks l → p = q ∧ k = l
  notExtra : ∀ p k, (fs.inodes p).inUse → (fs.inodes p).directBlocks k ≠ 0 →
    (fs.inodes p).directBlocks k ∉ extra
  bitmap : ∀ p : InodePtr, fs.inodeBitmap.test p ↔ (fs.inodes p).inUse
  freeInodes : fs.freeInodes = (Finset.univ.filter fun p : InodePtr => !fs.inodeBitmap.test p).card
  isolated : ∀ p q, (fs.inodes p).inUse → (fs.inodes q).inUse → q ≠ p → ∀ data offset size,
    ∃ n fs', inodeWrite fs (some p) (some data) offset size = some (n, fs') ∧
      ∀ offset' size', inodeRead fs' (some q) offset' size' = inodeRead fs (some q) offset' size'

theorem InodeInv.blocksOwned {fs : InodeFs ι} {extra : List ℕ} (h : InodeInv fs extra) :
    BlocksOwned fs extra := by
  refine ⟨fun p k hp hk => ?_, fun p k q l hp hq hk heq => h.owned.block_inj hp hq hk heq,
    fun p k hp hk => (h.owned.block hp hk).2.2, fun p => ?_, ?_,
    fun p q hp hq hne => h.write_isolated hp hq hne⟩
  · obtain ⟨hlt, htest, -⟩ := h.owned.block hp hk
    exact ⟨Nat.pos_of_ne_zero hk, Nat.le_sub_one_of_lt hlt, htest⟩
  · rw [h.bitmap]
  · rw [h.count]
    simp only [h.bitmap, Bool.not_eq_true']

theorem InodeInv.blockStep {s s' : InodeFs ι × List ℕ} (h : InodeInv s.1 s.2) {c : BlockCall}
    (hr : c.step idx s = some s') : InodeInv s'.1 s'.2 := by
  cases c with
  | inode c =>
    obtain ⟨fs, hfs, rfl⟩ := Option.map_eq_some_iff.1 hr
    exact h.step hfs
  | blockAlloc =>
    rw [BlockCall.step] at hr
    rcases blockAlloc_cases s.1 with ⟨halloc, -⟩ | ⟨b, hb, -, hfree, halloc⟩
    · rw [halloc] at hr
      exact Option.some.inj hr ▸ h
    · rw [halloc] at hr
      dsimp only at hr
      rw [if_neg hb, Option.some_inj] at hr
      subst hr
      exact ⟨h.owned.takeExtra hfree, h.bitmap, h.num, h.count⟩

/-- In every run of operations on i-nodes in use and of calls of `block_alloc` by others, whatever
    the index does, blocks are owned once. The run goes on as long as the calls to the index
    return. -/
theorem blocks_owned (idx : Index ι) (index : ι) (fs₀ : InodeFs ι) (calls : List BlockCall) :
    (∀ s, run (fun s c => BlockCall.step idx s c) (inodeFsInit index fs₀, []) calls = some s →
      BlocksOwned s.1 s.2) ∧
    ((∀ i k p, idx.insert i k p ≠ none) → (∀ i k, idx.delete i k ≠ none) →
      run (fun s c => BlockCall.step idx s c) (inodeFsInit index fs₀, []) calls ≠ none) := by
  have hinit : InodeInv (inodeFsInit index fs₀, ([] : List ℕ)).1 [] := inodeInv_init index fs₀
  constructor
  · intro s hs
    have hstep : ∀ (s : InodeFs ι × List ℕ) c s', InodeInv s.1 s.2 →
        BlockCall.step idx s c = some s' → InodeInv s'.1 s'.2 := fun s c s' h hr => h.blockStep hr
    exact (run_induction hstep hinit hs).blocksOwned
  · intro hins hdel
    have hstep : ∀ (s : InodeFs ι × List ℕ) c, InodeInv s.1 s.2 →
        ∃ s', BlockCall.step idx s c = some s' ∧ InodeInv s'.1 s'.2 := fun s c h => by
      have hne : BlockCall.step idx s c ≠ none := by
        cases c with
        | inode c =>
          rw [BlockCall.step, ne_eq, Option.map_eq_none_iff]
          exact h.step_ne_none hins hdel c
        | blockAlloc => exact Option.some_ne_none _
      obtain ⟨s', hs'⟩ := Option.ne_none_iff_exists'.1 hne
      exact ⟨s', hs', h.blockStep hs'⟩
    obtain ⟨s', hs', -⟩ := run_of_invariant hstep hinit calls
    rw [hs']
    exact Option.some_ne_none _

/-! ## Leaks -/

/-- Every block that is marked is one of an i-node in use, which counts its blocks. -/
structure NoLeak (fs : InodeFs ι) : Prop where
  owner : ∀ b < maxBlocks, fs.blockBitmap.test b → b ≠ 0 ∧
    ∃ p k, (fs.inodes p).inUse ∧ (fs.inodes p).directBlocks k = b
  count : ∀ p, (fs.inodes p).inUse → (fs.inodes p).blockCount = (fs.inodes p).blocks

/-- The operations that go by the number of blocks find the blocks where they expect them: an
    i-node to be freed has none from `block_count` on, and one that gets shorter keeps as many as
    it needs. -/
def InodeCall.Ok (fs : InodeFs ι) : InodeCall → Prop
  | free p => (fs.inodes p).inUse →
    ∀ k : Fin directBlockCount, (fs.inodes p).directBlocks k ≠ 0 → k < (fs.inodes p).blockCount
  | truncate p newSize => (fs.inodes p).inUse → newSize < (fs.inodes p).size →
    (Finset.univ.filter fun k => (fs.inodes p).directBlocks k ≠ 0 ∧
      (k.val < blocksFor newSize ∨ (fs.inodes p).blockCount ≤ k)).card = blocksFor newSize
  | _ => True

section Leaks

variable {fs fs' : InodeFs ι} {p : InodePtr}

theorem noLeak_init (index : ι) (fs : InodeFs ι) : NoLeak (inodeFsInit index fs) := by
  refine ⟨fun b hb htest => ?_, fun p hp => absurd hp Bool.false_ne_true⟩
  have hlt : b / 32 < maxBlocks / 32 := Nat.div_lt_div_of_lt_of_dvd (by decide) hb
  rw [Bitmap.test_eq] at htest
  have hword : (inodeFsInit index fs).blockBitmap (b / 32) = 0 := if_pos hlt
  rw [hword] at htest
  simp at htest

theorem NoLeak.alloc (h : NoLeak fs) (hinv : InodeInv fs []) {type : ℕ}
    {r : Option InodePtr × InodeFs ι} (hr : inodeAlloc idx fs type = some r) : NoLeak r.2 := by
  rcases inodeAlloc_cases hr with rfl | ⟨p, -, ha⟩
  · exact h
  · have hp : (fs.inodes p).inUse = false := by rw [← hinv.bitmap, ha.free]
    refine ⟨fun b hb htest => ?_, fun q hq => ?_⟩
    · rw [ha.blockBitmap] at htest
      obtain ⟨h0, q, k, hq, hk⟩ := h.owner b hb htest
      have hne : q ≠ p := fun heq => by
        rw [heq, hp] at hq
        cases hq
      exact ⟨h0, q, k, by rw [ha.others q hne]; exact hq, by rw [ha.others q hne]; exact hk⟩
    · by_cases hqp : q = p
      · rw [hqp, ha.inode]
        simp [newInode, Inode.blocks]
      · rw [ha.others q hqp] at hq ⊢
        exact h.count q hq

theorem NoLeak.write (h : NoLeak fs) (hp : (fs.inodes p).inUse) (hg : Grows p fs fs') :
    NoLeak fs' := by
  have hp' : (fs'.inodes p).inUse := hg.inUse ▸ hp
  refine ⟨fun b hb htest => ?_, fun q hq => ?_⟩
  · rcases hg.new b htest with hold | ⟨h0, k, hk⟩
    · obtain ⟨h0, q, k, hq, hk⟩ := h.owner b hb hold
      refine ⟨h0, q, k, ?_⟩
      by_cases hqp : q = p
      · subst hqp
        exact ⟨hp', (hg.kept k (hk ▸ h0)).trans hk⟩
      · rw [hg.others q hqp]
        exact ⟨hq, hk⟩
    · exact ⟨h0, p, k, hp', hk⟩
  · by_cases hqp : q = p
    · subst hqp
      exact hg.count (h.count q hp)
    · rw [hg.others q hqp] at hq ⊢
      exact h.count q hq

/-- Freeing an i-node loses no block iff it has none from `block_count` on. -/
theorem NoLeak.free_iff (h : NoLeak fs) (hinv : InodeInv fs []) (hp : (fs.inodes p).inUse)
    (hr : inodeFree idx fs (some p) = some fs') : NoLeak fs' ↔
      ∀ k : Fin directBlockCount, (fs.inodes p).directBlocks k ≠ 0 →
        k < (fs.inodes p).blockCount := by
  have hf := inodeFree_spec hp (hinv.valid hp) hr
  have hused : ∀ q, (fs'.inodes q).inUse → q ≠ p := fun q hq heq => by
    rw [heq, hf.inode] at hq
    cases hq
  constructor
  · intro hleak k hk
    by_contra hge
    -- The block is not freed, as it is only the one of `k`. It has no owner any more.
    have hmark : fs'.blockBitmap.test ((fs.inodes p).directBlocks k) = true := by
      refine (hf.test _).2 ⟨(hinv.owned.block hp hk).2.1, ?_⟩
      rintro ⟨-, l, hl, heq⟩
      obtain ⟨-, rfl⟩ := hinv.owned.block_inj hp hp hk heq.symm
      exact hge hl
    obtain ⟨-, q, l, hq, hl⟩ := hleak.owner _ (hinv.valid hp k) hmark
    have hqp := hused q hq
    rw [hf.others q hqp] at hq hl
    exact hqp (hinv.owned.block_inj hp hq hk hl.symm).1.symm
  · intro hall
    refine ⟨fun b hb hmark => ?_, fun q hq => ?_⟩
    · obtain ⟨hold, hnot⟩ := (hf.test b).1 hmark
      obtain ⟨h0, q, k, hq, hk⟩ := h.owner b hb hold
      have hqp : q ≠ p := fun heq => hnot ⟨h0, k, hall k (by rw [← heq, hk]; exact h0),
        by rw [← heq, hk]⟩
      exact ⟨h0, q, k, by rw [hf.others q hqp]; exact hq, by rw [hf.others q hqp]; exact hk⟩
    · have hqp := hused q hq
      rw [hf.others q hqp] at hq ⊢
      exact h.count q hq

/-- Shortening an i-node keeps the count iff it keeps as many blocks as it needs. -/
theorem NoLeak.shorten_iff (h : NoLeak fs) (hp : (fs.inodes p).inUse) {newSize : ℕ}
    (hs : ShortensInode p newSize fs fs') : NoLeak fs' ↔
      (Finset.univ.filter fun k => (fs.inodes p).directBlocks k ≠ 0 ∧
        (k.val < blocksFor newSize ∨ (fs.inodes p).blockCount ≤ k)).card = blocksFor newSize := by
  -- The blocks that `p` keeps.
  have hblocks : (fs'.inodes p).blocks = (Finset.univ.filter fun k =>
      (fs.inodes p).directBlocks k ≠ 0 ∧
        (k.val < blocksFor newSize ∨ (fs.inodes p).blockCount ≤ k)).card := by
    rw [hs.inode, Inode.blocks]
    refine congrArg Finset.card (Finset.filter_congr fun k _ => ?_)
    rw [directBlocks_setBlocks]
    by_cases hk : GivenUp (fs.inodes p) newSize k
    · rw [if_pos hk]
      simp only [ne_eq, not_true_eq_false, false_iff, not_and]
      intro _
      omega
    · rw [if_neg hk, and_iff_left]
      by_contra hnot
      exact hk (by omega)
  constructor
  · intro hleak
    rw [← hblocks, ← hleak.count p (by rw [hs.inode]; exact hp), hs.inode]
  · intro hcard
    refine ⟨fun b hb hmark => ?_, fun q hq => ?_⟩
    · obtain ⟨hold, hnot⟩ := (hs.test b).1 hmark
      obtain ⟨h0, q, k, hq, hk⟩ := h.owner b hb hold
      refine ⟨h0, q, k, ?_⟩
      by_cases hqp : q = p
      · subst hqp
        rw [hs.inode]
        exact ⟨hp, (if_neg fun hgiven => hnot ⟨h0, k, hgiven, hk⟩).trans hk⟩
      · rw [hs.others q hqp]
        exact ⟨hq, hk⟩
    · by_cases hqp : q = p
      · rw [hqp, hblocks, hcard, hs.inode]
      · rw [hs.others q hqp] at hq ⊢
        exact h.count q hq

/-- An operation loses no block iff it finds the blocks where it expects them. -/
theorem NoLeak.step_iff (h : NoLeak fs) (hinv : InodeInv fs []) {c : InodeCall}
    (hr : c.step idx fs = some fs') : NoLeak fs' ↔ c.Ok fs := by
  cases c with
  | alloc type =>
    obtain ⟨r, hr', rfl⟩ := Option.map_eq_some_iff.1 hr
    exact iff_of_true (h.alloc hinv hr') trivial
  | free p =>
    rw [InodeCall.step] at hr
    split_ifs at hr with hp
    · rw [h.free_iff hinv hp hr, InodeCall.Ok]
      exact ⟨fun hall _ => hall, fun hall => hall hp⟩
    · exact iff_of_true (Option.some.inj hr ▸ h) fun hp' => absurd hp' hp
  | write p data offset size =>
    rw [InodeCall.step] at hr
    split_ifs at hr with hp
    · obtain ⟨n, fs₁, hwrite, hgrows, -⟩ := inodeWrite_spec hinv.owned hp data offset size
      rw [hwrite, Option.map_some, Option.some_inj] at hr
      exact iff_of_true (hr ▸ h.write hp hgrows) trivial
    · exact iff_of_true (Option.some.inj hr ▸ h) trivial
  | truncate p newSize =>
    rw [InodeCall.step] at hr
    split_ifs at hr with hp
    · obtain rfl := Option.some.inj hr
      rcases inodeTruncate_cases (hinv.valid hp) newSize with ⟨hle, heq⟩ | ⟨hlt, hs⟩
      · rw [heq]
        exact iff_of_true h fun _ hlt => absurd hlt (not_lt.2 hle)
      · rw [h.shorten_iff hp hs, InodeCall.Ok]
        exact ⟨fun hcard _ _ => hcard, fun hcard => hcard hp hlt⟩
    · exact iff_of_true (Option.some.inj hr ▸ h) fun hp' => absurd hp' hp

end Leaks

/-- A run of operations on i-nodes, from `inode_fs_init`. -/
def inodeRun (idx : Index ι) (index : ι) (fs₀ : InodeFs ι) (calls : List InodeCall) :
    Option (InodeFs ι) :=
  run (fun fs c => InodeCall.step idx fs c) (inodeFsInit index fs₀) calls

theorem inodeInv_run {index : ι} {fs₀ fs : InodeFs ι} {calls : List InodeCall}
    (h : inodeRun idx index fs₀ calls = some fs) : InodeInv fs [] := by
  have hstep : ∀ (fs : InodeFs ι) c fs', InodeInv fs [] → InodeCall.step idx fs c = some fs' →
      InodeInv fs' [] := fun fs c fs' hinv hr => hinv.step hr
  exact run_induction hstep (inodeInv_init index fs₀) h

/-- In a run of operations on i-nodes in use, no block is lost and the counts are right in all
    states iff all operations find the blocks where they expect them. -/
theorem no_leak_iff (idx : Index ι) (index : ι) (fs₀ : InodeFs ι) (calls : List InodeCall) :
    (∀ pre fs, pre <+: calls → inodeRun idx index fs₀ pre = some fs → NoLeak fs) ↔
      ∀ pre c fs fs', pre ++ [c] <+: calls → inodeRun idx index fs₀ pre = some fs →
        c.step idx fs = some fs' → c.Ok fs := by
  refine run_always_iff (noLeak_init index fs₀) (fun pre fs c fs' hrun hfs hstep => ?_) calls
  exact hfs.step_iff (inodeInv_run hrun) hstep

/-- An index that is a list. -/
def listIndex : Index (List (ℕ × InodePtr)) where
  insert l k p := some ((k, p) :: l)
  delete l k := some (l.filter fun e => e.1 ≠ k)

/-- A file system whose memory is zero. -/
def zeroFs : InodeFs (List (ℕ × InodePtr)) where
  index := []
  inodes _ := ⟨0, 0, 0, 0, 0, 0, fun _ => 0, 0, 0, false⟩
  blockStorage _ := 0
  blockBitmap _ := 0
  inodeBitmap _ := 0
  totalInodes := 0
  freeInodes := 0
  totalBlocks := 0
  freeBlocks := 0

/-- One byte is written at the offset 2560, in the block of the index 5, and the i-node is freed. -/
theorem free_leaks : ¬∀ pre fs,
    pre <+: [.alloc 1, .write 0 (fun _ => 65) 2560 1, .free 0] →
      inodeRun listIndex [] zeroFs pre = some fs → NoLeak fs := by
  intro hall
  have hmark : (inodeRun listIndex [] zeroFs
      [.alloc 1, .write 0 (fun _ => 65) 2560 1, .free 0]).map
        (fun fs => fs.blockBitmap.test 1 && decide (∀ p, (fs.inodes p).inUse = false)) =
      some true := by
    decide +kernel
  obtain ⟨fs, hrun, hfs⟩ := Option.map_eq_some_iff.1 hmark
  rw [Bool.and_eq_true, decide_eq_true_iff] at hfs
  obtain ⟨-, p, k, hp, -⟩ := (hall _ fs List.prefix_rfl hrun).owner 1 (by decide) hfs.1
  exact absurd ((hfs.2 p).symm.trans hp) Bool.false_ne_true

end Fru1tOs
