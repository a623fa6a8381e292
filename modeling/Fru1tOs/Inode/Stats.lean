import Fru1tOs.Inode.Size

/-!
# The statistics of the file system

`fs_print_stats` prints the counters of the file system, and what follows from them. The
counters are changed with the bitmaps, so what is printed as used is what is marked, in every
state that is reached by operations on i-nodes (`fs_stats_right`). A block that was lost stays
marked. So more blocks are printed as used than the files have, as soon as one is lost.

* `CountsBlocks`: the invariant, which every operation keeps.
* `usedBlocks_eq_iff`: what is printed is the number of the blocks of files iff no block is lost.
-/

namespace Fru1tOs

open Lib

variable {ι : Type}

/-! ## What is printed -/

/-- The value of an `int`. -/
def toInt32 (x : ℤ) : ℤ := x.bmod (2 ^ 32)

/-- The numbers that `fs_print_stats` prints, in their order. -/
structure FsStats where
  totalInodes : ℤ
  freeInodes : ℤ
  usedInodes : ℤ
  totalBlocks : ℤ
  freeBlocks : ℤ
  usedBlocks : ℤ
  blockSize : ℤ
  totalStorage : ℤ
  usedStorage : ℤ
  deriving DecidableEq, Repr

/-- `fs_print_stats`. -/
def fsPrintStats (fs : InodeFs ι) : FsStats where
  totalInodes := fs.totalInodes
  freeInodes := fs.freeInodes
  usedInodes := toInt32 (fs.totalInodes - fs.freeInodes)
  totalBlocks := fs.totalBlocks
  freeBlocks := fs.freeBlocks
  usedBlocks := toInt32 (fs.totalBlocks - fs.freeBlocks)
  blockSize := fsBlockSize
  totalStorage := (toInt32 (fs.totalBlocks * fsBlockSize)).tdiv 1024
  usedStorage := (toInt32 (toInt32 (fs.totalBlocks - fs.freeBlocks) * fsBlockSize)).tdiv 1024

theorem toInt32_of_le {x : ℤ} (h0 : 0 ≤ x) (h : x < 2 ^ 31) : toInt32 x = x := by
  rw [toInt32, Int.bmod_def]
  omega

/-! ## The blocks that are marked -/

/-- The blocks that are marked in the bitmap. -/
def markedBlocks (fs : InodeFs ι) : Finset ℕ :=
  (Finset.range maxBlocks).filter fun b => fs.blockBitmap.test b

/-- The counter of the free blocks goes with the bitmap. The totals are as at first. -/
structure CountsBlocks (fs : InodeFs ι) : Prop where
  free : fs.freeBlocks = maxBlocks - (markedBlocks fs).card
  blocks : fs.totalBlocks = maxBlocks
  inodes : fs.totalInodes = maxInodeCount

section CountsBlocks

variable {fs fs' : InodeFs ι} {b : ℕ}

theorem mem_markedBlocks : b ∈ markedBlocks fs ↔ b < maxBlocks ∧ fs.blockBitmap.test b = true := by
  rw [markedBlocks, Finset.mem_filter, Finset.mem_range]

theorem markedBlocks_congr (h : fs'.blockBitmap = fs.blockBitmap) :
    markedBlocks fs' = markedBlocks fs := by
  rw [markedBlocks, markedBlocks, h]

theorem card_markedBlocks_le (fs : InodeFs ι) : (markedBlocks fs).card ≤ maxBlocks :=
  (Finset.card_filter_le _ _).trans (Finset.card_range _).le

theorem markedBlocks_set (hlt : b < maxBlocks) (h : fs'.blockBitmap = fs.blockBitmap.set b) :
    markedBlocks fs' = insert b (markedBlocks fs) := by
  ext c
  rw [Finset.mem_insert, mem_markedBlocks, mem_markedBlocks, h, Bitmap.test_set]
  by_cases hc : c = b
  · simp [hc, hlt]
  · simp [hc]

theorem markedBlocks_clear (h : fs'.blockBitmap = fs.blockBitmap.clear b) :
    markedBlocks fs' = (markedBlocks fs).erase b := by
  ext c
  rw [Finset.mem_erase, mem_markedBlocks, mem_markedBlocks, h, Bitmap.test_clear]
  by_cases hc : c = b
  · simp [hc]
  · simp [hc]

theorem countsBlocks_init (index : ι) (fs : InodeFs ι) : CountsBlocks (inodeFsInit index fs) := by
  have hnone : markedBlocks (inodeFsInit index fs) = ∅ := by
    rw [Finset.eq_empty_iff_forall_notMem]
    intro b hb
    obtain ⟨hlt, htest⟩ := mem_markedBlocks.1 hb
    have hword : b / 32 < maxBlocks / 32 := Nat.div_lt_div_of_lt_of_dvd (by decide) hlt
    have hzero : (inodeFsInit index fs).blockBitmap (b / 32) = 0 := if_pos hword
    rw [Bitmap.test_eq, hzero] at htest
    simp at htest
  exact ⟨by rw [hnone]; rfl, rfl, rfl⟩

theorem CountsBlocks.congr (h : CountsBlocks fs) (hbitmap : fs'.blockBitmap = fs.blockBitmap)
    (hfree : fs'.freeBlocks = fs.freeBlocks) (hblocks : fs'.totalBlocks = fs.totalBlocks)
    (hinodes : fs'.totalInodes = fs.totalInodes) : CountsBlocks fs' where
  free := by rw [hfree, h.free, markedBlocks_congr hbitmap]
  blocks := hblocks.trans h.blocks
  inodes := hinodes.trans h.inodes

/-- A free block is taken. -/
theorem CountsBlocks.allocBlock (h : CountsBlocks fs) (hlt : b < maxBlocks)
    (hfree : fs.blockBitmap.test b = false) : CountsBlocks (allocBlock fs b) := by
  have hnot : b ∉ markedBlocks fs := fun hmem => by
    rw [(mem_markedBlocks.1 hmem).2] at hfree
    cases hfree
  refine ⟨?_, h.blocks, h.inodes⟩
  rw [markedBlocks_set hlt (blockBitmap_allocBlock fs b), Finset.card_insert_of_notMem hnot]
  show fs.freeBlocks - 1 = _
  rw [h.free]
  push_cast
  ring

/-- A marked block is freed. -/
theorem CountsBlocks.blockFree (h : CountsBlocks fs) (hb : b ≠ 0) (hlt : b < maxBlocks)
    (hmark : fs.blockBitmap.test b = true) : CountsBlocks (blockFree fs b) := by
  have hmem : b ∈ markedBlocks fs := mem_markedBlocks.2 ⟨hlt, hmark⟩
  have hpos := Finset.card_pos.2 ⟨b, hmem⟩
  have hbad : ¬(b = 0 ∨ b ≥ maxBlocks) := by omega
  rw [Fru1tOs.blockFree, if_neg hbad]
  refine ⟨?_, h.blocks, h.inodes⟩
  rw [markedBlocks_clear rfl, Finset.card_erase_of_mem hmem]
  show fs.freeBlocks + 1 = _
  rw [h.free]
  omega

end CountsBlocks

/-! ## The operations -/

section Operations

variable {idx : Index ι} {fs fs' : InodeFs ι} {p : InodePtr} {extra : List ℕ}

theorem CountsBlocks.alloc (h : CountsBlocks fs) {type : ℕ} {r : Option InodePtr × InodeFs ι}
    (hr : inodeAlloc idx fs type = some r) : CountsBlocks r.2 := by
  rw [inodeAlloc] at hr
  rcases hfind : (List.finRange maxInodeCount).find? fun i : InodePtr => !fs.inodeBitmap.test i
    with _ | p
  · rw [hfind] at hr
    rw [← Option.some.inj hr]
    exact h
  · rw [hfind] at hr
    obtain ⟨index, -, hr⟩ := Option.bind_eq_some_iff.1 hr
    rw [← Option.some.inj hr]
    exact h.congr rfl rfl rfl rfl

theorem CountsBlocks.blockFor (h : CountsBlocks fs) {k : Fin directBlockCount} {b : ℕ}
    (hfor : blockFor fs p k = some (b, fs')) : CountsBlocks fs' := by
  rcases blockFor_cases fs p k with ⟨hnone, -⟩ | ⟨-, hold⟩ | ⟨b', -, hlt, hfree, -, hnew⟩
  · rw [hnone] at hfor
    cases hfor
  · rw [hold, Option.some_inj, Prod.mk.injEq] at hfor
    exact hfor.2 ▸ h
  · rw [hnew, Option.some_inj, Prod.mk.injEq] at hfor
    rw [← hfor.2]
    exact (h.allocBlock hlt hfree).congr rfl rfl rfl rfl

theorem CountsBlocks.write (h : CountsBlocks fs) (hinv : InodeInv fs extra)
    (hp : (fs.inodes p).inUse = true) {data : ℕ → UInt8} {offset size n : ℕ}
    (hwrite : inodeWrite fs (some p) (some data) offset size = some (n, fs')) :
    CountsBlocks fs' := by
  rw [← inodeWrite_wrap32] at hwrite
  obtain ⟨r, hloop, -, -⟩ := writeLoop_spec hinv.owned hp data (wrap32 offset) size
  have hr : CountsBlocks r.1 :=
    (writeLoop_induction (Q := fun s => CountsBlocks s.1) hinv.owned hp
      (Nat.mod_lt _ (Nat.two_pow_pos 32)) hloop h
      fun fs₁ n k b fs₂ hQ _ _ _ _ _ hfor => (hQ.blockFor hfor).congr rfl rfl rfl rfl).1
  rw [inodeWrite_eq hloop, Option.some_inj, Prod.mk.injEq] at hwrite
  rw [← hwrite.2, growSize]
  split_ifs
  · exact hr.congr rfl rfl rfl rfl
  · exact hr

/-- The loop of `inode_free`, for blocks that are marked and different. -/
theorem CountsBlocks.foldl_blockFree {node : Inode}
    (hinj : ∀ k l, node.directBlocks k ≠ 0 → node.directBlocks k = node.directBlocks l → k = l)
    (hvalid : ∀ k, node.directBlocks k < maxBlocks) {l : List (Fin directBlockCount)}
    (hl : l.Nodup) (h : CountsBlocks fs)
    (hmark : ∀ k ∈ l, node.directBlocks k ≠ 0 → fs.blockBitmap.test (node.directBlocks k) = true) :
    CountsBlocks (l.foldl (fun fs (k : Fin directBlockCount) =>
      if k < node.blockCount ∧ node.directBlocks k > 0 then
        Fru1tOs.blockFree fs (node.directBlocks k)
      else fs) fs) := by
  induction l generalizing fs with
  | nil => exact h
  | cons k l ih =>
    obtain ⟨hk, hl⟩ := List.nodup_cons.1 hl
    obtain ⟨hmark₀, hmark⟩ := List.forall_mem_cons.1 hmark
    rw [List.foldl_cons]
    split_ifs with hcond
    · have h0 := Nat.pos_iff_ne_zero.1 hcond.2
      refine ih hl (h.blockFree h0 (hvalid k) (hmark₀ h0)) fun j hj hj0 => ?_
      -- The block of another place is still marked.
      refine ((freed_blockFree h0 (hvalid k)).test _).2 ⟨hmark j hj hj0, fun heq => hk ?_⟩
      exact hinj j k hj0 heq ▸ hj
    · exact ih hl h hmark

theorem CountsBlocks.freeInode (h : CountsBlocks fs) (hinv : InodeInv fs extra)
    (hp : (fs.inodes p).inUse = true) (hfree : inodeFree idx fs (some p) = some fs') :
    CountsBlocks fs' := by
  rw [inodeFree] at hfree
  simp only [hp, Bool.true_eq_false, if_false] at hfree
  have hfold := h.foldl_blockFree (fun k l hk heq => (hinv.owned.block_inj hp hp hk heq).2)
    (hinv.valid hp) (List.nodup_finRange _) fun k _ hk => (hinv.owned.block hp hk).2.1
  obtain ⟨index, -, hr⟩ := Option.bind_eq_some_iff.1 hfree
  rw [← Option.some.inj hr]
  exact hfold.congr rfl rfl rfl rfl

/-- A pass of `inode_truncate`. -/
theorem CountsBlocks.truncatePass (h : CountsBlocks fs) {k : Fin directBlockCount}
    (hlt : (fs.inodes p).directBlocks k < maxBlocks)
    (hmark : (fs.inodes p).directBlocks k ≠ 0 →
      fs.blockBitmap.test ((fs.inodes p).directBlocks k) = true) :
    CountsBlocks (truncatePass p fs k) := by
  rw [Fru1tOs.truncatePass]
  split_ifs with hpos
  · have h0 := Nat.pos_iff_ne_zero.1 hpos
    exact (h.blockFree h0 hlt (hmark h0)).congr rfl rfl rfl rfl
  · exact h

/-- The loop of `inode_truncate`. The place of a block that is freed is cleared, so no block is
    freed twice. -/
theorem CountsBlocks.foldl_truncatePass
    (hinj : ∀ k l, (fs.inodes p).directBlocks k ≠ 0 →
      (fs.inodes p).directBlocks k = (fs.inodes p).directBlocks l → k = l)
    (hvalid : ∀ k, (fs.inodes p).directBlocks k < maxBlocks)
    (hmark : ∀ k, (fs.inodes p).directBlocks k ≠ 0 →
      fs.blockBitmap.test ((fs.inodes p).directBlocks k) = true) (h : CountsBlocks fs)
    (l : List (Fin directBlockCount)) : CountsBlocks (l.foldl (Fru1tOs.truncatePass p) fs) := by
  induction l generalizing fs with
  | nil => exact h
  | cons k l ih =>
    have hpass := truncated_pass (hvalid k)
    have hblocks : ∀ j, ((Fru1tOs.truncatePass p fs k).inodes p).directBlocks j =
        if j = k then 0 else (fs.inodes p).directBlocks j := fun j => by
      rw [hpass.inode, directBlocks_setBlocks]
    rw [List.foldl_cons]
    refine ih (fun i j hi heq => ?_) (fun j => ?_) (fun j hj => ?_)
      (h.truncatePass (hvalid k) (hmark k))
    · rw [hblocks] at hi heq
      have hik : i ≠ k := fun hik => hi (if_pos hik)
      rw [if_neg hik] at hi heq
      rw [hblocks] at heq
      split_ifs at heq
      · exact absurd heq hi
      · exact hinj i j hi heq
    · rw [hblocks]
      split_ifs
      · decide
      · exact hvalid j
    · rw [hblocks] at hj ⊢
      split_ifs at hj ⊢ with hjk
      · exact absurd rfl hj
      · refine (hpass.test _).2 ⟨hmark j hj, ?_⟩
        rintro ⟨-, i, rfl, heq⟩
        exact hjk (hinj j i hj heq.symm)

theorem CountsBlocks.truncate (h : CountsBlocks fs) (hinv : InodeInv fs extra)
    (hp : (fs.inodes p).inUse = true) (newSize : ℕ) :
    CountsBlocks (inodeTruncate fs (some p) newSize).2 := by
  rw [inodeTruncate]
  dsimp only
  split_ifs
  · exact h
  · have hfold := h.foldl_truncatePass (p := p)
      (fun k l hk heq => (hinv.owned.block_inj hp hp hk heq).2) (hinv.valid hp)
      (fun k hk => (hinv.owned.block hp hk).2.1)
    exact (hfold _).congr rfl rfl rfl rfl

/-- Every operation on an i-node in use keeps the counter right. -/
theorem CountsBlocks.step (h : CountsBlocks fs) (hinv : InodeInv fs extra) {c : InodeCall}
    (hr : c.step idx fs = some fs') : CountsBlocks fs' := by
  cases c with
  | alloc type =>
    obtain ⟨r, hr', rfl⟩ := Option.map_eq_some_iff.1 hr
    exact h.alloc hr'
  | free p =>
    rw [InodeCall.step] at hr
    split_ifs at hr with hp
    · exact h.freeInode hinv hp hr
    · exact Option.some.inj hr ▸ h
  | write p data offset size =>
    rw [InodeCall.step] at hr
    split_ifs at hr with hp
    · obtain ⟨r, hwrite, rfl⟩ := Option.map_eq_some_iff.1 hr
      exact h.write hinv hp hwrite
    · exact Option.some.inj hr ▸ h
  | truncate p newSize =>
    rw [InodeCall.step] at hr
    split_ifs at hr with hp
    · exact Option.some.inj hr ▸ h.truncate hinv hp newSize
    · exact Option.some.inj hr ▸ h

end Operations

/-! ## Runs -/

/-- The blocks that the i-nodes in use have. -/
def heldBlocks (fs : InodeFs ι) : Finset ℕ :=
  (Finset.univ.filter fun p => (fs.inodes p).inUse).biUnion fun p =>
    (Finset.univ.filter fun k => (fs.inodes p).directBlocks k ≠ 0).image (fs.inodes p).directBlocks

/-- The numbers for so many i-nodes in use and so many marked blocks. -/
def statsOf (inodes blocks : ℕ) : FsStats where
  totalInodes := maxInodeCount
  freeInodes := maxInodeCount - inodes
  usedInodes := inodes
  totalBlocks := maxBlocks
  freeBlocks := maxBlocks - blocks
  usedBlocks := blocks
  blockSize := fsBlockSize
  totalStorage := 512
  usedStorage := (blocks / 2 : ℕ)

section Runs

variable {idx : Index ι} {index : ι} {fs₀ fs : InodeFs ι} {calls : List InodeCall}
  {extra : List ℕ}

theorem mem_heldBlocks {b : ℕ} : b ∈ heldBlocks fs ↔
    b ≠ 0 ∧ ∃ p k, (fs.inodes p).inUse ∧ (fs.inodes p).directBlocks k = b := by
  simp only [heldBlocks, Finset.mem_biUnion, Finset.mem_filter, Finset.mem_univ, true_and,
    Finset.mem_image]
  constructor
  · rintro ⟨p, hp, k, hk, rfl⟩
    exact ⟨hk, p, k, hp, rfl⟩
  · rintro ⟨h0, p, k, hp, rfl⟩
    exact ⟨p, hp, k, h0, rfl⟩

/-- No block is at two places, so the blocks of the i-nodes add up. -/
theorem InodeInv.card_heldBlocks (h : InodeInv fs extra) : (heldBlocks fs).card =
    ∑ p ∈ Finset.univ.filter fun p => (fs.inodes p).inUse, (fs.inodes p).blocks := by
  rw [heldBlocks, Finset.card_biUnion]
  · refine Finset.sum_congr rfl fun p hp => ?_
    have huse := (Finset.mem_filter.1 hp).2
    refine Finset.card_image_of_injOn fun k hk l _ heq => ?_
    exact (h.owned.block_inj huse huse (Finset.mem_filter.1 hk).2 heq).2
  · intro p hp q hq hne
    refine Finset.disjoint_left.2 fun b hb hb' => ?_
    obtain ⟨k, hk, rfl⟩ := Finset.mem_image.1 hb
    obtain ⟨l, -, heq⟩ := Finset.mem_image.1 hb'
    exact hne (h.owned.block_inj (Finset.mem_filter.1 hp).2 (Finset.mem_filter.1 hq).2
      (Finset.mem_filter.1 hk).2 heq.symm).1

theorem InodeInv.heldBlocks_subset (h : InodeInv fs extra) : heldBlocks fs ⊆ markedBlocks fs :=
  fun b hb => by
    obtain ⟨h0, p, k, hp, rfl⟩ := mem_heldBlocks.1 hb
    obtain ⟨hlt, hmark, -⟩ := h.owned.block hp h0
    exact mem_markedBlocks.2 ⟨hlt, hmark⟩

/-- As many blocks are marked as the i-nodes in use have iff each one that is marked is one of
    theirs. -/
theorem usedBlocks_eq_iff (h : InodeInv fs extra) : (markedBlocks fs).card =
      ∑ p ∈ Finset.univ.filter fun p => (fs.inodes p).inUse, (fs.inodes p).blocks ↔
    markedBlocks fs ⊆ heldBlocks fs := by
  rw [← h.card_heldBlocks]
  constructor
  · intro hcard
    exact (Finset.eq_of_subset_of_card_le h.heldBlocks_subset hcard.le).ge
  · intro hsub
    exact congrArg Finset.card (hsub.antisymm h.heldBlocks_subset)

theorem CountsBlocks.fsPrintStats (h : CountsBlocks fs) (hinv : InodeInv fs extra) :
    fsPrintStats fs = statsOf (Finset.univ.filter fun p => (fs.inodes p).inUse).card
      (markedBlocks fs).card := by
  have hle := card_markedBlocks_le fs
  have hinodes : (Finset.univ.filter fun p => (fs.inodes p).inUse).card +
      (Finset.univ.filter fun p => (fs.inodes p).inUse = false).card = maxInodeCount := by
    have := Finset.card_filter_add_card_filter_not (s := Finset.univ)
      (fun p => (fs.inodes p).inUse = true)
    simpa using this
  have hfree := h.free
  have hfreeInodes := hinv.count
  generalize (Finset.univ.filter fun p => (fs.inodes p).inUse).card = used at hinodes ⊢
  generalize (markedBlocks fs).card = marked at hle hfree ⊢
  simp only [maxBlocks, maxInodeCount] at hle hinodes
  have hfreeInodes' : fs.freeInodes = maxInodeCount - used := by
    simp only [maxInodeCount]
    omega
  rw [Fru1tOs.fsPrintStats, statsOf, h.blocks, h.inodes, hfree, hfreeInodes']
  simp only [maxInodeCount, maxBlocks, fsBlockSize, FsStats.mk.injEq, true_and]
  rw [toInt32_of_le (by omega) (by omega), toInt32_of_le (by omega) (by omega),
    toInt32_of_le (by omega) (by omega), toInt32_of_le (by omega) (by omega),
    Int.tdiv_eq_ediv_of_nonneg (by omega), Int.tdiv_eq_ediv_of_nonneg (by omega)]
  omega

/-- Any operations on i-nodes in use, of a new file system. What `fs_print_stats` prints then is
    the number of the i-nodes in use, and of the blocks that are marked, and what is left of the
    256 and of the 1024; no number is too large. The blocks that are printed as used are no less
    than the files have, and as many as they have iff no block is lost. -/
theorem fs_stats_right (idx : Index ι) (index : ι) (fs₀ : InodeFs ι) (calls : List InodeCall)
    (fs : InodeFs ι) (h : inodeRun idx index fs₀ calls = some fs) :
    fsPrintStats fs = statsOf (Finset.univ.filter fun p => (fs.inodes p).inUse).card
      (markedBlocks fs).card ∧
    ((∑ p ∈ Finset.univ.filter fun p => (fs.inodes p).inUse, (fs.inodes p).blocks : ℕ) : ℤ) ≤
      (fsPrintStats fs).usedBlocks ∧
    ((fsPrintStats fs).usedBlocks =
      (∑ p ∈ Finset.univ.filter fun p => (fs.inodes p).inUse, (fs.inodes p).blocks : ℕ) ↔
      ∀ b < maxBlocks, fs.blockBitmap.test b → b ≠ 0 ∧
        ∃ p k, (fs.inodes p).inUse ∧ (fs.inodes p).directBlocks k = b) := by
  have hstep : ∀ (fs : InodeFs ι) c fs', (InodeInv fs [] ∧ CountsBlocks fs) →
      InodeCall.step idx fs c = some fs' → InodeInv fs' [] ∧ CountsBlocks fs' :=
    fun fs c fs' hinv hr => ⟨hinv.1.step hr, hinv.2.step hinv.1 hr⟩
  obtain ⟨hinv, hcounts⟩ :=
    run_induction hstep ⟨inodeInv_init index fs₀, countsBlocks_init index fs₀⟩ h
  have hstats := hcounts.fsPrintStats hinv
  have hused : (fsPrintStats fs).usedBlocks = (markedBlocks fs).card := by
    rw [hstats]
    rfl
  refine ⟨hstats, ?_, ?_⟩
  · rw [hused, ← hinv.card_heldBlocks]
    exact_mod_cast Finset.card_le_card hinv.heldBlocks_subset
  · rw [hused, Nat.cast_inj, usedBlocks_eq_iff hinv]
    constructor
    · intro hsub b hb hmark
      exact mem_heldBlocks.1 (hsub (mem_markedBlocks.2 ⟨hb, hmark⟩))
    · intro hall b hb
      obtain ⟨hlt, hmark⟩ := mem_markedBlocks.1 hb
      exact mem_heldBlocks.2 (hall b hlt hmark)

/-- One byte is written at the offset 2560, and the i-node is freed. One block is printed as used,
    though there is no file: it is lost. -/
theorem fs_stats_right_leak : ∃ fs,
    inodeRun listIndex [] zeroFs [.alloc 1, .write 0 (fun _ => 65) 2560 1, .free 0] = some fs ∧
    fsPrintStats fs = statsOf 0 1 ∧
    ¬∀ b < maxBlocks, fs.blockBitmap.test b → b ≠ 0 ∧
      ∃ p k, (fs.inodes p).inUse ∧ (fs.inodes p).directBlocks k = b := by
  have hstats : (inodeRun listIndex [] zeroFs
      [.alloc 1, .write 0 (fun _ => 65) 2560 1, .free 0]).map (fun fs =>
        decide (fsPrintStats fs = statsOf 0 1 ∧ ∀ p, (fs.inodes p).inUse = false)) = some true := by
    decide +kernel
  obtain ⟨fs, hrun, hfs⟩ := Option.map_eq_some_iff.1 hstats
  obtain ⟨hfs, hunused⟩ := of_decide_eq_true hfs
  refine ⟨fs, hrun, hfs, fun hall => ?_⟩
  have hsum := (fs_stats_right _ _ _ _ fs hrun).2.2.2 hall
  rw [hfs, Finset.sum_eq_zero fun p hp => ?_] at hsum
  · cases hsum
  · have hp := (Finset.mem_filter.1 hp).2
    rw [hunused p] at hp
    cases hp

end Runs

end Fru1tOs
