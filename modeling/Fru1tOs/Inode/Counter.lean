import Fru1tOs.Inode.Run

/-!
# The count of the free blocks

Runs of `block_alloc` and of `block_free`, of any number, after `inode_fs_init`. The bitmap is
right: `block_alloc` gives a block whenever there is one, and never one that is held.

The counter `free_blocks` is not. It starts at the number of all blocks, of which the block 0 is
never given, and grows when a block is freed that nobody holds (`free_blocks_wrong`).
-/

namespace Fru1tOs

open Lib

variable {ι : Type}

/-- A file system, the blocks that were given by `block_alloc` and not freed since, and how many
    calls of `block_free` were for others. -/
structure BlockRun (ι : Type) where
  fs : InodeFs ι
  held : List ℕ
  stray : ℕ

/-- The calls on blocks. -/
inductive BlockOp
  | alloc
  | free (blockNum : UInt32)

/-- The number is one of a block that `block_alloc` can give. -/
abbrev IsBlockNum (b : ℕ) : Prop := b ≠ 0 ∧ b < maxBlocks

namespace BlockRun

/-- The state after `inode_fs_init`. -/
def init (index : ι) (fs₀ : InodeFs ι) : BlockRun ι := ⟨inodeFsInit index fs₀, [], 0⟩

/-- The effect of a call. -/
def step (s : BlockRun ι) : BlockOp → BlockRun ι
  | .alloc =>
    let (b, fs) := blockAlloc s.fs
    ⟨fs, if b = 0 then s.held else b :: s.held, s.stray⟩
  | .free b =>
    ⟨blockFree s.fs b.toNat, s.held.filter (· ≠ b.toNat),
      if IsBlockNum b.toNat ∧ b.toNat ∉ s.held then s.stray + 1 else s.stray⟩

end BlockRun

/-- A run of calls on blocks, from `inode_fs_init`. -/
def blockRun (index : ι) (fs₀ : InodeFs ι) (ops : List BlockOp) : BlockRun ι :=
  ops.foldl BlockRun.step (BlockRun.init index fs₀)

/-- The blocks that `block_alloc` can still give. -/
def freeSet (m : Bitmap) : Finset ℕ :=
  (Finset.range maxBlocks).filter fun b => b ≠ 0 ∧ m.test b = false

section FreeSet

variable {m : Bitmap} {b : ℕ}

theorem mem_freeSet : b ∈ freeSet m ↔ IsBlockNum b ∧ m.test b = false := by
  rw [freeSet, Finset.mem_filter, Finset.mem_range]
  tauto

theorem freeSet_set : freeSet (m.set b) = (freeSet m).erase b := by
  ext c
  rw [Finset.mem_erase, mem_freeSet, mem_freeSet, Bitmap.test_set]
  by_cases hc : c = b
  · simp [hc]
  · simp [hc]

theorem freeSet_clear (hb : IsBlockNum b) : freeSet (m.clear b) = insert b (freeSet m) := by
  ext c
  rw [Finset.mem_insert, mem_freeSet, mem_freeSet, Bitmap.test_clear]
  by_cases hc : c = b
  · subst hc
    exact iff_of_true ⟨hb, by simp⟩ (.inl rfl)
  · simp [hc]

/-- At first all blocks are free but the block 0. -/
theorem freeSet_init (index : ι) (fs₀ : InodeFs ι) :
    freeSet (inodeFsInit index fs₀).blockBitmap = (Finset.range maxBlocks).erase 0 := by
  ext b
  rw [Finset.mem_erase, Finset.mem_range, mem_freeSet]
  refine and_iff_left_of_imp fun hb => ?_
  have hlt : b / 32 < maxBlocks / 32 := Nat.div_lt_div_of_lt_of_dvd (by decide) hb.2
  have hword : (inodeFsInit index fs₀).blockBitmap (b / 32) = 0 := if_pos hlt
  rw [Bitmap.test_eq, hword]
  simp

end FreeSet

/-- The invariant of the runs: the bitmap knows who holds what, and the counter is ahead by one and
    by the stray calls of `block_free`. -/
structure CountInv (s : BlockRun ι) : Prop where
  held : ∀ b, b ∈ s.held ↔ IsBlockNum b ∧ s.fs.blockBitmap.test b = true
  count : s.fs.freeBlocks = (freeSet s.fs.blockBitmap).card + 1 + s.stray

section Invariant

variable {s : BlockRun ι}

theorem countInv_init (index : ι) (fs₀ : InodeFs ι) : CountInv (BlockRun.init index fs₀) := by
  have hset : freeSet (BlockRun.init index fs₀).fs.blockBitmap = (Finset.range maxBlocks).erase 0 :=
    freeSet_init index fs₀
  refine ⟨fun b => iff_of_false List.not_mem_nil fun hb => ?_, ?_⟩
  · have hfree : b ∈ freeSet (BlockRun.init index fs₀).fs.blockBitmap := by
      rw [hset, Finset.mem_erase, Finset.mem_range]
      exact hb.1
    exact absurd ((mem_freeSet.1 hfree).2.symm.trans hb.2) Bool.false_ne_true
  · rw [hset, Finset.card_erase_of_mem (Finset.mem_range.2 (by decide)), Finset.card_range]
    rfl

theorem CountInv.alloc (h : CountInv s) : CountInv (s.step .alloc) := by
  rw [BlockRun.step]
  rcases blockAlloc_cases s.fs with ⟨halloc, -⟩ | ⟨b, hb, hlt, hfree, halloc⟩
  · rw [halloc]
    exact h
  · rw [halloc]
    dsimp only
    rw [if_neg hb]
    refine ⟨fun c => ?_, ?_⟩
    · rw [List.mem_cons, h.held, blockBitmap_allocBlock, Bitmap.test_set]
      by_cases hc : c = b
      · subst hc
        exact iff_of_true (.inl rfl) ⟨⟨hb, hlt⟩, by simp⟩
      · simp [hc]
    · have hmem : b ∈ freeSet s.fs.blockBitmap := mem_freeSet.2 ⟨⟨hb, hlt⟩, hfree⟩
      have hpos := Finset.card_pos.2 ⟨b, hmem⟩
      rw [blockBitmap_allocBlock, freeSet_set, Finset.card_erase_of_mem hmem]
      show s.fs.freeBlocks - 1 = ((freeSet s.fs.blockBitmap).card - 1 : ℕ) + 1 + (s.stray : ℤ)
      rw [h.count]
      omega

theorem CountInv.free (h : CountInv s) (b : UInt32) : CountInv (s.step (.free b)) := by
  rw [BlockRun.step, blockFree]
  by_cases hb : IsBlockNum b.toNat
  swap
  · -- The number is of no block.
    have hbad : b.toNat = 0 ∨ b.toNat ≥ maxBlocks := by omega
    rw [if_pos hbad, if_neg fun hstray => hb hstray.1]
    refine ⟨fun c => ?_, h.count⟩
    rw [List.mem_filter, h.held]
    refine and_iff_left_of_imp fun hc => decide_eq_true ?_
    rintro rfl
    exact hb hc.1
  have hgood : ¬(b.toNat = 0 ∨ b.toNat ≥ maxBlocks) := by omega
  rw [if_neg hgood]
  refine ⟨fun c => ?_, ?_⟩
  · rw [List.mem_filter, h.held, decide_eq_true_iff, Bitmap.test_clear, Bool.and_eq_true,
      decide_eq_true_iff, and_assoc]
  · show s.fs.freeBlocks + 1 = _
    rw [freeSet_clear hb, h.count]
    by_cases hheld : b.toNat ∈ s.held
    · have hnot : b.toNat ∉ freeSet s.fs.blockBitmap := fun hmem => by
        have := (mem_freeSet.1 hmem).2
        rw [((h.held _).1 hheld).2] at this
        cases this
      rw [if_neg fun hstray => hstray.2 hheld, Finset.card_insert_of_notMem hnot]
      push_cast
      ring
    · have hmem : b.toNat ∈ freeSet s.fs.blockBitmap := mem_freeSet.2 ⟨hb, by
        by_contra htest
        exact hheld ((h.held _).2 ⟨hb, by simpa using htest⟩)⟩
      rw [if_pos ⟨hb, hheld⟩, Finset.insert_eq_of_mem hmem]
      push_cast
      ring

theorem countInv_run (index : ι) (fs₀ : InodeFs ι) (ops : List BlockOp) :
    CountInv (blockRun index fs₀ ops) := by
  induction ops using List.reverseRecOn with
  | nil => exact countInv_init index fs₀
  | append_singleton ops op ih =>
    rw [blockRun, List.foldl_append, List.foldl_cons, List.foldl_nil]
    cases op with
    | alloc => exact ih.alloc
    | free b => exact ih.free b

/-- `block_alloc` gives a block exactly if there is one, and it is not held. -/
theorem CountInv.blockAlloc (h : CountInv s) :
    ((Fru1tOs.blockAlloc s.fs).1 ≠ 0 ↔ 0 < (freeSet s.fs.blockBitmap).card) ∧
      (Fru1tOs.blockAlloc s.fs).1 ∉ s.held := by
  rcases blockAlloc_cases s.fs with ⟨halloc, hfull⟩ | ⟨b, hb, hlt, hfree, halloc⟩
  · rw [halloc]
    refine ⟨iff_of_false (fun h0 => h0 rfl) fun hpos => ?_, fun hmem => ((h.held 0).1 hmem).1.1 rfl⟩
    obtain ⟨b, hb⟩ := Finset.card_pos.1 hpos
    obtain ⟨⟨h0, hlt⟩, hfree⟩ := mem_freeSet.1 hb
    rw [hfull b h0 hlt] at hfree
    cases hfree
  · rw [halloc]
    have hmem : b ∈ freeSet s.fs.blockBitmap := mem_freeSet.2 ⟨⟨hb, hlt⟩, hfree⟩
    refine ⟨iff_of_true hb (Finset.card_pos.2 ⟨b, hmem⟩), fun hheld => ?_⟩
    rw [((h.held b).1 hheld).2] at hfree
    cases hfree

end Invariant

/-- The counter is the number of blocks that `block_alloc` can still give. A block is given exactly
    if the counter is not zero, and it is not one that is held. -/
structure CountRight (s : BlockRun ι) : Prop where
  count : s.fs.freeBlocks = (freeSet s.fs.blockBitmap).card
  gives : (blockAlloc s.fs).1 ≠ 0 ↔ s.fs.freeBlocks > 0
  fresh : (blockAlloc s.fs).1 ∉ s.held

/-- In no state of any run is the counter right: it is ahead by one, for the block 0, and by the
    calls of `block_free` for blocks that nobody holds. Whether `block_alloc` gives a block does
    not follow from it when there is none left. A block that is held is never given. -/
theorem free_blocks_wrong (index : ι) (fs₀ : InodeFs ι) (ops : List BlockOp) : ∃ s,
    blockRun index fs₀ ops = s ∧ ¬CountRight s ∧
      s.fs.freeBlocks = (freeSet s.fs.blockBitmap).card + 1 + s.stray ∧
      (((blockAlloc s.fs).1 ≠ 0 ↔ s.fs.freeBlocks > 0) ↔ (freeSet s.fs.blockBitmap).Nonempty) ∧
      (blockAlloc s.fs).1 ∉ s.held := by
  have h := countInv_run index fs₀ ops
  obtain ⟨hgives, hfresh⟩ := h.blockAlloc
  have hcount := h.count
  refine ⟨_, rfl, fun hright => ?_, hcount, ?_, hfresh⟩
  · have := hright.count
    omega
  · have hpos : (blockRun index fs₀ ops).fs.freeBlocks > 0 := by omega
    rw [hgives, ← Finset.card_pos]
    exact iff_true_right hpos

/-- Just after `inode_fs_init` the counter is 1024, and there are 1023 blocks to give. -/
theorem free_blocks_wrong_init : (blockRun [] zeroFs []).fs.freeBlocks = 1024 ∧
    (freeSet (blockRun [] zeroFs []).fs.blockBitmap).card = 1023 ∧
    ¬CountRight (blockRun [] zeroFs []) := by
  have hcount := (countInv_run [] zeroFs []).count
  have hstart : (blockRun [] zeroFs []).fs.freeBlocks = 1024 := rfl
  have hstray : (blockRun [] zeroFs []).stray = 0 := rfl
  have hcard : (freeSet (blockRun [] zeroFs []).fs.blockBitmap).card = 1023 := by omega
  refine ⟨hstart, hcard, fun hright => ?_⟩
  have := hright.count
  omega

end Fru1tOs
