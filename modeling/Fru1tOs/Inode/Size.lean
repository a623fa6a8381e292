import Fru1tOs.Inode.Content

/-!
# The size of a file

How `inode_write` changes the size of a file, and whether `inode_read` stays within it. The first
sets the size also when it wrote nothing; the second cuts what it is asked for by a sum that may
wrap.

* `write_size_iff`: the size grows to the end of what was written, and a write of nothing changes
  nothing, iff it starts within the file or has something to write and room for it.
* `read_bounded_iff`: a read stays within the file unless its sum wraps and the blocks go on.
-/

namespace Fru1tOs

open Lib

variable {ι : Type} {fs fs' : InodeFs ι} {p : InodePtr}

/-! ## The size -/

/-- The file gets as long as what was written to it. If nothing was, it is as it was. -/
def WritesExactly (fs : InodeFs ι) (p : InodePtr) (data : ℕ → UInt8) (offset size : ℕ) : Prop :=
  ∃ n fs', inodeWrite fs (some p) (some data) offset size = some (n, fs') ∧
    (0 < n → (fs'.inodes p).size = max (fs.inodes p).size (offset + n)) ∧
    (n = 0 → fs'.inodes p = fs.inodes p ∧ fs'.blockBitmap = fs.blockBitmap)

section Size

variable {extra : List ℕ} {data : ℕ → UInt8} {offset size n : ℕ}

/-- Nothing is written iff there is nothing to write or no room for the first byte. -/
theorem Writes.pos_iff (h : Writes p data offset fs fs' n) (hle : n ≤ size)
    (hstop : n < size → ¬HasRoom fs' p (offset + n)) :
    0 < n ↔ 0 < size ∧ HasRoom fs p offset := by
  constructor
  · intro hn
    exact ⟨hn.trans_le hle, h.room hn⟩
  · rintro ⟨hsize, hroom⟩
    refine Nat.pos_of_ne_zero fun h0 => ?_
    rw [h0, h.nothing h0] at hstop
    exact hstop hsize hroom

/-- In every state that is reached, a write makes the file as long as what it wrote, or changes
    nothing, iff it starts within the file or there is something to write and room for its first
    byte. -/
theorem write_size_iff (idx : Index ι) (index : ι) (fs₀ : InodeFs ι) (calls : List InodeCall)
    (fs : InodeFs ι) (hrun : inodeRun idx index fs₀ calls = some fs) (p : InodePtr)
    (hp : (fs.inodes p).inUse) (data : ℕ → UInt8) (offset size : ℕ)
    (hoffset : offset < 2 ^ 32) : WritesExactly fs p data offset size ↔
      offset ≤ (fs.inodes p).size ∨ (0 < size ∧ HasRoom fs p offset) := by
  obtain ⟨n, fs₁, hwrite, hwrites, -, -, hle, hstop⟩ :=
    (inodeInv_run hrun).write_spec hp data hoffset size
  rw [← hwrites.pos_iff hle hstop]
  have hwrap := wrap32_of_lt (hwrites.add_lt hoffset)
  have hexact : WritesExactly fs p data offset size ↔
      (n = 0 → (growSize fs₁ p (offset + n)).inodes p = fs.inodes p ∧
        (growSize fs₁ p (offset + n)).blockBitmap = fs.blockBitmap) := by
    rw [hwrap] at hwrite
    constructor
    · rintro ⟨n', fs', hwrite', -, hnothing⟩
      rw [hwrite, Option.some_inj, Prod.mk.injEq] at hwrite'
      rwa [← hwrite'.1, ← hwrite'.2] at hnothing
    · refine fun hnothing => ⟨n, _, hwrite, fun _ => ?_, hnothing⟩
      rw [size_growSize, hwrites.size]
  rw [hexact]
  rcases Nat.eq_zero_or_pos n with rfl | hn
  · obtain rfl := hwrites.nothing rfl
    simp only [Nat.add_zero, true_implies, lt_irrefl, or_false]
    constructor
    · rintro ⟨hinode, -⟩
      rw [← hinode, size_growSize]
      exact le_max_right _ _
    · intro hoff
      rw [growSize, if_neg (not_lt.2 hoff)]
      exact ⟨rfl, rfl⟩
  · exact iff_of_true (fun h0 => absurd h0 hn.ne') (.inr hn)

/-- A write of three bytes at the end of the file. -/
theorem write_size_iff_append : ∃ fs,
    inodeRun listIndex [] zeroFs [.alloc 1, .write 0 (fun _ => 65) 0 10] = some fs ∧
    (fs.inodes 0).inUse ∧ WritesExactly fs 0 (fun _ => 66) 10 3 := by
  have huse : (inodeRun listIndex [] zeroFs [.alloc 1, .write 0 (fun _ => 65) 0 10]).map
      (fun fs => (fs.inodes 0).inUse && decide (10 ≤ (fs.inodes 0).size)) = some true := by
    decide +kernel
  obtain ⟨fs, hrun, hfs⟩ := Option.map_eq_some_iff.1 huse
  rw [Bool.and_eq_true, decide_eq_true_iff] at hfs
  exact ⟨fs, hrun, hfs.1, (write_size_iff listIndex [] zeroFs _ fs hrun 0 hfs.1 _ 10 3
    (by norm_num)).2 (.inl hfs.2)⟩

/-- A byte is written to an empty file past the last direct block. Nothing is written, and the
    size is 5120. -/
theorem write_nothing_grows : ∃ fs,
    inodeRun listIndex [] zeroFs [.alloc 1] = some fs ∧ (fs.inodes 0).inUse ∧
    ((inodeWrite fs (some 0) (some fun _ => 65) 5120 1).map fun r => (r.1, (r.2.inodes 0).size)) =
      some (0, 5120) ∧
    ¬WritesExactly fs 0 (fun _ => 65) 5120 1 := by
  have hcheck : (inodeRun listIndex [] zeroFs [.alloc 1]).map
      (fun fs => (fs.inodes 0).inUse && decide ((fs.inodes 0).size = 0) &&
        decide ((inodeWrite fs (some 0) (some fun _ => 65) 5120 1).map
          (fun r => (r.1, (r.2.inodes 0).size)) = some (0, 5120))) = some true := by
    decide +kernel
  obtain ⟨fs, hrun, hfs⟩ := Option.map_eq_some_iff.1 hcheck
  simp only [Bool.and_eq_true, decide_eq_true_iff] at hfs
  obtain ⟨⟨huse, hempty⟩, hwrite⟩ := hfs
  refine ⟨fs, hrun, huse, hwrite, ?_⟩
  rintro ⟨n, fs', hwrite', -, hnothing⟩
  rw [hwrite', Option.map_some, Option.some_inj, Prod.mk.injEq] at hwrite
  have hsize := congrArg Inode.size (hnothing hwrite.1).1
  exact absurd (hwrite.2.symm.trans (hsize.trans hempty)) (by decide)

end Size

/-! ## The end of the file -/

/-- A read gives no more bytes than are left in the file, and no more than it is asked for. -/
def ReadsWithin (fs : InodeFs ι) (p : InodePtr) (offset size : ℕ) : Prop :=
  ∃ buf, inodeRead fs (some p) offset size = some buf ∧
    buf.length ≤ (fs.inodes p).size - offset ∧ buf.length ≤ size

/-- A block is missing from that of the position `x` on up to that of the position `y`. -/
def HasGap (fs : InodeFs ι) (p : InodePtr) (x y : ℕ) : Prop :=
  ∃ k, x / fsBlockSize ≤ k ∧ k ≤ y / fsBlockSize ∧
    ∀ h : k < directBlockCount, (fs.inodes p).directBlocks ⟨k, h⟩ = 0

section End

variable {extra : List ℕ} {offset size : ℕ} {buf : List UInt8}

theorem hasGap_iff {x y : ℕ} (hxy : x ≤ y) :
    HasGap fs p x y ↔ ∃ z, x ≤ z ∧ z ≤ y ∧ fs.byteAt p z = none := by
  simp only [byteAt_eq_none_iff]
  constructor
  · rintro ⟨k, hx, hy, hk⟩
    -- The first position of the block that is not before `x`.
    have hdiv : max x (k * fsBlockSize) / fsBlockSize = k := by
      simp only [fsBlockSize] at hx ⊢
      omega
    refine ⟨max x (k * fsBlockSize), le_max_left _ _, ?_, ?_⟩
    · simp only [fsBlockSize] at hy ⊢
      omega
    · simpa only [hdiv] using hk
  · rintro ⟨z, hx, hy, hz⟩
    exact ⟨z / fsBlockSize, Nat.div_le_div_right hx, Nat.div_le_div_right hy, hz⟩

/-- How far a read goes: past `m` bytes iff it is for more and there is no gap. -/
theorem Reads.lt_length_iff (h : Reads fs p offset size buf) {m : ℕ} :
    m < buf.length ↔ m < size ∧ ¬HasGap fs p offset (offset + m) := by
  rw [hasGap_iff (Nat.le_add_right _ _)]
  constructor
  · intro hm
    refine ⟨hm.trans_le h.le, ?_⟩
    rintro ⟨z, hz, hz', hnone⟩
    obtain ⟨j, rfl⟩ := Nat.exists_eq_add_of_le hz
    rw [h.bytes j (by omega)] at hnone
    cases hnone
  · rintro ⟨hm, hgap⟩
    by_contra hle
    exact hgap ⟨offset + buf.length, by omega, by omega, h.stop (by omega)⟩

/-- Sizes are words of 32 bits. -/
def SizesFit (fs : InodeFs ι) : Prop := ∀ p, (fs.inodes p).inUse → (fs.inodes p).size < 2 ^ 32

/-- An offset counts as a word of 32 bits. -/
theorem inodeWrite_wrap32 (fs : InodeFs ι) (p : Option InodePtr) (data : Option (ℕ → UInt8))
    (offset size : ℕ) :
    inodeWrite fs p data (wrap32 offset) size = inodeWrite fs p data offset size := by
  simp only [inodeWrite, writePass, wrap32, Nat.mod_add_mod]

/-- A change to one i-node. -/
theorem SizesFit.other (h : SizesFit fs) (hothers : ∀ q, q ≠ p → fs'.inodes q = fs.inodes q)
    (hp : (fs'.inodes p).inUse → (fs'.inodes p).size < 2 ^ 32) : SizesFit fs' := by
  intro q hq
  by_cases hqp : q = p
  · subst hqp
    exact hp hq
  · rw [hothers q hqp] at hq ⊢
    exact h q hq

theorem SizesFit.step {idx : Index ι} (h : SizesFit fs) (hinv : InodeInv fs extra) {c : InodeCall}
    (hr : c.step idx fs = some fs') : SizesFit fs' := by
  cases c with
  | alloc type =>
    obtain ⟨r, hr', rfl⟩ := Option.map_eq_some_iff.1 hr
    rcases inodeAlloc_cases hr' with rfl | ⟨p, -, ha⟩
    · exact h
    · refine h.other ha.others fun _ => ?_
      rw [ha.inode]
      exact Nat.two_pow_pos 32
  | free p =>
    rw [InodeCall.step] at hr
    split_ifs at hr with hp
    · have hf := inodeFree_spec hp (hinv.valid hp) hr
      refine h.other hf.others fun _ => ?_
      rw [hf.inode]
      exact h p hp
    · exact Option.some.inj hr ▸ h
  | write p data offset size =>
    rw [InodeCall.step] at hr
    split_ifs at hr with hp
    · obtain ⟨n, fs₁, hwrite, hwrites, hgrows, -⟩ :=
        hinv.write_spec hp data (Nat.mod_lt offset (Nat.two_pow_pos 32)) size
      rw [← inodeWrite_wrap32, hwrite, Option.map_some, Option.some_inj] at hr
      subst hr
      refine h.other (hgrows.trans (grows_growSize ..)).others fun _ => ?_
      rw [size_growSize, hwrites.size]
      exact max_lt (h p hp) (Nat.mod_lt _ (Nat.two_pow_pos 32))
    · exact Option.some.inj hr ▸ h
  | truncate p newSize =>
    rw [InodeCall.step] at hr
    split_ifs at hr with hp
    · obtain rfl := Option.some.inj hr
      rcases inodeTruncate_cases (hinv.valid hp) newSize with ⟨-, heq⟩ | ⟨hlt, hs⟩
      · rw [heq]
        exact h
      · refine h.other hs.others fun _ => ?_
        rw [hs.inode]
        exact hlt.trans (h p hp)
    · exact Option.some.inj hr ▸ h

theorem sizesFit_run {idx : Index ι} {index : ι} {fs₀ : InodeFs ι} {calls : List InodeCall}
    (h : inodeRun idx index fs₀ calls = some fs) : SizesFit fs := by
  have hstep : ∀ (fs : InodeFs ι) c fs', InodeInv fs [] ∧ SizesFit fs →
      InodeCall.step idx fs c = some fs' → InodeInv fs' [] ∧ SizesFit fs' :=
    fun fs c fs' ⟨hinv, hfit⟩ hr => ⟨hinv.step hr, hfit.step hinv hr⟩
  have hinit : SizesFit (inodeFsInit index fs₀) := fun p hp => absurd hp Bool.false_ne_true
  exact (run_induction hstep ⟨inodeInv_init index fs₀, hinit⟩ h).2

/-- In every state that is reached, a read stays within the file iff the sum of its offset and its
    size does not wrap, or it is past the size of the file even so, or the bytes end before:
    `inode_read` starts at the end, or a block is missing from its start up to the end. -/
theorem read_bounded_iff (idx : Index ι) (index : ι) (fs₀ : InodeFs ι) (calls : List InodeCall)
    (fs : InodeFs ι) (hrun : inodeRun idx index fs₀ calls = some fs) (p : InodePtr)
    (hp : (fs.inodes p).inUse) (offset size : ℕ) (hoffset : offset < 2 ^ 32)
    (hsize : size < 2 ^ 32) : ReadsWithin fs p offset size ↔
      offset + size < 2 ^ 32 ∨ (fs.inodes p).size < wrap32 (offset + size) ∨
      (fs.inodes p).size ≤ offset ∨ HasGap fs p offset (fs.inodes p).size := by
  have hfit := sizesFit_run hrun p hp
  obtain ⟨buf, hread, hreads⟩ := inodeRead_spec ((inodeInv_run hrun).valid hp) hoffset size
  have hwithin : ReadsWithin fs p offset size ↔
      buf.length ≤ (fs.inodes p).size - offset ∧ buf.length ≤ size := by
    simp only [ReadsWithin, hread, Option.some_inj, exists_eq_left']
  have hle : wrap32 (offset + size) ≤ offset + size := Nat.mod_le _ _
  have hlen := hreads.le
  rw [hwithin]
  by_cases hend : (fs.inodes p).size ≤ offset
  · rw [readSize, if_pos hend] at hlen
    exact iff_of_true (by omega) (.inr (.inr (.inl hend)))
  by_cases hpast : (fs.inodes p).size < wrap32 (offset + size)
  · rw [readSize, if_neg hend, if_pos hpast] at hlen
    exact iff_of_true (by omega) (.inr (.inl hpast))
  by_cases hwrap : offset + size < 2 ^ 32
  · rw [wrap32_of_lt hwrap] at hpast
    rw [readSize, if_neg hend, wrap32_of_lt hwrap, if_neg hpast] at hlen
    exact iff_of_true (by omega) (.inl hwrap)
  -- The sum wraps, and the size that was asked for is not cut.
  rw [readSize, if_neg hend, if_neg hpast] at hreads
  have hgap := hreads.lt_length_iff (m := (fs.inodes p).size - offset)
  rw [Nat.add_sub_cancel' (not_le.1 hend).le] at hgap
  have hless : (fs.inodes p).size - offset < size := by omega
  rw [and_iff_left hreads.le, ← not_lt, hgap]
  simp only [hwrap, hpast, hend, hless, false_or, true_and, not_not]

/-- A read of all but the last byte of ten. -/
theorem read_bounded_iff_nine : ∃ fs,
    inodeRun listIndex [] zeroFs [.alloc 1, .write 0 (fun _ => 65) 0 10] = some fs ∧
    (fs.inodes 0).inUse ∧ ReadsWithin fs 0 0 9 := by
  have huse : (inodeRun listIndex [] zeroFs [.alloc 1, .write 0 (fun _ => 65) 0 10]).map
      (fun fs => (fs.inodes 0).inUse) = some true := by
    decide +kernel
  obtain ⟨fs, hrun, hp⟩ := Option.map_eq_some_iff.1 huse
  exact ⟨fs, hrun, hp, (read_bounded_iff listIndex [] zeroFs _ fs hrun 0 hp 0 9 (by norm_num)
    (by norm_num)).2 (.inl (by norm_num))⟩

/-- A file of ten bytes is read from the offset 1 on, with the largest size. The bytes up to the
    end of the block are given. -/
theorem read_past_end : ∃ fs,
    inodeRun listIndex [] zeroFs [.alloc 1, .write 0 (fun _ => 65) 0 10] = some fs ∧
    (fs.inodes 0).inUse ∧ (fs.inodes 0).size = 10 ∧
    (inodeRead fs (some 0) 1 0xffffffff).map List.length = some 511 ∧
    ¬ReadsWithin fs 0 1 0xffffffff := by
  have hcheck : (inodeRun listIndex [] zeroFs [.alloc 1, .write 0 (fun _ => 65) 0 10]).map
      (fun fs => (fs.inodes 0).inUse && decide ((fs.inodes 0).size = 10) &&
        decide ((inodeRead fs (some 0) 1 0xffffffff).map List.length = some 511)) =
      some true := by
    decide +kernel
  obtain ⟨fs, hrun, hfs⟩ := Option.map_eq_some_iff.1 hcheck
  simp only [Bool.and_eq_true, decide_eq_true_iff] at hfs
  obtain ⟨⟨huse, hten⟩, hread⟩ := hfs
  refine ⟨fs, hrun, huse, hten, hread, ?_⟩
  rintro ⟨buf, hbuf, hle, -⟩
  rw [hbuf, Option.map_some, Option.some_inj] at hread
  omega

end End

end Fru1tOs
