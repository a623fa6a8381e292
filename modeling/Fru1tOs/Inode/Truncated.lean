import Fru1tOs.Inode.Holes

/-!
# Truncated data

`inode_truncate` gives up whole blocks: those from the new end on, as far as `block_count` goes. The
rest of the last block that is kept is left as it is, and so are blocks behind a hole. A later write
that makes the file longer brings their bytes back into it.

* `stays_gone_iff`: data cut off does not come back iff what is left in the blocks from the new end
  on is zero.
-/

namespace Fru1tOs

open Lib

variable {ι : Type} {idx : Index ι} {fs : InodeFs ι} {p : InodePtr} {m : ℕ}

/-- The arguments of a call of `inode_write`. -/
structure FileWrite where
  data : ℕ → UInt8
  offset : ℕ
  size : ℕ

/-- The file system after `inode_truncate` of `p`, nothing being written since, and calls of
    `inode_write` on it. -/
def truncatedRun (idx : Index ι) (fs : InodeFs ι) (p : InodePtr) (m : ℕ)
    (writes : List FileWrite) : Option (WrittenFs ι) :=
  run (fun s w => WrittenFs.step idx s (.write p w.data w.offset w.size))
    ⟨(inodeTruncate fs (some p) m).2, fun _ => ∅⟩ writes

/-- After the file was cut at `m`, and whatever is then written to it, a read gives zeros from `m`
    on, but where something was written. -/
def StaysGone (idx : Index ι) (fs : InodeFs ι) (p : InodePtr) (m : ℕ) : Prop :=
  ∀ writes, ∃ s, truncatedRun idx fs p m writes = some s ∧ ∀ offset < 2 ^ 32, ∀ size, ∃ buf,
    inodeRead s.fs (some p) offset size = some buf ∧
      ∀ j c, m ≤ offset + j → offset + j ∉ s.written p → buf[j]? = some c → c = 0

/-- The position `x` is in a block that a cut at `m` gives up. -/
def CutOff (fs : InodeFs ι) (p : InodePtr) (m x : ℕ) : Prop :=
  m < (fs.inodes p).size ∧ blocksFor m ≤ x / fsBlockSize ∧
    x / fsBlockSize < (fs.inodes p).blockCount

/-- There are only zeros from `m` on, but in the blocks that are given up. -/
def CutsClean (fs : InodeFs ι) (p : InodePtr) (m : ℕ) : Prop :=
  ∀ x c, m ≤ x → ¬CutOff fs p m x → fs.byteAt p x = some c → c = 0

/-- The bytes after a cut: those that were there, but in the blocks that are given up. -/
theorem byteAt_inodeTruncate (hvalid : ∀ k, (fs.inodes p).directBlocks k < maxBlocks) (x : ℕ)
    (c : UInt8) : (inodeTruncate fs (some p) m).2.byteAt p x = some c ↔
      ¬CutOff fs p m x ∧ fs.byteAt p x = some c := by
  rcases inodeTruncate_cases hvalid m with ⟨hle, heq⟩ | ⟨hlt, hshort⟩
  · rw [heq, CutOff]
    exact ⟨fun h => ⟨fun hcut => absurd hcut.1 (not_lt.2 hle), h⟩, And.right⟩
  · rw [hshort.byteAt (blockStorage_inodeTruncate fs p m), CutOff, and_iff_right hlt]
    split_ifs with hgiven
    · exact ⟨fun h => (nomatch h), fun h => absurd hgiven h.1⟩
    · exact ⟨fun h => ⟨hgiven, h⟩, And.right⟩

/-- A cut keeps the i-node in use. -/
theorem inUse_inodeTruncate (hvalid : ∀ k, (fs.inodes p).directBlocks k < maxBlocks)
    (hp : (fs.inodes p).inUse = true) :
    ((inodeTruncate fs (some p) m).2.inodes p).inUse = true := by
  rcases inodeTruncate_cases hvalid m with ⟨-, heq⟩ | ⟨-, hshort⟩
  · rwa [heq]
  · simp only [hshort.inode]
    exact hp

/-- The invariant of the writes after a cut: from `m` on there are only zeros, but where something
    was written. -/
structure CutInv (p : InodePtr) (m : ℕ) (s : WrittenFs ι) : Prop where
  inv : InodeInv s.fs []
  inUse : (s.fs.inodes p).inUse = true
  clean : ∀ x c, m ≤ x → x ∉ s.written p → s.fs.byteAt p x = some c → c = 0

/-- A write is made, and it takes new blocks that are zero. -/
theorem CutInv.write {s : WrittenFs ι} (h : CutInv p m s) (w : FileWrite) : ∃ s',
    WrittenFs.step idx s (.write p w.data w.offset w.size) = some s' ∧ CutInv p m s' := by
  obtain ⟨n, fs', hwrite, hw, hinv⟩ := h.inv.writesTo h.inUse w.data w.offset w.size
  rw [WrittenFs.step, if_pos h.inUse, hwrite, Option.map_some]
  refine ⟨_, rfl, hinv, hw.grows.inUse.trans h.inUse, fun x c hx hnot hc => ?_⟩
  simp only [Function.update_self, Set.mem_union, Set.mem_Ico, not_or] at hnot
  have hout : x < wrap32 w.offset ∨ wrap32 w.offset + n ≤ x := by omega
  rcases hold : s.fs.byteAt p x with _ | c'
  · by_cases htouch : BlockTouched (wrap32 w.offset) n x
    · exact Option.some.inj (hc.symm.trans (hw.zero x hold hout htouch))
    · exact absurd (hc.symm.trans (hw.gap x hold hout htouch)) (Option.some_ne_none c)
  · obtain rfl := Option.some.inj (hc.symm.trans (hw.kept x c' hold hout))
    exact h.clean x c hx hnot.1 hold

/-- A write of no bytes only makes the file longer. -/
theorem InodeInv.write_nothing {extra : List ℕ} {offset : ℕ} (h : InodeInv fs extra)
    (hp : (fs.inodes p).inUse = true) (hoffset : offset < 2 ^ 32) : ∃ fs',
      inodeWrite fs (some p) (some fun _ => 0) offset 0 = some (0, fs') ∧
      WritesTo p (fun _ => 0) offset 0 fs fs' 0 ∧ InodeInv fs' extra := by
  obtain ⟨n, fs', hwrite, hw, hinv⟩ := h.writesTo hp (fun _ => 0) offset 0
  rw [wrap32_of_lt hoffset] at hw
  obtain rfl : n = 0 := Nat.eq_zero_of_not_pos fun hn => Nat.lt_irrefl 0 (hw.pos.1 hn).1
  exact ⟨fs', hwrite, hw, hinv⟩

/-- A byte of the file is read. -/
theorem inodeRead_one {x : ℕ} {c : UInt8} (hvalid : ∀ k, (fs.inodes p).directBlocks k < maxBlocks)
    (hx : x + 1 < 2 ^ 32) (hsize : x < (fs.inodes p).size) (hc : fs.byteAt p x = some c) :
    inodeRead fs (some p) x 1 = some [c] := by
  obtain ⟨buf, hread, hreads⟩ := inodeRead_spec hvalid (Nat.lt_of_succ_lt hx) 1
  rw [readSize_of_le hx (.inr hsize)] at hreads
  rw [hread, Option.some_inj]
  match buf, hreads with
  | [], hreads =>
    exact absurd ((hreads.stop Nat.one_pos).symm.trans hc) (Option.some_ne_none c).symm
  | [c'], hreads =>
    obtain rfl : c' = c := Option.some.inj ((hreads.bytes 0 Nat.one_pos).symm.trans hc)
    rfl
  | _ :: _ :: _, hreads => exact absurd hreads.le (by simp)

/-- In a run, data cut off by `inode_truncate` does not come back, whatever is written to the file
    afterwards, iff there are zeros from the new end on in the blocks that are not given up. -/
theorem stays_gone_iff {index : ι} {fs₀ : InodeFs ι} {calls : List InodeCall}
    (hrun : inodeRun idx index fs₀ calls = some fs) (hp : (fs.inodes p).inUse = true) (m : ℕ) :
    StaysGone idx fs p m ↔ CutsClean fs p m := by
  have hinv := inodeInv_run hrun
  have hvalid := hinv.valid hp
  have hstep : (InodeCall.truncate p m).step idx fs = some (inodeTruncate fs (some p) m).2 := by
    rw [InodeCall.step, if_pos hp]
  have hinv' := hinv.step hstep
  have huse := inUse_inodeTruncate (m := m) hvalid hp
  constructor
  · intro hgone x c hx hcut hc
    have hc' := (byteAt_inodeTruncate hvalid x c).2 ⟨hcut, hc⟩
    have hx' : x + 1 < 2 ^ 32 := by
      have hidx := (byteAt_eq_some_iff.1 hc).1
      simp only [directBlockCount, fsBlockSize] at hidx
      omega
    -- A write of no bytes behind the position brings it back into the file.
    obtain ⟨s, hs, hread⟩ := hgone [⟨fun _ => 0, x + 1, 0⟩]
    obtain ⟨fs', hwrite, hw, hinv''⟩ := hinv'.write_nothing huse hx'
    rw [truncatedRun, run_cons, WrittenFs.step, if_pos huse, hwrite] at hs
    obtain rfl := Option.some.inj hs
    obtain ⟨buf, hbuf, hzero⟩ := hread x (by omega) 1
    have hsize : x < (fs'.inodes p).size := by
      rw [hw.fileSize]
      exact lt_max_of_lt_right (Nat.lt_succ_self x)
    have hbyte := hw.kept x c hc' (.inl (Nat.lt_succ_self x))
    rw [inodeRead_one (hinv''.valid (hw.grows.inUse.trans huse)) hx' hsize hbyte] at hbuf
    obtain rfl := Option.some.inj hbuf
    refine hzero 0 c hx (fun hmem => ?_) rfl
    simp at hmem
  · intro hclean writes
    have hstart : CutInv p m ⟨(inodeTruncate fs (some p) m).2, fun _ => ∅⟩ :=
      ⟨hinv', huse, fun x c hx _ hc => by
        obtain ⟨hcut, hc⟩ := (byteAt_inodeTruncate hvalid x c).1 hc
        exact hclean x c hx hcut hc⟩
    obtain ⟨s, hs, h⟩ := run_of_invariant (fun s w h => CutInv.write h w) hstart writes
    refine ⟨s, hs, fun offset hoffset size => ?_⟩
    obtain ⟨buf, hread, hreads⟩ := inodeRead_spec (h.inv.valid h.inUse) hoffset size
    refine ⟨buf, hread, fun j c hj hnot hc => ?_⟩
    obtain ⟨hlt, rfl⟩ := List.getElem?_eq_some_iff.1 hc
    exact h.clean _ _ hj hnot (hreads.bytes j hlt)

/-- A file of 600 bytes is cut at 512: its second block is given up. -/
theorem stays_gone_iff_block : ∃ fs,
    inodeRun listIndex [] zeroFs [.alloc 1, .write 0 (fun _ => 65) 0 600] = some fs ∧
      (fs.inodes 0).inUse = true ∧ StaysGone listIndex fs 0 512 := by
  have hrun : (inodeRun listIndex [] zeroFs [.alloc 1, .write 0 (fun _ => 65) 0 600]).map
      (fun fs => ((fs.inodes 0).inUse, (fs.inodes 0).size, (fs.inodes 0).blockCount,
        decide (∀ k : Fin directBlockCount, 2 ≤ k.val → (fs.inodes 0).directBlocks k = 0))) =
      some (true, 600, 2, true) := by
    decide +kernel
  obtain ⟨fs, hfs, hrun⟩ := Option.map_eq_some_iff.1 hrun
  simp only [Prod.mk.injEq, decide_eq_true_eq] at hrun
  obtain ⟨huse, hsize, hcount, hzero⟩ := hrun
  refine ⟨fs, hfs, huse, (stays_gone_iff hfs huse 512).2 fun x c hx hcut hc => ?_⟩
  obtain ⟨hidx, h0, -⟩ := byteAt_eq_some_iff.1 hc
  have hblock : x / fsBlockSize < 2 := not_le.1 fun h => h0 (hzero ⟨_, hidx⟩ h)
  refine absurd ⟨by omega, ?_, hblock.trans_eq hcount.symm⟩ hcut
  have hfor : blocksFor 512 = 1 := rfl
  simp only [hfor, fsBlockSize]
  omega

/-- A file of 10 bytes is cut at 5, and a byte is written at 20: the byte 7 is the old one. -/
theorem truncated_comes_back : ∃ fs,
    inodeRun listIndex [] zeroFs [.alloc 1, .write 0 (fun _ => 65) 0 10] = some fs ∧
      (fs.inodes 0).inUse = true ∧ ¬StaysGone listIndex fs 0 5 := by
  have hrun : (inodeRun listIndex [] zeroFs [.alloc 1, .write 0 (fun _ => 65) 0 10]).map
      (fun fs => (fs.inodes 0).inUse && ((inodeTruncate fs (some 0) 5).2.inodes 0).inUse &&
        decide ((inodeWrite (inodeTruncate fs (some 0) 5).2 (some 0) (some fun _ => 66) 20 1).map
          (fun r => (r.1, inodeRead r.2 (some 0) 7 1)) = some (1, some [65]))) = some true := by
    decide +kernel
  obtain ⟨fs, hfs, hrun⟩ := Option.map_eq_some_iff.1 hrun
  simp only [Bool.and_eq_true, decide_eq_true_eq] at hrun
  obtain ⟨⟨huse, huse'⟩, hread⟩ := hrun
  obtain ⟨⟨n, fs'⟩, hwrite, hread⟩ := Option.map_eq_some_iff.1 hread
  simp only [Prod.mk.injEq] at hread
  obtain ⟨rfl, hread⟩ := hread
  refine ⟨fs, hfs, huse, fun hgone => ?_⟩
  obtain ⟨s, hs, hzero⟩ := hgone [⟨fun _ => 66, 20, 1⟩]
  rw [truncatedRun, run_cons, WrittenFs.step, if_pos huse', hwrite] at hs
  obtain rfl := Option.some.inj hs
  obtain ⟨buf, hbuf, hzero⟩ := hzero 7 (by decide) 1
  obtain rfl := Option.some.inj (hread.symm.trans hbuf)
  -- Only the byte 20 was written since.
  have hnot : (7 : ℕ) ∉ (∅ : Set ℕ) ∪ Set.Ico (wrap32 20) (wrap32 20 + 1) := by simp [wrap32]
  exact absurd (hzero 0 65 (by decide) hnot rfl) (by decide)

end Fru1tOs
