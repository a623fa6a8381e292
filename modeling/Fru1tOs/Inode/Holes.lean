import Fru1tOs.Inode.Size

/-!
# Holes

A write past the end of a file makes it longer by positions that it does not write. They are zero
when their block is the one that the write takes for its first byte. Otherwise they are what is in
their block, or there is no block and they cannot be read.

* `writes_gaps`: where a write leaves gaps, and where it puts zeros.
* `reads_all_iff`: in a run, all positions of all files can be read, those that were not written
  being zero, iff every write finds zeros from the end of the file on, or takes their block.
-/

namespace Fru1tOs

open Lib

variable {ι : Type} {fs fs' : InodeFs ι} {p q : InodePtr}

/-! ## Writes -/

section Gaps

variable {extra : List ℕ} {data : ℕ → UInt8} {offset size n x : ℕ}

/-- The position `x` is in a block of the `n` positions from `offset` on. -/
def BlockTouched (offset n x : ℕ) : Prop :=
  ∃ y, offset ≤ y ∧ y < offset + n ∧ y / fsBlockSize = x / fsBlockSize

/-- A pass touches its block. -/
theorem blockTouched_pass (hn : n < size) :
    BlockTouched offset (n + min (fsBlockSize - (offset + n) % fsBlockSize) (size - n)) x ↔
      BlockTouched offset n x ∨ x / fsBlockSize = (offset + n) / fsBlockSize := by
  have hmod : (offset + n) % fsBlockSize < fsBlockSize := Nat.mod_lt _ (by decide)
  constructor
  · rintro ⟨y, hy, hy', heq⟩
    rcases lt_or_ge y (offset + n) with hlt | hge
    · exact .inl ⟨y, hy, hlt, heq⟩
    · refine .inr (heq.symm.trans ?_)
      simp only [fsBlockSize] at hmod hy' ⊢
      omega
  · rintro (⟨y, hy, hy', heq⟩ | heq)
    · exact ⟨y, hy, by omega, heq⟩
    · exact ⟨offset + n, Nat.le_add_right _ _, by omega, heq.symm⟩

/-- The loop of `inode_write` puts zeros where blocks were missing, in the blocks it writes to, and
    leaves the other gaps. -/
theorem writes_gaps {r : InodeFs ι × ℕ} (h : Owned fs.entry fs.blockBitmap extra)
    (hp : (fs.inodes p).inUse = true) (hoffset : offset < 2 ^ 32)
    (hloop : loop (fun s => some (writePass p data offset size s)) blockFuel (fs, 0) = some r)
    (hx : fs.byteAt p x = none) (hout : x < offset ∨ offset + r.2 ≤ x) :
    (BlockTouched offset r.2 x → r.1.byteAt p x = some 0) ∧
      (¬BlockTouched offset r.2 x → r.1.byteAt p x = none) := by
  refine (writeLoop_induction (Q := fun s => (x < offset ∨ offset + s.2 ≤ x) →
    (BlockTouched offset s.2 x → s.1.byteAt p x = some 0) ∧
      (¬BlockTouched offset s.2 x → s.1.byteAt p x = none)) h hp hoffset hloop ?_ ?_).1 hout
  · refine fun _ => ⟨?_, fun _ => hx⟩
    rintro ⟨y, hy, hy', -⟩
    omega
  · intro fs₁ n k b fs₂ hQ howned hp₁ hlt hn hk hfor hout
    obtain ⟨hzero, hgap⟩ := hQ (by omega)
    have htouch : BlockTouched offset _ x ↔ _ := blockTouched_pass hn
    have hlen := length_passBytes data offset size n
    rw [wrap32_of_lt hlt] at hlen
    rw [byteAt_pass howned hp₁ hlt hk hfor (by omega)]
    dsimp only
    rw [hlen, htouch]
    by_cases hblock : x / fsBlockSize = (offset + n) / fsBlockSize
    · refine ⟨fun _ => ?_, fun hnot => absurd (.inr hblock) hnot⟩
      by_cases ht : BlockTouched offset n x
      · rw [hzero ht]
        simp
      · rw [if_pos ⟨hgap ht, hblock⟩]
    · rw [if_neg fun hboth => hblock hboth.2, or_iff_left hblock]
      exact ⟨hzero, hgap⟩

/-- What `inode_write` does to the i-node `p`, position by position: `n` bytes are written, the
    bytes that were there are kept, zeros are put where a block was missing that is written to, and
    the size grows to the end of what was written. -/
structure WritesTo (p : InodePtr) (data : ℕ → UInt8) (offset size : ℕ) (fs fs' : InodeFs ι)
    (n : ℕ) : Prop where
  grows : Grows p fs fs'
  written : ∀ j < n, fs'.byteAt p (offset + j) = some (data j)
  kept : ∀ x c, fs.byteAt p x = some c → x < offset ∨ offset + n ≤ x → fs'.byteAt p x = some c
  zero : ∀ x, fs.byteAt p x = none → x < offset ∨ offset + n ≤ x → BlockTouched offset n x →
    fs'.byteAt p x = some 0
  gap : ∀ x, fs.byteAt p x = none → x < offset ∨ offset + n ≤ x → ¬BlockTouched offset n x →
    fs'.byteAt p x = none
  fileSize : (fs'.inodes p).size = max (fs.inodes p).size (offset + n)
  pos : 0 < n ↔ 0 < size ∧ HasRoom fs p offset

/-- `inode_write` returns, and does that. -/
theorem InodeInv.writesTo (h : InodeInv fs extra) (hp : (fs.inodes p).inUse = true)
    (data : ℕ → UInt8) (offset size : ℕ) : ∃ n fs',
      inodeWrite fs (some p) (some data) offset size = some (n, fs') ∧
      WritesTo p data (wrap32 offset) size fs fs' n ∧ InodeInv fs' extra := by
  have hoffset : wrap32 offset < 2 ^ 32 := Nat.mod_lt _ (Nat.two_pow_pos 32)
  rw [← inodeWrite_wrap32]
  generalize wrap32 offset = offset at hoffset ⊢
  obtain ⟨r, hloop, hgrows, howned⟩ := writeLoop_spec h.owned hp data offset size
  obtain ⟨hwrites, hle, hstop⟩ := writeLoop_writes h.owned hp hoffset hloop
  have hgrows' := hgrows.trans (grows_growSize r.1 p (wrap32 (offset + r.2)))
  refine ⟨r.2, _, inodeWrite_eq hloop, ⟨hgrows', fun j hj => ?_, fun x c hc hout => ?_,
    fun x hx hout htouch => ?_, fun x hx hout htouch => ?_, ?_, hwrites.pos_iff hle hstop⟩,
    h.grows hgrows' (by rwa [entry_growSize, blockBitmap_growSize])⟩
  · exact (byteAt_growSize ..).trans (hwrites.bytes j hj)
  · exact (byteAt_growSize ..).trans (hwrites.kept x c hc hout)
  · exact (byteAt_growSize ..).trans ((writes_gaps h.owned hp hoffset hloop hx hout).1 htouch)
  · exact (byteAt_growSize ..).trans ((writes_gaps h.owned hp hoffset hloop hx hout).2 htouch)
  · rw [size_growSize, hwrites.size, wrap32_of_lt (hwrites.add_lt hoffset)]

end Gaps

/-! ## The other operations -/

section Others

variable {idx : Index ι} {extra : List ℕ} {x : ℕ}

theorem byteAt_congr (hinode : fs'.inodes p = fs.inodes p)
    (hstorage : fs'.blockStorage = fs.blockStorage) (x : ℕ) :
    fs'.byteAt p x = fs.byteAt p x := by
  rw [InodeFs.byteAt, hinode, hstorage, InodeFs.byteAt]

/-- What `p` gets does not change the bytes of another i-node. -/
theorem InodeInv.byteAt_of_grows (h : InodeInv fs extra) (hp : (fs.inodes p).inUse)
    (hq : (fs.inodes q).inUse) (hne : q ≠ p) (hgrows : Grows p fs fs') (x : ℕ) :
    fs'.byteAt q x = fs.byteAt q x := by
  have hinode := hgrows.others q hne
  rcases hx : fs.byteAt q x with _ | c
  · rw [byteAt_eq_none_iff] at hx ⊢
    rwa [hinode]
  · obtain ⟨hidx, h0, hc⟩ := byteAt_eq_some_iff.1 hx
    refine byteAt_eq_some_iff.2 ⟨hidx, by rwa [hinode], ?_⟩
    rw [hinode, ← hc]
    refine hgrows.storage _ (h.owned.block hq h0).2.1 (fun l hl => hne ?_) _
      (Nat.mod_lt _ (by decide))
    exact (h.owned.block_inj hq hp h0 hl.symm).1

theorem blockStorage_inodeAlloc {type : ℕ} {r : Option InodePtr × InodeFs ι}
    (h : inodeAlloc idx fs type = some r) : r.2.blockStorage = fs.blockStorage := by
  rw [inodeAlloc] at h
  rcases hfind : (List.finRange maxInodeCount).find? fun i : InodePtr => !fs.inodeBitmap.test i
    with _ | p
  · rw [hfind] at h
    rw [← Option.some.inj h]
  · rw [hfind] at h
    obtain ⟨index, -, hr⟩ := Option.bind_eq_some_iff.1 h
    rw [← Option.some.inj hr]
    rfl

theorem blockStorage_blockFree (fs : InodeFs ι) (b : ℕ) :
    (blockFree fs b).blockStorage = fs.blockStorage := by
  rw [blockFree]
  split_ifs <;> rfl

theorem blockStorage_foldl {α : Type} {f : InodeFs ι → α → InodeFs ι}
    (hf : ∀ fs a, (f fs a).blockStorage = fs.blockStorage) (l : List α) (fs : InodeFs ι) :
    (l.foldl f fs).blockStorage = fs.blockStorage := by
  induction l generalizing fs with
  | nil => rfl
  | cons a l ih => rw [List.foldl_cons, ih, hf]

theorem blockStorage_inodeFree (h : inodeFree idx fs (some p) = some fs') :
    fs'.blockStorage = fs.blockStorage := by
  simp only [inodeFree] at h
  split_ifs at h
  · rw [← Option.some.inj h]
  · obtain ⟨index, -, hr⟩ := Option.bind_eq_some_iff.1 h
    rw [← Option.some.inj hr]
    refine blockStorage_foldl (fun fs k => ?_) _ fs
    split_ifs
    · exact blockStorage_blockFree ..
    · rfl

theorem blockStorage_inodeTruncate (fs : InodeFs ι) (p : InodePtr) (newSize : ℕ) :
    (inodeTruncate fs (some p) newSize).2.blockStorage = fs.blockStorage := by
  simp only [inodeTruncate]
  split_ifs
  · rfl
  · refine blockStorage_foldl (fun fs k => ?_) _ fs
    rw [truncatePass]
    split_ifs
    · exact blockStorage_blockFree ..
    · rfl

/-- Cutting a file takes the blocks from the new end on, up to `block_count`, and keeps the other
    bytes. -/
theorem ShortensInode.byteAt {newSize : ℕ} (h : ShortensInode p newSize fs fs')
    (hstorage : fs'.blockStorage = fs.blockStorage) (x : ℕ) :
    fs'.byteAt p x = if blocksFor newSize ≤ x / fsBlockSize ∧
      x / fsBlockSize < (fs.inodes p).blockCount then none else fs.byteAt p x := by
  simp only [InodeFs.byteAt, h.inode, hstorage, directBlocks_setBlocks]
  by_cases hidx : x / fsBlockSize < directBlockCount
  · rw [dif_pos hidx, dif_pos hidx]
    by_cases hgiven : blocksFor newSize ≤ x / fsBlockSize ∧
        x / fsBlockSize < (fs.inodes p).blockCount
    · rw [if_pos hgiven, if_pos hgiven, if_pos rfl]
    · rw [if_neg hgiven, if_neg hgiven]
  · rw [dif_neg hidx, dif_neg hidx, ite_self]

end Others

/-! ## Reading all of a file -/

/-- The file system, and for each i-node the positions of the file that were written since they
    came into it. -/
structure WrittenFs (ι : Type) where
  fs : InodeFs ι
  written : InodePtr → Set ℕ

/-- An operation. A new i-node has nothing written; a write adds the positions it writes, and a cut
    removes those from the new end on. -/
def WrittenFs.step (idx : Index ι) (s : WrittenFs ι) : InodeCall → Option (WrittenFs ι)
  | .alloc type => (inodeAlloc idx s.fs type).map fun (p, fs) =>
    ⟨fs, match p with
      | some p => Function.update s.written p ∅
      | none => s.written⟩
  | .free p => ((InodeCall.free p).step idx s.fs).map fun fs => ⟨fs, s.written⟩
  | .write p data offset size =>
    if (s.fs.inodes p).inUse then
      (inodeWrite s.fs (some p) (some data) offset size).map fun (n, fs) =>
        ⟨fs, Function.update s.written p
          (s.written p ∪ Set.Ico (wrap32 offset) (wrap32 offset + n))⟩
    else some s
  | .truncate p newSize =>
    if (s.fs.inodes p).inUse then
      some ⟨(inodeTruncate s.fs (some p) newSize).2,
        Function.update s.written p (s.written p ∩ Set.Iio newSize)⟩
    else some s

/-- A run of operations on i-nodes, from `inode_fs_init`. -/
def writtenRun (idx : Index ι) (index : ι) (fs₀ : InodeFs ι) (calls : List InodeCall) :
    Option (WrittenFs ι) :=
  run (fun s c => WrittenFs.step idx s c) ⟨inodeFsInit index fs₀, fun _ => ∅⟩ calls

/-- A read within a file gives all bytes it is asked for, zeros where nothing was written. -/
def ReadsAll (s : WrittenFs ι) : Prop :=
  ∀ p, (s.fs.inodes p).inUse → ∀ offset k, offset + k ≤ (s.fs.inodes p).size →
    ∃ buf, inodeRead s.fs (some p) offset k = some buf ∧ buf.length = k ∧
      ∀ j < k, offset + j ∉ s.written p → buf[j]? = some 0

/-- All positions of the file are there, zero where nothing was written. -/
def Solid (s : WrittenFs ι) (p : InodePtr) : Prop :=
  ∀ x < (s.fs.inodes p).size, ∃ c, s.fs.byteAt p x = some c ∧ (x ∉ s.written p → c = 0)

/-- The invariant of the runs, whatever the writes do. -/
structure WrittenInv (s : WrittenFs ι) : Prop where
  inv : InodeInv s.fs []
  fits : SizesFit s.fs
  inside : ∀ p, (s.fs.inodes p).inUse → ∀ x ∈ s.written p, x < (s.fs.inodes p).size

section Solid

variable {idx : Index ι} {s s' : WrittenFs ι}

theorem WrittenInv.readsAll_iff (h : WrittenInv s) :
    ReadsAll s ↔ ∀ p, (s.fs.inodes p).inUse → Solid s p := by
  constructor
  · intro hall p hp x hx
    obtain ⟨buf, hread, hlen, hzero⟩ := hall p hp x 1 hx
    have hfit := h.fits p hp
    obtain ⟨buf', hread', hreads⟩ := inodeRead_spec (h.inv.valid hp) (hx.trans hfit) 1
    obtain rfl := Option.some.inj (hread.symm.trans hread')
    refine ⟨buf[0], hreads.bytes 0 (by omega), fun hnot => ?_⟩
    have := hzero 0 Nat.one_pos hnot
    rwa [List.getElem?_eq_getElem (by omega), Option.some_inj] at this
  · intro hall p hp offset k hle
    have hfit := h.fits p hp
    obtain ⟨buf, hread, hreads⟩ := inodeRead_spec (h.inv.valid hp)
      (lt_of_le_of_lt (Nat.le_of_add_right_le hle) hfit) k
    rw [readSize_of_le (lt_of_le_of_lt hle hfit) (.inr hle)] at hreads
    -- There is no gap for the read to stop at.
    have hlen : buf.length = k := by
      refine hreads.le.antisymm (not_lt.1 fun hlt => ?_)
      obtain ⟨c, hc, -⟩ := hall p hp (offset + buf.length) (by omega)
      rw [hreads.stop hlt] at hc
      cases hc
    refine ⟨buf, hread, hlen, fun j hj hnot => ?_⟩
    obtain ⟨c, hc, hzero⟩ := hall p hp (offset + j) (by omega)
    rw [hreads.bytes j (by omega), Option.some_inj] at hc
    rw [List.getElem?_eq_getElem (by omega), hc, hzero hnot]

theorem Solid.congr (h : Solid s p) (hsize : (s'.fs.inodes p).size = (s.fs.inodes p).size)
    (hbyte : ∀ x, s'.fs.byteAt p x = s.fs.byteAt p x) (hwritten : s'.written p = s.written p) :
    Solid s' p := by
  intro x hx
  rw [hbyte, hwritten]
  exact h x (hsize ▸ hx)

/-- A file that is solid is in its blocks. -/
theorem Solid.size_le (h : Solid s p) : (s.fs.inodes p).size ≤ maxFileSize := by
  by_contra hlt
  obtain ⟨c, hc, -⟩ := h maxFileSize (not_le.1 hlt)
  obtain ⟨hidx, -⟩ := byteAt_eq_some_iff.1 hc
  exact absurd hidx (by decide)

theorem WrittenFs.step_fs {c : InodeCall} (h : WrittenFs.step idx s c = some s') :
    c.step idx s.fs = some s'.fs := by
  cases c with
  | alloc type =>
    obtain ⟨⟨r, fs⟩, hr, rfl⟩ := Option.map_eq_some_iff.1 h
    rw [InodeCall.step, hr]
    rfl
  | free p =>
    obtain ⟨fs, hfs, rfl⟩ := Option.map_eq_some_iff.1 h
    exact hfs
  | write p data offset size =>
    rw [WrittenFs.step] at h
    rw [InodeCall.step]
    split_ifs at h ⊢
    · obtain ⟨⟨n, fs⟩, hr, rfl⟩ := Option.map_eq_some_iff.1 h
      rw [hr]
      rfl
    · rw [← Option.some.inj h]
  | truncate p newSize =>
    rw [WrittenFs.step] at h
    rw [InodeCall.step]
    split_ifs at h ⊢
    · rw [← Option.some.inj h]
    · rw [← Option.some.inj h]

/-- A write finds zeros from the end of the file up to its offset, or takes their block: it is the
    one of its first byte, which it has and there is room for. -/
def InodeCall.NoHole (fs : InodeFs ι) : InodeCall → Prop
  | write p _ offset size => (fs.inodes p).inUse → ∀ x, (fs.inodes p).size ≤ x →
    x < wrap32 offset → fs.byteAt p x = some 0 ∨ (fs.byteAt p x = none ∧
      x / fsBlockSize = wrap32 offset / fsBlockSize ∧ 0 < size ∧ HasRoom fs p (wrap32 offset))
  | _ => True

/-- A write keeps a file solid iff it leaves no hole. -/
theorem Solid.write_iff (hs : Solid s p) (h : WrittenInv s) (hp : (s.fs.inodes p).inUse)
    {data : ℕ → UInt8} {offset size n : ℕ}
    (hw : WritesTo p data (wrap32 offset) size s.fs fs' n) :
    Solid ⟨fs', Function.update s.written p
        (s.written p ∪ Set.Ico (wrap32 offset) (wrap32 offset + n))⟩ p ↔
      (InodeCall.write p data offset size).NoHole s.fs := by
  rw [InodeCall.NoHole]
  generalize wrap32 offset = o at hw ⊢
  have hwritten : ∀ x, x ∈ Function.update s.written p (s.written p ∪ Set.Ico o (o + n)) p ↔
      x ∈ s.written p ∨ o ≤ x ∧ x < o + n := fun x => by
    rw [Function.update_self]
    rfl
  constructor
  · intro hsolid _ x hsize hx
    obtain ⟨c, hc, hzero⟩ := hsolid x (by
      rw [hw.fileSize]
      exact lt_max_of_lt_right (by omega))
    have hnot : x ∉ Function.update s.written p (s.written p ∪ Set.Ico o (o + n)) p := by
      intro hmem
      rcases (hwritten x).1 hmem with hmem | hmem
      · exact absurd (h.inside p hp x hmem) (not_lt.2 hsize)
      · omega
    rw [hzero hnot] at hc
    rcases hbyte : s.fs.byteAt p x with _ | c'
    · by_cases htouch : BlockTouched o n x
      · obtain ⟨y, hy, hy', hblock⟩ := htouch
        refine .inr ⟨rfl, ?_, hw.pos.1 (by omega)⟩
        -- The offset is between the two.
        have hle := Nat.div_le_div_right (c := fsBlockSize) hx.le
        have hle' := Nat.div_le_div_right (c := fsBlockSize) hy
        omega
      · rw [hw.gap x hbyte (.inl hx) htouch] at hc
        cases hc
    · rw [hw.kept x c' hbyte (.inl hx)] at hc
      exact .inl hc
  · intro hno x hx
    rw [hwritten]
    by_cases hin : o ≤ x ∧ x < o + n
    · obtain ⟨j, rfl⟩ := Nat.exists_eq_add_of_le hin.1
      exact ⟨_, hw.written j (by omega), fun hnot => absurd (.inr hin) hnot⟩
    have hout : x < o ∨ o + n ≤ x := by omega
    by_cases hold : x < (s.fs.inodes p).size
    · obtain ⟨c, hc, hzero⟩ := hs x hold
      exact ⟨c, hw.kept x c hc hout, fun hnot => hzero fun hmem => hnot (.inl hmem)⟩
    have hxo : x < o := by
      have hx' : x < max (s.fs.inodes p).size (o + n) := hw.fileSize ▸ hx
      omega
    rcases hno hp x (not_lt.1 hold) hxo with hzero | ⟨hnone, hblock, hroom⟩
    · exact ⟨0, hw.kept x 0 hzero hout, fun _ => rfl⟩
    · have hpos := hw.pos.2 hroom
      exact ⟨0, hw.zero x hnone hout ⟨o, le_rfl, by omega, hblock.symm⟩, fun _ => rfl⟩

/-- Cutting a file keeps it solid. -/
theorem Solid.truncate (hs : Solid s p) (h : WrittenInv s) (hp : (s.fs.inodes p).inUse)
    (newSize : ℕ) : Solid ⟨(inodeTruncate s.fs (some p) newSize).2,
      Function.update s.written p (s.written p ∩ Set.Iio newSize)⟩ p := by
  have hstorage := blockStorage_inodeTruncate s.fs p newSize
  have hwritten : ∀ x, x ∈ Function.update s.written p (s.written p ∩ Set.Iio newSize) p ↔
      x ∈ s.written p ∧ x < newSize := fun x => by
    rw [Function.update_self]
    rfl
  intro x hx
  rw [hwritten]
  rcases inodeTruncate_cases (h.inv.valid hp) newSize with ⟨hle, heq⟩ | ⟨hlt, hshort⟩
  · simp only [heq] at hx ⊢
    obtain ⟨c, hc, hzero⟩ := hs x hx
    exact ⟨c, hc, fun hnot => hzero fun hmem => hnot ⟨hmem, hx.trans_le hle⟩⟩
  · simp only [hshort.inode] at hx
    obtain ⟨c, hc, hzero⟩ := hs x (hx.trans hlt)
    -- The blocks up to the new end are kept.
    have hblocks : x / fsBlockSize < blocksFor newSize := by
      have hsize := hs.size_le
      simp only [maxFileSize, directBlockCount, fsBlockSize, blocksFor, wrap32] at hsize ⊢
      omega
    refine ⟨c, ?_, fun hnot => hzero fun hmem => hnot ⟨hmem, hx⟩⟩
    simp only [hshort.byteAt hstorage]
    rw [if_neg fun hgiven => absurd hgiven.1 (not_le.2 hblocks)]
    exact hc

/-- Only the file of the i-node `p` has changed. -/
structure OnlyFile (p : InodePtr) (s s' : WrittenFs ι) : Prop where
  inodes : ∀ q, q ≠ p → s'.fs.inodes q = s.fs.inodes q
  bytes : ∀ q, q ≠ p → (s.fs.inodes q).inUse → ∀ x, s'.fs.byteAt q x = s.fs.byteAt q x
  written : ∀ q, q ≠ p → s'.written q = s.written q

/-- What a step can do: nothing, to empty a file (its i-node being taken or given up), to write to a
    file, and to cut one. -/
theorem WrittenInv.step_cases (h : WrittenInv s) {c : InodeCall}
    (hr : WrittenFs.step idx s c = some s') :
    (s' = s ∧ c.NoHole s.fs) ∨
    (∃ p, OnlyFile p s s' ∧ c.NoHole s.fs ∧
      ((s'.fs.inodes p).inUse → (s'.fs.inodes p).size = 0 ∧ s'.written p = ∅)) ∨
    (∃ p data offset size n, OnlyFile p s s' ∧ c = .write p data offset size ∧
      (s.fs.inodes p).inUse ∧ WritesTo p data (wrap32 offset) size s.fs s'.fs n ∧
      s'.written = Function.update s.written p
        (s.written p ∪ Set.Ico (wrap32 offset) (wrap32 offset + n))) ∨
    ∃ p newSize, OnlyFile p s s' ∧ c = .truncate p newSize ∧ (s.fs.inodes p).inUse ∧
      s' = ⟨(inodeTruncate s.fs (some p) newSize).2,
        Function.update s.written p (s.written p ∩ Set.Iio newSize)⟩ := by
  cases c with
  | alloc type =>
    obtain ⟨⟨r, fs⟩, hr', rfl⟩ := Option.map_eq_some_iff.1 hr
    have hstorage := blockStorage_inodeAlloc hr'
    rcases inodeAlloc_cases hr' with heq | ⟨p, hp, ha⟩
    · cases heq
      exact .inl ⟨rfl, trivial⟩
    · obtain rfl : r = some p := hp
      have hinode : fs.inodes p = newInode p type := ha.inode
      refine .inr (.inl ⟨p, ⟨ha.others, fun q hq _ => byteAt_congr (ha.others q hq) hstorage,
        fun q hq => Function.update_of_ne hq ..⟩, trivial, fun _ => ⟨?_, Function.update_self ..⟩⟩)
      show (fs.inodes p).size = 0
      rw [hinode, newInode]
  | free p =>
    obtain ⟨fs, hfs, rfl⟩ := Option.map_eq_some_iff.1 hr
    rw [InodeCall.step] at hfs
    split_ifs at hfs with hp
    · have hf := inodeFree_spec hp (h.inv.valid hp) hfs
      have hstorage := blockStorage_inodeFree hfs
      refine .inr (.inl ⟨p, ⟨hf.others, fun q hq _ => byteAt_congr (hf.others q hq) hstorage,
        fun q _ => rfl⟩, trivial, fun hp' => ?_⟩)
      simp only [hf.inode, Bool.false_eq_true] at hp'
    · cases hfs
      exact .inl ⟨rfl, trivial⟩
  | write p data offset size =>
    rw [WrittenFs.step] at hr
    split_ifs at hr with hp
    · obtain ⟨n, fs', hwrite, hw, -⟩ := h.inv.writesTo hp data offset size
      rw [hwrite, Option.map_some, Option.some_inj] at hr
      subst hr
      exact .inr (.inr (.inl ⟨p, data, offset, size, n, ⟨hw.grows.others,
        fun q hq hq' => h.inv.byteAt_of_grows hp hq' hq hw.grows,
        fun q hq => Function.update_of_ne hq ..⟩, rfl, hp, hw, rfl⟩))
    · cases hr
      exact .inl ⟨rfl, fun hp' => absurd hp' hp⟩
  | truncate p newSize =>
    rw [WrittenFs.step] at hr
    split_ifs at hr with hp
    · cases hr
      have hstorage := blockStorage_inodeTruncate s.fs p newSize
      have hothers : ∀ q, q ≠ p →
          (inodeTruncate s.fs (some p) newSize).2.inodes q = s.fs.inodes q := fun q hq => by
        rcases inodeTruncate_cases (h.inv.valid hp) newSize with ⟨-, heq⟩ | ⟨-, hshort⟩
        · rw [heq]
        · exact hshort.others q hq
      exact .inr (.inr (.inr ⟨p, newSize, ⟨hothers,
        fun q hq _ => byteAt_congr (hothers q hq) hstorage,
        fun q hq => Function.update_of_ne hq ..⟩, rfl, hp, rfl⟩))
    · cases hr
      exact .inl ⟨rfl, trivial⟩

/-- The positions that were written are in the file, also after a change to the file of `p`. -/
theorem OnlyFile.inside (ho : OnlyFile p s s') (h : WrittenInv s)
    (hp : (s'.fs.inodes p).inUse → ∀ x ∈ s'.written p, x < (s'.fs.inodes p).size) (q : InodePtr)
    (hq : (s'.fs.inodes q).inUse) : ∀ x ∈ s'.written q, x < (s'.fs.inodes q).size := by
  intro x hx
  by_cases hqp : q = p
  · subst hqp
    exact hp hq x hx
  · rw [ho.inodes q hqp] at hq ⊢
    exact h.inside q hq x (ho.written q hqp ▸ hx)

/-- The other files stay solid. -/
theorem OnlyFile.solid_iff (ho : OnlyFile p s s')
    (hs : ∀ q, (s.fs.inodes q).inUse → Solid s q) :
    (∀ q, (s'.fs.inodes q).inUse → Solid s' q) ↔ ((s'.fs.inodes p).inUse → Solid s' p) := by
  refine ⟨fun hall => hall p, fun hp q hq => ?_⟩
  by_cases hqp : q = p
  · subst hqp
    exact hp hq
  · have hinode := ho.inodes q hqp
    rw [hinode] at hq
    exact (hs q hq).congr (by rw [hinode]) (ho.bytes q hqp hq) (ho.written q hqp)

theorem WrittenInv.step (h : WrittenInv s) {c : InodeCall}
    (hr : WrittenFs.step idx s c = some s') : WrittenInv s' := by
  have hstep := WrittenFs.step_fs hr
  refine ⟨h.inv.step hstep, h.fits.step h.inv hstep, ?_⟩
  rcases h.step_cases hr with ⟨rfl, -⟩ | ⟨p, ho, -, hempty⟩ |
    ⟨p, data, offset, size, n, ho, -, hp, hw, hwritten⟩ | ⟨p, newSize, ho, -, hp, rfl⟩
  · exact h.inside
  · refine ho.inside h fun hp x hx => ?_
    rw [(hempty hp).2] at hx
    exact absurd hx (Set.notMem_empty x)
  · refine ho.inside h fun _ x hx => ?_
    simp only [hwritten, Function.update_self, Set.mem_union, Set.mem_Ico] at hx
    rw [hw.fileSize]
    rcases hx with hx | hx
    · exact lt_max_of_lt_left (h.inside p hp x hx)
    · exact lt_max_of_lt_right hx.2
  · refine ho.inside h fun _ x hx => ?_
    simp only [Function.update_self, Set.mem_inter_iff, Set.mem_Iio] at hx
    rcases inodeTruncate_cases (h.inv.valid hp) newSize with ⟨-, heq⟩ | ⟨-, hshort⟩
    · simp only [heq]
      exact h.inside p hp x hx.1
    · simp only [hshort.inode]
      exact hx.2

/-- All files stay solid in a step iff it leaves no hole. -/
theorem WrittenInv.solid_step_iff (h : WrittenInv s)
    (hs : ∀ q, (s.fs.inodes q).inUse → Solid s q) {c : InodeCall}
    (hr : WrittenFs.step idx s c = some s') :
    (∀ q, (s'.fs.inodes q).inUse → Solid s' q) ↔ c.NoHole s.fs := by
  rcases h.step_cases hr with ⟨rfl, hno⟩ | ⟨p, ho, hno, hempty⟩ |
    ⟨p, data, offset, size, n, ho, rfl, hp, hw, hwritten⟩ | ⟨p, newSize, ho, rfl, hp, rfl⟩
  · exact iff_of_true hs hno
  · refine iff_of_true ((ho.solid_iff hs).2 fun hp x hx => ?_) hno
    rw [(hempty hp).1] at hx
    exact absurd hx (Nat.not_lt_zero x)
  · obtain ⟨fs', written⟩ := s'
    obtain rfl : written = _ := hwritten
    rw [ho.solid_iff hs, ← (hs p hp).write_iff h hp hw]
    exact ⟨fun hsolid => hsolid (hw.grows.inUse.trans hp), fun hsolid _ => hsolid⟩
  · exact iff_of_true ((ho.solid_iff hs).2 fun _ => (hs p hp).truncate h hp newSize) trivial

theorem writtenInv_run {index : ι} {fs₀ : InodeFs ι} {calls : List InodeCall}
    (h : writtenRun idx index fs₀ calls = some s) : WrittenInv s := by
  have hstep : ∀ (s : WrittenFs ι) c s', WrittenInv s → WrittenFs.step idx s c = some s' →
      WrittenInv s' := fun s c s' h hr => h.step hr
  refine run_induction hstep ⟨inodeInv_init index fs₀, ?_, ?_⟩ h
  · exact fun p hp => absurd hp Bool.false_ne_true
  · exact fun p hp => absurd hp Bool.false_ne_true

end Solid

/-- In a run, a read within a file always gives all bytes it is asked for, zeros where nothing was
    written since the position came into the file, iff no write leaves a hole. -/
theorem reads_all_iff (idx : Index ι) (index : ι) (fs₀ : InodeFs ι) (calls : List InodeCall) :
    (∀ pre s, pre <+: calls → writtenRun idx index fs₀ pre = some s → ReadsAll s) ↔
      ∀ pre c s s', pre ++ [c] <+: calls → writtenRun idx index fs₀ pre = some s →
        WrittenFs.step idx s c = some s' → c.NoHole s.fs := by
  have hinit : ReadsAll (⟨inodeFsInit index fs₀, fun _ => ∅⟩ : WrittenFs ι) := fun p hp =>
    absurd hp Bool.false_ne_true
  refine run_always_iff hinit (fun pre s c s' hrun hs hstep => ?_) calls
  have h := writtenInv_run hrun
  rw [h.readsAll_iff] at hs
  rw [(h.step hstep).readsAll_iff]
  exact h.solid_step_iff hs hstep

/-- One byte is written at the offset 512: the file is 513 bytes long, and there is no block for the
    first 512. -/
theorem write_leaves_hole : ¬∀ pre s, pre <+: [.alloc 1, .write 0 (fun _ => 65) 512 1] →
    writtenRun listIndex [] zeroFs pre = some s → ReadsAll s := by
  intro hall
  have hread : (writtenRun listIndex [] zeroFs [.alloc 1, .write 0 (fun _ => 65) 512 1]).map
      (fun s => ((s.fs.inodes 0).inUse, (s.fs.inodes 0).size, inodeRead s.fs (some 0) 0 1)) =
      some (true, 513, some []) := by
    decide +kernel
  obtain ⟨s, hs, hread⟩ := Option.map_eq_some_iff.1 hread
  simp only [Prod.mk.injEq] at hread
  obtain ⟨huse, hsize, hread⟩ := hread
  obtain ⟨buf, hbuf, hlen, -⟩ := hall _ s List.prefix_rfl hs 0 huse 0 1 (by omega)
  obtain rfl := Option.some.inj (hread.symm.trans hbuf)
  cases hlen

end Fru1tOs
