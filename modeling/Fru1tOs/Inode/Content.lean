import Fru1tOs.Inode.Run

/-!
# What an i-node holds

An i-node is seen as a sequence of bytes with gaps: a position holds a byte when its block is there
(`InodeFs.byteAt`). `inode_read` and `inode_write` cut a range of positions into pieces of blocks;
here they are said to give the bytes of the range, up to the first gap (`Reads`), and to set them
(`Writes`).

* `write_read_back`: what is written is read back, and no other byte changes.
-/

namespace Fru1tOs

open Lib

variable {ι : Type} {fs fs' : InodeFs ι} {p q : InodePtr}

/-! ## Positions -/

/-- The number of bytes that the direct blocks hold. -/
abbrev maxFileSize : ℕ := directBlockCount * fsBlockSize

/-- The byte of an i-node at the position `x`, when its block is there. -/
def InodeFs.byteAt (fs : InodeFs ι) (p : InodePtr) (x : ℕ) : Option UInt8 :=
  if h : x / fsBlockSize < directBlockCount then
    if (fs.inodes p).directBlocks ⟨_, h⟩ = 0 then none
    else some (fs.blockStorage
      ((fs.inodes p).directBlocks ⟨_, h⟩ * fsBlockSize + x % fsBlockSize))
  else none

theorem byteAt_eq_some_iff {x : ℕ} {c : UInt8} : fs.byteAt p x = some c ↔
    ∃ h : x / fsBlockSize < directBlockCount, (fs.inodes p).directBlocks ⟨_, h⟩ ≠ 0 ∧
      fs.blockStorage ((fs.inodes p).directBlocks ⟨_, h⟩ * fsBlockSize + x % fsBlockSize) = c := by
  rw [InodeFs.byteAt]
  split_ifs with h h0
  · simp [h, h0]
  · simp only [Option.some_inj, h, exists_true_left, ne_eq, h0, not_false_eq_true, true_and]
  · simp [h]

theorem byteAt_eq_none_iff {x : ℕ} : fs.byteAt p x = none ↔
    ∀ h : x / fsBlockSize < directBlockCount, (fs.inodes p).directBlocks ⟨_, h⟩ = 0 := by
  rw [InodeFs.byteAt]
  split_ifs with h h0
  · simp [h0]
  · simp [h, h0]
  · simp [h]

/-- The positions of a block. -/
theorem byteAt_add {x j : ℕ} (h : x / fsBlockSize < directBlockCount)
    (hj : x % fsBlockSize + j < fsBlockSize) (h0 : (fs.inodes p).directBlocks ⟨_, h⟩ ≠ 0) :
    fs.byteAt p (x + j) = some (fs.blockStorage
      ((fs.inodes p).directBlocks ⟨_, h⟩ * fsBlockSize + x % fsBlockSize + j)) := by
  have hdiv : (x + j) / fsBlockSize = x / fsBlockSize := by
    simp only [fsBlockSize] at hj ⊢
    omega
  have hmod : (x + j) % fsBlockSize = x % fsBlockSize + j := by
    simp only [fsBlockSize] at hj ⊢
    omega
  have hblock : (fs.inodes p).directBlocks ⟨(x + j) / fsBlockSize, hdiv ▸ h⟩ =
      (fs.inodes p).directBlocks ⟨_, h⟩ := congrArg _ (Fin.ext hdiv)
  refine byteAt_eq_some_iff.2 ⟨hdiv ▸ h, by rwa [hblock], ?_⟩
  rw [hblock, hmod, Nat.add_assoc]

/-! ## Reading -/

/-- The bytes `buf` are those from `offset` on, `size` of them or up to the first gap. -/
structure Reads (fs : InodeFs ι) (p : InodePtr) (offset size : ℕ) (buf : List UInt8) : Prop where
  le : buf.length ≤ size
  bytes : ∀ j (hj : j < buf.length), fs.byteAt p (offset + j) = some buf[j]
  stop : buf.length < size → fs.byteAt p (offset + buf.length) = none

section Read

variable {offset size : ℕ} {buf : List UInt8}

theorem wrap32_of_lt {n : ℕ} (h : n < 2 ^ 32) : wrap32 n = n := Nat.mod_eq_of_lt h

/-- What a pass of `inode_read` can do: leave, at the end or at a gap, or go on with bytes up to
    the end of their block. -/
theorem readPass_cases (hvalid : ∀ k, (fs.inodes p).directBlocks k < maxBlocks)
    (hx : offset + buf.length < 2 ^ 32) (size : ℕ) :
    (readPass fs (fs.inodes p) offset size buf = .done buf ∧
      (buf.length < size → fs.byteAt p (offset + buf.length) = none)) ∨
    ∃ bytes, readPass fs (fs.inodes p) offset size buf = .next (buf ++ bytes) ∧
      buf.length < size ∧ (offset + buf.length) / fsBlockSize < directBlockCount ∧
      bytes.length =
        min (fsBlockSize - (offset + buf.length) % fsBlockSize) (size - buf.length) ∧
      ∀ j (hj : j < bytes.length), fs.byteAt p (offset + buf.length + j) = some bytes[j] := by
  simp only [readPass, wrap32_of_lt hx]
  split_ifs with hlt hidx h0
  · exact .inl ⟨rfl, fun _ => byteAt_eq_none_iff.2 fun _ => h0⟩
  · rw [blockGetPtr_of_valid h0 (hvalid _)]
    refine .inr ⟨_, rfl, hlt, hidx, length_loadBytes .., fun j hj => ?_⟩
    rw [length_loadBytes] at hj
    rw [byteAt_add hidx (by omega) h0]
    simp [loadBytes]
  · exact .inl ⟨rfl, fun _ => byteAt_eq_none_iff.2 fun h => absurd h hidx⟩
  · exact .inl ⟨rfl, fun h => absurd h hlt⟩

/-- The loop of `inode_read` gives the bytes up to the first gap. -/
theorem readLoop_spec (hvalid : ∀ k, (fs.inodes p).directBlocks k < maxBlocks)
    (hoffset : offset < 2 ^ 32) (size : ℕ) :
    ∃ buf, loop (fun buf => some (readPass fs (fs.inodes p) offset size buf)) blockFuel [] =
      some buf ∧ Reads fs p offset size buf := by
  -- The variant: the blocks that are left.
  let Inv : ℕ → List UInt8 → Prop := fun k buf => buf.length ≤ size ∧
    (buf.length = 0 ∨ offset + buf.length ≤ maxFileSize) ∧
    (∀ j (hj : j < buf.length), fs.byteAt p (offset + j) = some buf[j]) ∧
    (buf.length < size → directBlockCount ≤ (offset + buf.length) / fsBlockSize + k)
  have hbody : ∀ k buf, Inv k buf →
      (∃ r, some (readPass fs (fs.inodes p) offset size buf) = some (.done r) ∧
        Reads fs p offset size r) ∨
      ∃ buf' k', some (readPass fs (fs.inodes p) offset size buf) = some (.next buf') ∧ k' < k ∧
        Inv k' buf' := by
    rintro k buf ⟨hle, hfits, hbytes, hk⟩
    have hx : offset + buf.length < 2 ^ 32 := by
      simp only [maxFileSize, directBlockCount, fsBlockSize] at hfits
      omega
    rcases readPass_cases hvalid hx size with
      ⟨hdone, hstop⟩ | ⟨bytes, hnext, hlt, hidx, hlen, hnew⟩
    · exact .inl ⟨buf, congrArg some hdone, hle, hbytes, hstop⟩
    · have hk' := hk hlt
      refine .inr ⟨buf ++ bytes, k - 1, congrArg some hnext, by omega, ?_, .inr ?_,
        fun j hj => ?_, fun hlt' => ?_⟩
      · rw [List.length_append]
        omega
      · rw [List.length_append]
        simp only [maxFileSize, directBlockCount, fsBlockSize] at hidx hlen ⊢
        omega
      · rcases lt_or_ge j buf.length with hj' | hj'
        · rw [hbytes j hj', List.getElem_append_left]
        · obtain ⟨i, rfl⟩ := Nat.exists_eq_add_of_le hj'
          rw [List.length_append] at hj
          rw [← Nat.add_assoc, hnew i (by omega)]
          simp
      · rw [List.length_append] at hlt' ⊢
        simp only [directBlockCount, fsBlockSize] at hidx hlen hk' ⊢
        omega
  exact loop_of_variant (n := blockFuel) (k := directBlockCount) hbody
    ⟨Nat.zero_le _, .inl rfl, fun j hj => absurd hj (Nat.not_lt_zero j),
      fun _ => Nat.le_add_left _ _⟩ (by decide)

/-- The number of bytes that `inode_read` goes for, in a file of size `fileSize`. -/
def readSize (fileSize offset size : ℕ) : ℕ :=
  if offset ≥ fileSize then 0
  else if wrap32 (offset + size) > fileSize then fileSize - offset else size

/-- `inode_read` gives the bytes up to the first gap. -/
theorem inodeRead_spec (hvalid : ∀ k, (fs.inodes p).directBlocks k < maxBlocks)
    (hoffset : offset < 2 ^ 32) (size : ℕ) :
    ∃ buf, inodeRead fs (some p) offset size = some buf ∧
      Reads fs p offset (readSize (fs.inodes p).size offset size) buf := by
  simp only [inodeRead, readSize]
  split_ifs with hge hwrap
  · exact ⟨[], rfl, le_rfl, fun j hj => absurd hj (Nat.not_lt_zero j),
      fun h => absurd h (Nat.not_lt_zero _)⟩
  · exact readLoop_spec hvalid hoffset _
  · exact readLoop_spec hvalid hoffset _

/-- A larger file is read further. -/
theorem readSize_mono {fileSize fileSize' : ℕ} (h : fileSize ≤ fileSize') (offset size : ℕ) :
    readSize fileSize offset size ≤ readSize fileSize' offset size := by
  have hle : wrap32 (offset + size) ≤ offset + size := Nat.mod_le _ _
  rw [readSize, readSize]
  split_ifs <;> omega

/-- What is within the file is read in full. -/
theorem readSize_of_le {fileSize n : ℕ} (hn : offset + n < 2 ^ 32)
    (h : n = 0 ∨ offset + n ≤ fileSize) : readSize fileSize offset n = n := by
  rw [readSize, wrap32_of_lt hn]
  split_ifs <;> omega

theorem Reads.eq_map {data : ℕ → UInt8} {n : ℕ} (h : Reads fs p offset n buf)
    (hdata : ∀ j < n, fs.byteAt p (offset + j) = some (data j)) :
    buf = (List.range n).map data := by
  have hlen : buf.length = n := by
    refine h.le.antisymm (not_lt.1 fun hlt => ?_)
    exact absurd (h.stop hlt) (by rw [hdata _ hlt]; exact Option.some_ne_none _)
  refine List.ext_getElem (by simp [hlen]) fun j hj _ => ?_
  have hbyte := h.bytes j hj
  rw [hdata j (hlen ▸ hj), Option.some_inj] at hbyte
  simp [hbyte]

/-- A byte that was read is read again, if no gap has come up. -/
theorem Reads.getElem?_eq {size' : ℕ} {buf' : List UInt8} (h : Reads fs p offset size buf)
    (h' : Reads fs' p offset size' buf') (hle : size ≤ size')
    (hgap : ∀ x c, fs.byteAt p x = some c → fs'.byteAt p x ≠ none) {j : ℕ} (hj : j < buf.length)
    (hkept : fs'.byteAt p (offset + j) = fs.byteAt p (offset + j)) : buf'[j]? = buf[j]? := by
  have hlen : buf.length ≤ buf'.length := not_lt.1 fun hlt =>
    hgap _ _ (h.bytes _ hlt) (h'.stop (hlt.trans_le (h.le.trans hle)))
  have hj' : j < buf'.length := hj.trans_le hlen
  rw [h.bytes j hj, h'.bytes j hj'] at hkept
  rw [List.getElem?_eq_getElem hj, List.getElem?_eq_getElem hj', hkept]

end Read

/-! ## Writing -/

/-- There is a block for the position `x`, or a free one. -/
def HasRoom (fs : InodeFs ι) (p : InodePtr) (x : ℕ) : Prop :=
  ∃ h : x / fsBlockSize < directBlockCount, (fs.inodes p).directBlocks ⟨_, h⟩ ≠ 0 ∨
    ∃ b, b ≠ 0 ∧ b < maxBlocks ∧ fs.blockBitmap.test b = false

theorem hasRoom_iff {x : ℕ} : HasRoom fs p x ↔
    ∃ h : x / fsBlockSize < directBlockCount, blockFor fs p ⟨_, h⟩ ≠ none := by
  refine exists_congr fun h => ?_
  rcases blockFor_cases fs p ⟨_, h⟩ with
    ⟨hnone, h0, hfull⟩ | ⟨h0, hold⟩ | ⟨b, hb, hlt, hfree, -, hnew⟩
  · refine iff_of_false ?_ (not_not.2 hnone)
    rintro (hne | ⟨b, hb, hlt, hfree⟩)
    · exact hne h0
    · rw [hfull b hb hlt] at hfree
      cases hfree
  · exact iff_of_true (.inl h0) (by rw [hold]; exact Option.some_ne_none _)
  · exact iff_of_true (.inr ⟨b, hb, hlt, hfree⟩) (by rw [hnew]; exact Option.some_ne_none _)

/-- The first `n` bytes of `data` are written from `offset` on, and the other bytes are kept.
    There was room for the first byte, unless nothing changes. -/
structure Writes (p : InodePtr) (data : ℕ → UInt8) (offset : ℕ) (fs fs' : InodeFs ι) (n : ℕ) :
    Prop where
  fits : n = 0 ∨ offset + n ≤ maxFileSize
  bytes : ∀ j < n, fs'.byteAt p (offset + j) = some (data j)
  kept : ∀ x c, fs.byteAt p x = some c → x < offset ∨ offset + n ≤ x → fs'.byteAt p x = some c
  size : (fs'.inodes p).size = (fs.inodes p).size
  nothing : n = 0 → fs' = fs
  room : 0 < n → HasRoom fs p offset

section Write

variable {extra : List ℕ} {data : ℕ → UInt8} {offset size n b : ℕ} {k : Fin directBlockCount}

/-- Taking a free block keeps the bytes that are there. -/
theorem byteAt_blockFor (h : Owned fs.entry fs.blockBitmap extra)
    (hp : (fs.inodes p).inUse = true) (hfor : blockFor fs p k = some (b, fs')) {x : ℕ} {c : UInt8}
    (hx : fs.byteAt p x = some c) : fs'.byteAt p x = some c := by
  rcases blockFor_cases fs p k with ⟨hnone, -⟩ | ⟨-, hold⟩ | ⟨b', hb, hlt, hfree, hk, hnew⟩
  · rw [hnone] at hfor
    cases hfor
  · rw [hold, Option.some_inj, Prod.mk.injEq] at hfor
    rwa [← hfor.2]
  · rw [hnew, Option.some_inj, Prod.mk.injEq] at hfor
    obtain ⟨rfl, rfl⟩ := hfor
    obtain ⟨hidx, h0, hc⟩ := byteAt_eq_some_iff.1 hx
    have hgrows := grows_takeBlock hk hb hfree
    -- The block of the position is marked, so it is not the one that is taken.
    have hmark := (h.block hp h0).2.1
    refine byteAt_eq_some_iff.2 ⟨hidx, by rwa [hgrows.kept _ h0], ?_⟩
    rw [hgrows.kept _ h0, ← hc]
    have hne : (fs.inodes p).directBlocks ⟨_, hidx⟩ ≠ b' := fun heq => by
      rw [heq, hfree] at hmark
      cases hmark
    exact blockStorage_takeBlock hne (Nat.mod_lt _ (by decide))

/-- Taking a free block puts zeros where its positions were missing. -/
theorem byteAt_blockFor_gap (hfor : blockFor fs p k = some (b, fs'))
    {x : ℕ} (hx : fs.byteAt p x = none) :
    fs'.byteAt p x = if x / fsBlockSize = k then some 0 else none := by
  rcases blockFor_cases fs p k with ⟨hnone, -⟩ | ⟨hk, hold⟩ | ⟨b', hb, hlt, hfree, hk, hnew⟩
  · rw [hnone] at hfor
    cases hfor
  · rw [hold, Option.some_inj, Prod.mk.injEq] at hfor
    rw [← hfor.2, hx, if_neg fun heq => hk ?_]
    have hidx : x / fsBlockSize < directBlockCount := heq ▸ k.isLt
    rw [← byteAt_eq_none_iff.1 hx hidx]
    exact congrArg _ (Fin.ext heq.symm)
  · rw [hnew, Option.some_inj, Prod.mk.injEq] at hfor
    obtain ⟨rfl, rfl⟩ := hfor
    split_ifs with heq
    · have hidx : x / fsBlockSize < directBlockCount := heq ▸ k.isLt
      have hblock : ((takeBlock fs p k b').inodes p).directBlocks ⟨_, hidx⟩ = b' := by
        rw [inodes_takeBlock_self, directBlocks_addBlock,
          show (⟨_, hidx⟩ : Fin directBlockCount) = k from Fin.ext heq, Function.update_self]
      refine byteAt_eq_some_iff.2 ⟨hidx, by rwa [hblock], ?_⟩
      rw [hblock]
      have hmod : x % fsBlockSize < zeroBlock.length := by
        rw [length_zeroBlock]
        exact Nat.mod_lt _ (by decide)
      refine (storeBytes_at hmod).trans ?_
      simp [zeroBlock]
    · refine byteAt_eq_none_iff.2 fun hidx => ?_
      have hne : (⟨_, hidx⟩ : Fin directBlockCount) ≠ k := fun h => heq (congrArg Fin.val h)
      rw [inodes_takeBlock_self, directBlocks_addBlock, Function.update_of_ne hne]
      exact byteAt_eq_none_iff.1 hx hidx

/-- Bytes that are stored in the block of the index `k`. -/
theorem byteAt_store (hk : (fs.inodes p).directBlocks k = b) (hb : b ≠ 0) {o j : ℕ}
    {bytes : List UInt8} (hle : o + bytes.length ≤ fsBlockSize) (hj : j < bytes.length) :
    InodeFs.byteAt { fs with
      blockStorage := storeBytes fs.blockStorage (b * fsBlockSize + o) bytes } p
        (k * fsBlockSize + o + j) = some bytes[j] := by
  have hdiv : (k * fsBlockSize + o + j) / fsBlockSize = k := by
    simp only [fsBlockSize] at hle ⊢
    omega
  have hmod : (k * fsBlockSize + o + j) % fsBlockSize = o + j := by
    simp only [fsBlockSize] at hle ⊢
    omega
  have hidx : (k * fsBlockSize + o + j) / fsBlockSize < directBlockCount := by
    rw [hdiv]
    exact k.isLt
  have hblock : (fs.inodes p).directBlocks ⟨_, hidx⟩ = b :=
    (congrArg (fs.inodes p).directBlocks (Fin.ext hdiv)).trans hk
  refine byteAt_eq_some_iff.2 ⟨hidx, by rwa [hblock], ?_⟩
  rw [hblock, hmod, ← Nat.add_assoc]
  exact storeBytes_at hj

/-- The other positions, no other index having the block. -/
theorem byteAt_store_of_disjoint (hinj : ∀ l, (fs.inodes p).directBlocks l = b → l = k)
    {o x : ℕ} {bytes : List UInt8} (hle : o + bytes.length ≤ fsBlockSize)
    (hx : x < k * fsBlockSize + o ∨ k * fsBlockSize + o + bytes.length ≤ x) :
    InodeFs.byteAt { fs with
      blockStorage := storeBytes fs.blockStorage (b * fsBlockSize + o) bytes } p x =
        fs.byteAt p x := by
  rw [InodeFs.byteAt, InodeFs.byteAt]
  refine dite_congr rfl (fun hidx => ?_) fun _ => rfl
  refine if_congr Iff.rfl rfl (congrArg Option.some ?_)
  have hmod : x % fsBlockSize < fsBlockSize := Nat.mod_lt _ (by decide)
  by_cases hblock : (fs.inodes p).directBlocks ⟨_, hidx⟩ = b
  · have hdiv : x / fsBlockSize = k := congrArg Fin.val (hinj _ hblock)
    show storeBytes _ _ _ ((fs.inodes p).directBlocks ⟨_, hidx⟩ * fsBlockSize + x % fsBlockSize) = _
    rw [hblock]
    refine storeBytes_of_disjoint ?_
    simp only [fsBlockSize] at hx hdiv ⊢
    omega
  · exact storeBytes_block hblock hle hmod

/-- The size is not changed by taking a block. -/
theorem size_blockFor (hfor : blockFor fs p k = some (b, fs')) :
    (fs'.inodes p).size = (fs.inodes p).size := by
  rcases blockFor_cases fs p k with ⟨hnone, -⟩ | ⟨-, hold⟩ | ⟨b', -, -, -, -, hnew⟩
  · rw [hnone] at hfor
    cases hfor
  · rw [hold, Option.some_inj, Prod.mk.injEq] at hfor
    rw [hfor.2]
  · rw [hnew, Option.some_inj, Prod.mk.injEq] at hfor
    rw [← hfor.2, inodes_takeBlock_self]
    rfl

/-- A pass of `inode_write` changes the positions it writes, and those that were missing in its
    block, which are zero then. -/
theorem byteAt_pass {fs₁ fs₂ : InodeFs ι} (howned : Owned fs₁.entry fs₁.blockBitmap extra)
    (hp : (fs₁.inodes p).inUse = true) (hx : offset + n < 2 ^ 32)
    (hk : (offset + n) / fsBlockSize = k) (hfor : blockFor fs₁ p k = some (b, fs₂)) {y : ℕ}
    (hout : y < offset + n ∨ offset + (n + (passBytes data offset size n).length) ≤ y) :
    InodeFs.byteAt { fs₂ with
      blockStorage := storeBytes fs₂.blockStorage
        (b * fsBlockSize + wrap32 (offset + n) % fsBlockSize) (passBytes data offset size n) } p y =
      if fs₁.byteAt p y = none ∧ y / fsBlockSize = (offset + n) / fsBlockSize then some 0
      else fs₁.byteAt p y := by
  obtain ⟨hb, -, hblock, hgrows, howned₂⟩ := blockFor_spec howned hp hfor
  have hp₂ : (fs₂.inodes p).inUse = true := hgrows.inUse.trans hp
  have hinj : ∀ l, (fs₂.inodes p).directBlocks l = b → l = k := fun l hl =>
    (howned₂.block_inj hp₂ hp₂ (hl ▸ hb) (hl.trans hblock.symm)).2
  have hle := passBytes_le data offset size n
  have hstart : k * fsBlockSize + (offset + n) % fsBlockSize = offset + n := by
    rw [← hk, Nat.mul_comm]
    exact Nat.div_add_mod _ _
  rw [wrap32_of_lt hx] at hle ⊢
  rw [byteAt_store_of_disjoint hinj hle (by rw [hstart]; omega)]
  rcases hy : fs₁.byteAt p y with _ | c
  · rw [byteAt_blockFor_gap hfor hy, hk]
    simp
  · rw [byteAt_blockFor howned hp hfor hy]
    simp

theorem Writes.refl (p : InodePtr) (data : ℕ → UInt8) (offset : ℕ) (fs : InodeFs ι) :
    Writes p data offset fs fs 0 :=
  ⟨.inl rfl, fun j hj => absurd hj (Nat.not_lt_zero j), fun _ _ hc _ => hc, rfl, fun _ => rfl,
    fun h => absurd h (lt_irrefl 0)⟩

/-- A pass writes the bytes up to the end of its block. -/
theorem Writes.next {fs₁ fs₂ : InodeFs ι} (h : Writes p data offset fs fs₁ n)
    (howned : Owned fs₁.entry fs₁.blockBitmap extra) (hp : (fs₁.inodes p).inUse = true)
    (hx : offset + n < 2 ^ 32) (hk : (offset + n) / fsBlockSize = k) (hn : n < size)
    (hfor : blockFor fs₁ p k = some (b, fs₂)) :
    Writes p data offset fs { fs₂ with
      blockStorage := storeBytes fs₂.blockStorage
        (b * fsBlockSize + wrap32 (offset + n) % fsBlockSize) (passBytes data offset size n) }
      (n + (passBytes data offset size n).length) := by
  obtain ⟨hb, -, hblock, -⟩ := blockFor_spec howned hp hfor
  -- A byte that was there and is not written now.
  have hkept : ∀ x c, fs₁.byteAt p x = some c →
      x < offset + n ∨ offset + (n + (passBytes data offset size n).length) ≤ x →
      InodeFs.byteAt { fs₂ with
        blockStorage := storeBytes fs₂.blockStorage
          (b * fsBlockSize + wrap32 (offset + n) % fsBlockSize)
          (passBytes data offset size n) } p x = some c := fun x c hc hout => by
    rw [byteAt_pass howned hp hx hk hfor hout, hc]
    simp
  have hle := passBytes_le data offset size n
  have hlen := length_passBytes data offset size n
  have hget : ∀ i (hi : i < (passBytes data offset size n).length),
      (passBytes data offset size n)[i] = data (n + i) := fun i hi => by simp [passBytes]
  rw [wrap32_of_lt hx] at hkept hle hlen ⊢
  generalize passBytes data offset size n = bytes at *
  have hstart : k * fsBlockSize + (offset + n) % fsBlockSize = offset + n := by
    rw [← hk, Nat.mul_comm]
    exact Nat.div_add_mod _ _
  refine ⟨.inr ?_, fun j hj => ?_, fun x c hc hout => ?_, ?_, fun h0 => ?_, fun _ => ?_⟩
  · have hlt := k.isLt
    simp only [fsBlockSize, directBlockCount, maxFileSize] at hle hlt hstart ⊢
    omega
  · rcases lt_or_ge j n with hj' | hj'
    · exact hkept _ _ (h.bytes j hj') (.inl (by omega))
    · obtain ⟨i, rfl⟩ := Nat.exists_eq_add_of_le hj'
      have hi : i < bytes.length := by omega
      have hbyte := byteAt_store hblock hb hle hi
      rwa [hstart, hget i hi, Nat.add_assoc] at hbyte
  · exact hkept x c (h.kept x c hc (by omega)) (by omega)
  · exact (size_blockFor hfor).trans h.size
  · have hmod : (offset + n) % fsBlockSize < fsBlockSize := Nat.mod_lt _ (by decide)
    omega
  · rcases Nat.eq_zero_or_pos n with h0 | h0
    · subst h0
      obtain rfl := h.nothing rfl
      refine hasRoom_iff.2 ⟨by rw [← Nat.add_zero offset, hk]; exact k.isLt, ?_⟩
      have hk' : (⟨offset / fsBlockSize, by rw [← Nat.add_zero offset, hk]; exact k.isLt⟩ :
        Fin directBlockCount) = k := Fin.ext hk
      rw [hk', hfor]
      exact Option.some_ne_none _
    · exact h.room h0

theorem Writes.add_lt (h : Writes p data offset fs fs' n) (hoffset : offset < 2 ^ 32) :
    offset + n < 2 ^ 32 := by
  have hfits := h.fits
  simp only [maxFileSize, directBlockCount, fsBlockSize] at hfits
  omega

/-- The rule of the loop of `inode_write`: it writes some of the bytes, all of them if there is
    room, and what holds at the start and is kept by a pass that goes on holds at the end. -/
theorem writeLoop_induction {Q : InodeFs ι × ℕ → Prop} {r : InodeFs ι × ℕ}
    (h : Owned fs.entry fs.blockBitmap extra) (hp : (fs.inodes p).inUse = true)
    (hoffset : offset < 2 ^ 32)
    (hloop : loop (fun s => some (writePass p data offset size s)) blockFuel (fs, 0) = some r)
    (hstart : Q (fs, 0))
    (hpass : ∀ fs₁ n k b fs₂, Q (fs₁, n) → Owned fs₁.entry fs₁.blockBitmap extra →
      (fs₁.inodes p).inUse = true → offset + n < 2 ^ 32 → n < size →
      (offset + n) / fsBlockSize = (k : Fin directBlockCount) →
      blockFor fs₁ p k = some (b, fs₂) → Q ({ fs₂ with
        blockStorage := storeBytes fs₂.blockStorage
          (b * fsBlockSize + wrap32 (offset + n) % fsBlockSize) (passBytes data offset size n) },
        n + (passBytes data offset size n).length)) :
    Q r ∧ Writes p data offset fs r.1 r.2 ∧ r.2 ≤ size ∧
      (r.2 < size → ¬HasRoom r.1 p (offset + r.2)) := by
  let Inv : InodeFs ι × ℕ → Prop := fun s => Grows p fs s.1 ∧
    Owned s.1.entry s.1.blockBitmap extra ∧ Writes p data offset fs s.1 s.2 ∧ s.2 ≤ size ∧ Q s
  have hnext : ∀ s s', Inv s → some (writePass p data offset size s) = some (.next s') →
      Inv s' := by
    rintro ⟨fs₁, n⟩ s' ⟨hgrows, howned, hwrites, hle, hQ⟩ hs'
    have hx := hwrites.add_lt hoffset
    have hp₁ : (fs₁.inodes p).inUse = true := hgrows.inUse.trans hp
    rcases writePass_cases howned hp₁ data offset size n with
      ⟨hdone, -⟩ | ⟨hidx, b, fs₂, hn, hfor, hnext⟩
    · rw [hdone] at hs'
      cases hs'
    · rw [hnext, Option.some_inj, Pass.next.injEq] at hs'
      subst hs'
      obtain ⟨hg, ho⟩ := grows_pass howned hp₁ hfor data offset size n
      have hk : (offset + n) / fsBlockSize = wrap32 (offset + n) / fsBlockSize :=
        congrArg (· / fsBlockSize) (wrap32_of_lt hx).symm
      refine ⟨hgrows.trans hg, ho, hwrites.next howned hp₁ hx hk hn hfor, ?_,
        hpass fs₁ n _ b fs₂ hQ howned hp₁ hx hn hk hfor⟩
      simp only [length_passBytes]
      omega
  have hdone : ∀ s r, Inv s → some (writePass p data offset size s) = some (.done r) →
      Q r ∧ Writes p data offset fs r.1 r.2 ∧ r.2 ≤ size ∧
        (r.2 < size → ¬HasRoom r.1 p (offset + r.2)) := by
    rintro ⟨fs₁, n⟩ r ⟨hgrows, howned, hwrites, hle, hQ⟩ hr
    have hx := hwrites.add_lt hoffset
    rcases writePass_cases howned (hgrows.inUse.trans hp) data offset size n with
      ⟨hdone, hstop⟩ | ⟨hidx, b, fs₂, hn, hfor, hnext⟩
    · rw [hdone, Option.some_inj, Pass.done.injEq] at hr
      subst hr
      refine ⟨hQ, hwrites, hle, fun hn hroom => ?_⟩
      obtain ⟨hidx, hfor⟩ := hasRoom_iff.1 hroom
      have hstop := hstop hn
      simp only [wrap32_of_lt hx] at hstop
      exact hfor (hstop hidx)
    · rw [hnext] at hr
      cases hr
  exact loop_induction hnext hdone
    ⟨Grows.refl p fs, h, Writes.refl p data offset fs, Nat.zero_le size, hstart⟩ hloop

/-- The loop of `inode_write` writes some of the bytes, and all of them if there is room. -/
theorem writeLoop_writes {r : InodeFs ι × ℕ} (h : Owned fs.entry fs.blockBitmap extra)
    (hp : (fs.inodes p).inUse = true) (hoffset : offset < 2 ^ 32)
    (hloop : loop (fun s => some (writePass p data offset size s)) blockFuel (fs, 0) = some r) :
    Writes p data offset fs r.1 r.2 ∧ r.2 ≤ size ∧
      (r.2 < size → ¬HasRoom r.1 p (offset + r.2)) :=
  (writeLoop_induction (Q := fun _ => True) h hp hoffset hloop trivial
    fun _ _ _ _ _ _ _ _ _ _ _ _ => trivial).2

/-- The size that grows does not change the bytes. -/
theorem byteAt_growSize (fs : InodeFs ι) (p q : InodePtr) (n x : ℕ) :
    (growSize fs p n).byteAt q x = fs.byteAt q x := by
  have hblocks : ((growSize fs p n).inodes q).directBlocks = (fs.inodes q).directBlocks := by
    rw [growSize]
    split_ifs
    · by_cases hq : q = p
      · rw [hq, inodes_setInode_self]
      · rw [inodes_setInode_of_ne hq]
    · rfl
  have hstorage : (growSize fs p n).blockStorage = fs.blockStorage := by
    rw [growSize]
    split_ifs <;> rfl
  simp only [InodeFs.byteAt, hblocks, hstorage]

theorem size_growSize (fs : InodeFs ι) (p : InodePtr) (n : ℕ) :
    ((growSize fs p n).inodes p).size = max (fs.inodes p).size n := by
  rw [growSize]
  split_ifs with hgt
  · rw [inodes_setInode_self]
    exact (max_eq_right hgt.le).symm
  · exact (max_eq_left (not_lt.1 hgt)).symm

/-- `inode_write` writes some of the bytes, all of them if there is room, and the size grows to
    their end. -/
theorem InodeInv.write_spec (h : InodeInv fs extra) (hp : (fs.inodes p).inUse = true)
    (data : ℕ → UInt8) (hoffset : offset < 2 ^ 32) (size : ℕ) :
    ∃ n fs₁, inodeWrite fs (some p) (some data) offset size =
        some (n, growSize fs₁ p (wrap32 (offset + n))) ∧
      Writes p data offset fs fs₁ n ∧ Grows p fs fs₁ ∧
      Owned fs₁.entry fs₁.blockBitmap extra ∧ n ≤ size ∧
      (n < size → ¬HasRoom fs₁ p (offset + n)) := by
  obtain ⟨r, hloop, hgrows, howned⟩ := writeLoop_spec h.owned hp data offset size
  obtain ⟨hwrites, hle, hstop⟩ := writeLoop_writes h.owned hp hoffset hloop
  exact ⟨r.2, r.1, inodeWrite_eq hloop, hwrites, hgrows, howned, hle, hstop⟩

/-- No gap comes up where a byte was. -/
theorem Writes.ne_none (h : Writes p data offset fs fs' n) {x : ℕ} {c : UInt8}
    (hc : fs.byteAt p x = some c) : fs'.byteAt p x ≠ none := by
  by_cases hx : x < offset ∨ offset + n ≤ x
  · rw [h.kept x c hc hx]
    exact Option.some_ne_none c
  · obtain ⟨j, rfl⟩ := Nat.exists_eq_add_of_le (not_lt.1 fun hlt => hx (.inl hlt))
    rw [h.bytes j (by omega)]
    exact Option.some_ne_none _

end Write

/-! ## Reading back -/

/-- After `n` of the bytes of `data` were written to `p`, from `offset` on. -/
structure ReadsBack (fs fs' : InodeFs ι) (p : InodePtr) (data : ℕ → UInt8) (offset size n : ℕ) :
    Prop where
  le : n ≤ size
  /-- The bytes are read back. -/
  back : inodeRead fs' (some p) offset n = some ((List.range n).map data)
  /-- A byte that could be read before, and was not written, is still read. -/
  frame : ∀ q, (fs.inodes q).inUse → ∀ offset' < 2 ^ 32, ∀ size', ∃ buf buf',
    inodeRead fs (some q) offset' size' = some buf ∧
    inodeRead fs' (some q) offset' size' = some buf' ∧
    ∀ j < buf.length, (q ≠ p ∨ offset' + j < offset ∨ offset + n ≤ offset' + j) →
      buf'[j]? = buf[j]?
  /-- All bytes are written, unless the file is full or no block is free. -/
  stop : n < size → offset + n ≥ directBlockCount * fsBlockSize ∨
    ∀ b, 1 ≤ b → b < maxBlocks → blockIsAllocated fs' b

section ReadsBack

variable {extra : List ℕ} {data : ℕ → UInt8} {offset size n : ℕ}

/-- What was read before a write, of the i-node that is written. -/
theorem Writes.frame (h : Writes p data offset fs fs' n) {m : ℕ} {offset' : ℕ}
    (hvalid : ∀ k, (fs.inodes p).directBlocks k < maxBlocks)
    (hvalid' : ∀ k, ((growSize fs' p m).inodes p).directBlocks k < maxBlocks)
    (hoffset' : offset' < 2 ^ 32) (size' : ℕ) : ∃ buf buf',
      inodeRead fs (some p) offset' size' = some buf ∧
      inodeRead (growSize fs' p m) (some p) offset' size' = some buf' ∧
      ∀ j < buf.length, (offset' + j < offset ∨ offset + n ≤ offset' + j) → buf'[j]? = buf[j]? := by
  obtain ⟨buf, hread, hreads⟩ := inodeRead_spec hvalid hoffset' size'
  obtain ⟨buf', hread', hreads'⟩ := inodeRead_spec hvalid' hoffset' size'
  refine ⟨buf, buf', hread, hread', fun j hj hout => ?_⟩
  have hsize : (fs.inodes p).size ≤ ((growSize fs' p m).inodes p).size := by
    rw [size_growSize, h.size]
    exact le_max_left _ _
  refine hreads.getElem?_eq hreads' (readSize_mono hsize ..) (fun x c hc => ?_) hj ?_
  · rw [byteAt_growSize]
    exact h.ne_none hc
  · rw [byteAt_growSize, hreads.bytes j hj]
    exact h.kept _ _ (hreads.bytes j hj) hout

/-- In every state that is reached, what `inode_write` writes is read back, and no other byte
    changes. -/
theorem write_read_back (idx : Index ι) (index : ι) (fs₀ : InodeFs ι) (calls : List InodeCall)
    (fs : InodeFs ι) (hrun : inodeRun idx index fs₀ calls = some fs) (p : InodePtr)
    (hp : (fs.inodes p).inUse) (data : ℕ → UInt8) (offset size : ℕ)
    (hoffset : offset < 2 ^ 32) : ∃ n fs',
      inodeWrite fs (some p) (some data) offset size = some (n, fs') ∧
      ReadsBack fs fs' p data offset size n := by
  have hinv := inodeInv_run hrun
  obtain ⟨n, fs₁, hwrite, hwrites, hgrows, howned, hle, hstop⟩ :=
    hinv.write_spec hp data hoffset size
  have hwrap := wrap32_of_lt (hwrites.add_lt hoffset)
  have hgrows' := hgrows.trans (grows_growSize fs₁ p (wrap32 (offset + n)))
  have hinv' : InodeInv (growSize fs₁ p (wrap32 (offset + n))) [] := hinv.grows hgrows' (by
    rwa [entry_growSize, blockBitmap_growSize])
  have hvalid' := hinv'.valid (hgrows'.inUse.trans hp)
  refine ⟨n, _, hwrite, hle, ?_, fun q hq offset' hoffset' size' => ?_, fun hn => ?_⟩
  · obtain ⟨buf, hread, hreads⟩ := inodeRead_spec hvalid' hoffset n
    have hend : n = 0 ∨ offset + n ≤ ((growSize fs₁ p (wrap32 (offset + n))).inodes p).size := by
      rw [size_growSize, hwrap]
      exact .inr (le_max_right _ _)
    rw [readSize_of_le (hwrites.add_lt hoffset) hend] at hreads
    rw [hread, hreads.eq_map fun j hj => (byteAt_growSize ..).trans (hwrites.bytes j hj)]
  · by_cases hqp : q = p
    · subst hqp
      obtain ⟨buf, buf', hread, hread', hkept⟩ :=
        hwrites.frame (hinv.valid hq) hvalid' hoffset' size'
      refine ⟨buf, buf', hread, hread', fun j hj hout => hkept j hj ?_⟩
      exact hout.resolve_left fun hne => hne rfl
    · obtain ⟨buf, hread, -⟩ := inodeRead_spec (hinv.valid hq) hoffset' size'
      refine ⟨buf, buf, hread, ?_, fun _ _ _ => rfl⟩
      rw [hinv.read_of_grows hp hq hqp hgrows', hread]
  · refine or_iff_not_imp_left.2 fun hlt b hb hlt' => ?_
    by_contra hfree
    rw [blockIsAllocated, blockBitmap_growSize, Bool.not_eq_true] at hfree
    refine hstop hn ⟨?_, .inr ⟨b, Nat.pos_iff_ne_zero.1 hb, hlt', hfree⟩⟩
    simp only [directBlockCount, fsBlockSize] at hlt ⊢
    omega

/-- Six hundred bytes are written over the end of ten, and into a second block. -/
theorem write_read_back_six_hundred : ∃ fs n fs',
    inodeRun listIndex [] zeroFs [.alloc 1, .write 0 (fun _ => 65) 0 10] = some fs ∧
    (fs.inodes 0).inUse ∧ inodeWrite fs (some 0) (some .ofNat) 5 600 = some (n, fs') ∧
    ReadsBack fs fs' 0 .ofNat 5 600 n := by
  have huse : (inodeRun listIndex [] zeroFs [.alloc 1, .write 0 (fun _ => 65) 0 10]).map
      (fun fs => (fs.inodes 0).inUse) = some true := by
    decide +kernel
  obtain ⟨fs, hrun, hp⟩ := Option.map_eq_some_iff.1 huse
  obtain ⟨n, fs', hwrite, hback⟩ :=
    write_read_back listIndex [] zeroFs _ fs hrun 0 hp .ofNat 5 600 (by norm_num)
  exact ⟨fs, n, fs', hrun, hp, hwrite, hback⟩

end ReadsBack

end Fru1tOs
