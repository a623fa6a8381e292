import Fru1tOs.Lib.Bitmap
import Fru1tOs.Lib.Bytes
import Fru1tOs.Lib.Loop

/-!
# I-nodes

The i-nodes of `inode.c`: a table of i-nodes with ten direct blocks each, a storage of
blocks, and a bitmap for each. A block that is in the storage is written and read
byte by byte. Numbers are words of 32 bits; sums wrap.

An i-node is also entered into a B-tree by its number, and the result is ignored. The
operations here work with any such index (`Index`), whose calls may do anything to it;
they are made for the tree of `btree.c` in `Fru1tOs.Inode.Names`. A call that does not
return is `none`.

The timestamps of an i-node, which nothing reads, and the messages are left out.
-/

namespace Fru1tOs

open Lib

/-- `MAX_INODE_COUNT`. -/
abbrev maxInodeCount : ℕ := 256

/-- `DIRECT_BLOCKS`. -/
abbrev directBlockCount : ℕ := 10

/-- `FS_BLOCK_SIZE`. -/
abbrev fsBlockSize : ℕ := 512

/-- `MAX_BLOCKS`. -/
abbrev maxBlocks : ℕ := 1024

/-- `PERM_READ | PERM_WRITE`. -/
abbrev permReadWrite : ℕ := 0x4 ||| 0x2

/-- A word of 32 bits. -/
abbrev wrap32 (n : ℕ) : ℕ := n % 2 ^ 32

/-- `struct inode`. -/
structure Inode where
  inodeNum : ℕ
  type : ℕ
  size : ℕ
  permissions : ℕ
  linkCount : ℕ
  blockCount : ℕ
  directBlocks : Fin directBlockCount → ℕ
  indirectBlock : ℕ
  doubleIndirectBlock : ℕ
  inUse : Bool

/-- The place of an i-node in the table, as a pointer to it. -/
abbrev InodePtr := Fin maxInodeCount

/-- `struct btree_filesystem`, with an index of type `ι` in place of the trees. -/
structure InodeFs (ι : Type) where
  index : ι
  inodes : InodePtr → Inode
  blockStorage : Mem
  blockBitmap : Bitmap
  inodeBitmap : Bitmap
  totalInodes : ℤ
  freeInodes : ℤ
  totalBlocks : ℤ
  freeBlocks : ℤ

/-- What `inode.c` calls to enter an i-node into the tree of i-nodes and to remove it. -/
structure Index (ι : Type) where
  insert : ι → ℕ → InodePtr → Option ι
  delete : ι → ℕ → Option ι

/-- The file system with an i-node changed. -/
def InodeFs.setInode {ι : Type} (fs : InodeFs ι) (i : InodePtr) (inode : Inode) : InodeFs ι :=
  { fs with inodes := Function.update fs.inodes i inode }

section Model

variable {ι : Type}

/-- `inode_fs_init`, with the storage that `kmalloc` gives. The fields that it does not set are as
    they were. -/
def inodeFsInit (index : ι) (fs : InodeFs ι) : InodeFs ι :=
  { fs with
    index := index
    blockBitmap := fun i => if i < maxBlocks / 32 then 0 else fs.blockBitmap i
    inodeBitmap := fun i => if i < maxInodeCount / 32 then 0 else fs.inodeBitmap i
    inodes := fun i => { fs.inodes i with inUse := false, inodeNum := i }
    totalInodes := maxInodeCount
    freeInodes := maxInodeCount
    totalBlocks := maxBlocks
    freeBlocks := maxBlocks }

/-! ## Blocks -/

/-- `block_get_ptr`: the place of the block in the storage. -/
def blockGetPtr (blockNum : ℕ) : Option ℕ :=
  if blockNum = 0 ∨ blockNum ≥ maxBlocks then none else some (blockNum * fsBlockSize)

/-- `block_is_allocated`. -/
def blockIsAllocated (fs : InodeFs ι) (blockNum : ℕ) : Bool := fs.blockBitmap.test blockNum

/-- A block of zeros. -/
@[irreducible] def zeroBlock : List UInt8 := List.replicate fsBlockSize 0

/-- `block_alloc`: the first free block from 1 on, cleared, or 0. -/
def blockAlloc (fs : InodeFs ι) : ℕ × InodeFs ι :=
  match (List.range' 1 (maxBlocks - 1)).find? fun i => !fs.blockBitmap.test i with
  | some i =>
    (i, { fs with
      blockBitmap := fs.blockBitmap.set i
      freeBlocks := fs.freeBlocks - 1
      blockStorage := match blockGetPtr i with
        | some ptr => storeBytes fs.blockStorage ptr zeroBlock
        | none => fs.blockStorage })
  | none => (0, fs)

/-- `block_free`. -/
def blockFree (fs : InodeFs ι) (blockNum : ℕ) : InodeFs ι :=
  if blockNum = 0 ∨ blockNum ≥ maxBlocks then fs
  else { fs with
    blockBitmap := fs.blockBitmap.clear blockNum
    freeBlocks := fs.freeBlocks + 1 }

/-! ## Allocation of i-nodes -/

/-- `inode_alloc`. `NULL` is `none`. -/
def inodeAlloc (idx : Index ι) (fs : InodeFs ι) (type : ℕ) :
    Option (Option InodePtr × InodeFs ι) :=
  match (List.finRange maxInodeCount).find? fun i : InodePtr => !fs.inodeBitmap.test i with
  | none => some (none, fs)
  | some i => do
    let fs := { fs with inodeBitmap := fs.inodeBitmap.set i }
    let fs := fs.setInode i
      { inodeNum := i
        type := type
        size := 0
        permissions := permReadWrite
        linkCount := 1
        blockCount := 0
        directBlocks := fun _ => 0
        indirectBlock := 0
        doubleIndirectBlock := 0
        inUse := true }
    let index ← idx.insert fs.index i i
    return (some i, { fs with index := index, freeInodes := fs.freeInodes - 1 })

/-- `inode_free`. -/
def inodeFree (idx : Index ι) (fs : InodeFs ι) (inode : Option InodePtr) : Option (InodeFs ι) :=
  match inode with
  | none => some fs
  | some p =>
    if (fs.inodes p).inUse = false then some fs
    else do
      let node := fs.inodes p
      let fs := (List.finRange directBlockCount).foldl (fun fs (i : Fin directBlockCount) =>
        if i < node.blockCount ∧ node.directBlocks i > 0 then blockFree fs (node.directBlocks i)
        else fs) fs
      let index ← idx.delete fs.index node.inodeNum
      let fs := { fs with index := index, inodeBitmap := fs.inodeBitmap.clear node.inodeNum }
      let fs := fs.setInode p { fs.inodes p with inUse := false }
      return { fs with freeInodes := fs.freeInodes + 1 }

/-! ## Reading and writing -/

/-- A pass of the loop of `inode_read`, with what was read so far. -/
def readPass (fs : InodeFs ι) (inode : Inode) (offset size : ℕ) (buf : List UInt8) :
    Pass (List UInt8) (List UInt8) :=
  let bytesRead := buf.length
  if bytesRead < size then
    let blockIdx := wrap32 (offset + bytesRead) / fsBlockSize
    let blockOffset := wrap32 (offset + bytesRead) % fsBlockSize
    let bytesToRead := min (fsBlockSize - blockOffset) (size - bytesRead)
    if h : blockIdx < directBlockCount then
      if inode.directBlocks ⟨blockIdx, h⟩ = 0 then .done buf
      else match blockGetPtr (inode.directBlocks ⟨blockIdx, h⟩) with
        | none => .done buf
        | some ptr => .next (buf ++ loadBytes fs.blockStorage (ptr + blockOffset) bytesToRead)
    else .done buf
  else .done buf

/-- Bound for the loops of `inode_read` and `inode_write`: every pass but the last ends at the end
    of a block. -/
def blockFuel : ℕ := directBlockCount + 2

/-- `inode_read`: the bytes that are written to the buffer. Their number is the result. -/
def inodeRead (fs : InodeFs ι) (inode : Option InodePtr) (offset size : ℕ) :
    Option (List UInt8) :=
  match inode with
  | none => some []
  | some p =>
    let inode := fs.inodes p
    if offset ≥ inode.size then some []
    else
      let size := if wrap32 (offset + size) > inode.size then inode.size - offset else size
      loop (fun buf => some (readPass fs inode offset size buf)) blockFuel []

/-- `inode->direct_blocks[i] = block; inode->block_count++`. -/
def addBlock (inode : Inode) (i : Fin directBlockCount) (block : ℕ) : Inode :=
  { inode with
    directBlocks := Function.update inode.directBlocks i block
    blockCount := wrap32 (inode.blockCount + 1) }

/-- `inode_write`, allocation of the block: the block of the index `i`, unless there is none. -/
def blockFor (fs : InodeFs ι) (p : InodePtr) (i : Fin directBlockCount) :
    Option (ℕ × InodeFs ι) :=
  if (fs.inodes p).directBlocks i = 0 then
    let (newBlock, fs) := blockAlloc fs
    if newBlock = 0 then none
    else some (newBlock, fs.setInode p (addBlock (fs.inodes p) i newBlock))
  else some ((fs.inodes p).directBlocks i, fs)

/-- A pass of the loop of `inode_write`, with the number of bytes written so far. -/
def writePass (p : InodePtr) (data : ℕ → UInt8) (offset size : ℕ) (s : InodeFs ι × ℕ) :
    Pass (InodeFs ι × ℕ) (InodeFs ι × ℕ) :=
  let (fs, bytesWritten) := s
  if bytesWritten < size then
    let blockIdx := wrap32 (offset + bytesWritten) / fsBlockSize
    let blockOffset := wrap32 (offset + bytesWritten) % fsBlockSize
    let bytesToWrite := min (fsBlockSize - blockOffset) (size - bytesWritten)
    if h : blockIdx < directBlockCount then
      match blockFor fs p ⟨blockIdx, h⟩ with
      | none => .done (fs, bytesWritten)
      | some (blockNum, fs) =>
        match blockGetPtr blockNum with
        | none => .done (fs, bytesWritten)
        | some ptr =>
          let bytes := (List.range bytesToWrite).map fun i => data (bytesWritten + i)
          .next ({ fs with blockStorage := storeBytes fs.blockStorage (ptr + blockOffset) bytes },
            bytesWritten + bytesToWrite)
    else .done (fs, bytesWritten)
  else .done (fs, bytesWritten)

/-- `inode_write`. -/
def inodeWrite (fs : InodeFs ι) (inode : Option InodePtr) (data : Option (ℕ → UInt8))
    (offset size : ℕ) : Option (ℕ × InodeFs ι) :=
  match inode, data with
  | some p, some data => do
    let (fs, bytesWritten) ← loop (fun s => some (writePass p data offset size s)) blockFuel (fs, 0)
    let inode := fs.inodes p
    let fs := if wrap32 (offset + bytesWritten) > inode.size then
        fs.setInode p { inode with size := wrap32 (offset + bytesWritten) }
      else fs
    return (bytesWritten, fs)
  | _, _ => some (0, fs)

/-- A pass of the loop of `inode_truncate`: the block of the index `i` is freed. -/
def truncatePass (p : InodePtr) (fs : InodeFs ι) (i : Fin directBlockCount) : InodeFs ι :=
  let inode := fs.inodes p
  if inode.directBlocks i > 0 then
    (blockFree fs (inode.directBlocks i)).setInode p
      { inode with directBlocks := Function.update inode.directBlocks i 0 }
  else fs

/-- The blocks needed for a size, as `inode_truncate` computes them. -/
def blocksFor (newSize : ℕ) : ℕ := wrap32 (newSize + fsBlockSize - 1) / fsBlockSize

/-- `inode_truncate`. -/
def inodeTruncate (fs : InodeFs ι) (inode : Option InodePtr) (newSize : ℕ) : ℤ × InodeFs ι :=
  match inode with
  | none => (-1, fs)
  | some p =>
    if newSize ≥ (fs.inodes p).size then (0, fs)
    else
      let newBlocks := blocksFor newSize
      let freed := (List.finRange directBlockCount).filter
        fun i : Fin directBlockCount => newBlocks ≤ i ∧ i < (fs.inodes p).blockCount
      let fs := freed.foldl (truncatePass p) fs
      (0, fs.setInode p { fs.inodes p with size := newSize, blockCount := newBlocks })

end Model

end Fru1tOs
