import Fru1tOs.Lib.Bytes
import Fru1tOs.Lib.Loop

/-!
# The heap

The allocator of `kernel.c`: an array of bytes cut in blocks, each with a header
(`is_free`, `size` and `next`, of 4 bytes each) followed by its payload. `kmalloc`
takes the first free block that is large enough, cutting off what it does not
need; `kfree` marks a block free and goes once through the list, merging adjacent
free blocks.

Headers and payloads are in the same memory of bytes (`Lib.Mem`), with pointers of
32 bits, `NULL` being zero. Sizes are 32-bit numbers with explicit wrapping; the
array lies within the address space (`HeapLayout`), so that the addresses of its
blocks do not wrap.
-/

namespace Fru1tOs

open Lib

/-- `HEAP_SIZE`. -/
def heapSize : ℕ := 4 * 1024 * 1024

/-- Where the array `heap` is: not at `NULL`, and within the address space. -/
structure HeapLayout where
  heap : ℕ
  heap_pos : 0 < heap
  heap_fits : heap + heapSize ≤ 2 ^ 32

instance : Inhabited HeapLayout := ⟨⟨0x80210000, by decide, by decide⟩⟩

/-- The end of the array. -/
def HeapLayout.heapEnd (L : HeapLayout) : ℕ := L.heap + heapSize

/-- The memory, and the static variable `free_list`. -/
structure Heap where
  mem : Mem
  freeList : ℕ

/-- Bound for the loops on the list of blocks: a block has at least a header. -/
def heapFuel : ℕ := heapSize / 12 + 1

/-- `memory_init`. -/
def memoryInit (L : HeapLayout) (s : Heap) : Heap :=
  let m := store32 s.mem L.heap 1
  let m := store32 m (L.heap + 4) (heapSize - 12)
  let m := store32 m (L.heap + 8) 0
  { mem := m, freeList := L.heap }

/-! ## Allocation -/

/-- `kmalloc` has found the block `current`: what is beyond `size` bytes and a header is
    cut off as a block of its own, and the block is marked used. -/
def kmallocTake (m : Mem) (current size : ℕ) : Mem :=
  let m := if load32 m (current + 4) > (size + 12) % 2 ^ 32 then
      let newBlock := current + 12 + size
      let m := store32 m newBlock 1
      let m := store32 m (newBlock + 4) (load32 m (current + 4) - size - 12)
      let m := store32 m (newBlock + 8) (load32 m (current + 8))
      let m := store32 m (current + 4) size
      store32 m (current + 8) newBlock
    else m
  store32 m current 0

/-- A pass of the search of `kmalloc`, with the block it finds, if any. -/
def kmallocPass (m : Mem) (size current : ℕ) : Option (Pass ℕ (Option ℕ)) :=
  if current = 0 then some (.done none)
  else if load32 m current ≠ 0 ∧ load32 m (current + 4) ≥ size then some (.done (some current))
  else some (.next (load32 m (current + 8)))

/-- `kmalloc`, of a 32-bit `size`, which is rounded up to a multiple of 8. -/
def kmalloc (s : Heap) (size : ℕ) : Option (ℕ × Heap) :=
  if size = 0 then some (0, s)
  else do
    let size := (size + 7) % 2 ^ 32 / 8 * 8
    match ← loop (kmallocPass s.mem size) heapFuel s.freeList with
    | none => return (0, s)
    | some current => return (current + 12, { s with mem := kmallocTake s.mem current size })

/-! ## Freeing -/

/-- A pass of the merging of `kfree`. -/
def kfreePass : Mem × ℕ → Option (Pass (Mem × ℕ) Mem)
  | (m, current) =>
    if current = 0 then some (.done m)
    else
      let next := load32 m (current + 8)
      if next = 0 then some (.done m)
      else
        let m := if load32 m current ≠ 0 ∧ load32 m next ≠ 0 ∧
            current + 12 + load32 m (current + 4) = next then
            let m := store32 m (current + 4)
              ((load32 m (current + 4) + (12 + load32 m (next + 4))) % 2 ^ 32)
            store32 m (current + 8) (load32 m (load32 m (current + 8) + 8))
          else m
        some (.next (m, load32 m (current + 8)))

/-- `kfree`. -/
def kfree (s : Heap) (ptr : ℕ) : Option Heap :=
  if ptr = 0 then some s
  else do
    let m := store32 s.mem (ptr - 12) 1
    let m ← loop kfreePass heapFuel (m, s.freeList)
    return { s with mem := m }

end Fru1tOs
