import Fru1tOs.Common.Render
import Fru1tOs.Heap.Coalesce

/-!
# The statistics of the heap

`print_memory_stats` goes once through the list of blocks and adds up their sizes, those of the free
ones and those of the used ones. In every state of a run it prints the number of blocks, the sum of
the payloads of the live pointers, and what is left but for the headers (`memory_stats_right`): no
counter overflows.
-/

namespace Fru1tOs

open Lib

/-- The variables of `print_memory_stats`. -/
structure MemoryStats where
  totalFree : ℤ
  totalUsed : ℤ
  blocks : ℤ

/-- An `int` as an argument. -/
def intArg (x : ℤ) : VaArg := .word (BitVec.ofInt 32 x)

/-- A pass of the loop of `print_memory_stats`. -/
def statsPass (m : Mem) : ℕ × MemoryStats → Option (Pass (ℕ × MemoryStats) MemoryStats)
  | (current, t) =>
    if current = 0 then some (.done t)
    else
      let t := { t with blocks := (t.blocks + 1).bmod (2 ^ 32) }
      let size := load32 m (current + 4)
      let t := if load32 m current ≠ 0 then
          { t with totalFree := (t.totalFree + size).bmod (2 ^ 32) }
        else { t with totalUsed := (t.totalUsed + size).bmod (2 ^ 32) }
      some (.next (load32 m (current + 8), t))

/-- `print_memory_stats`. -/
def printMemoryStats (s : Heap) : Option (List UInt8) := do
  let t ← loop (statsPass s.mem) heapFuel (s.freeList, ⟨0, 0, 0⟩)
  say "Memory stats: %d blocks, %d bytes free, %d bytes used\n"
    [intArg t.blocks, intArg t.totalFree, intArg t.totalUsed]

/-- The text for the numbers of blocks and bytes. -/
def statsText (blocks free used : ℕ) : List UInt8 :=
  text "Memory stats: %d blocks, %d bytes free, %d bytes used\n"
    [intArg blocks, intArg free, intArg used]

/-! ## Sums -/

/-- The sizes of the free blocks. -/
def freeBytes (bs : List Block) : ℕ := ((bs.filter (·.free)).map Block.size).sum

/-- The sizes of the used blocks. -/
def usedBytes (bs : List Block) : ℕ := ((bs.filter (!·.free)).map Block.size).sum

section Sums

variable {a : ℕ} {b : Block} {bs : List Block}

theorem freeBytes_cons (b : Block) (bs : List Block) :
    freeBytes (b :: bs) = (if b.free then b.size else 0) + freeBytes bs := by
  cases hb : b.free <;> simp [freeBytes, hb]

theorem usedBytes_cons (b : Block) (bs : List Block) :
    usedBytes (b :: bs) = (if b.free then 0 else b.size) + usedBytes bs := by
  cases hb : b.free <;> simp [usedBytes, hb]

/-- The blocks take their sizes and their headers. -/
theorem endOf_eq_add (a : ℕ) (bs : List Block) :
    endOf a bs = a + (12 * bs.length + freeBytes bs + usedBytes bs) := by
  induction bs generalizing a with
  | nil => rfl
  | cons b bs ih =>
    rw [endOf_cons, ih, List.length_cons, freeBytes_cons, usedBytes_cons]
    cases b.free <;> simp only [if_true, Bool.false_eq_true, if_false] <;> omega

theorem length_place (a : ℕ) (bs : List Block) : (place a bs).length = bs.length := by
  induction bs generalizing a with
  | nil => rfl
  | cons b bs ih => rw [place_cons, List.length_cons, ih, List.length_cons]

theorem sum_usedAt (a : ℕ) (bs : List Block) :
    ((usedAt a bs).map Prod.snd).sum = usedBytes bs := by
  induction bs generalizing a with
  | nil => rfl
  | cons b bs ih =>
    rw [usedAt_cons, List.map_append, List.sum_append, ih, usedBytes_cons]
    cases b.free <;> rfl

/-- The used blocks are those of the live pointers. -/
theorem HeapInv.sum_payload {L : HeapLayout} {s : HeapRun} (h : HeapInv L s bs) :
    (s.live.map s.payload).sum = usedBytes bs := by
  have hpayload : ∀ u ∈ usedAt L.heap bs, s.payload u.1 = u.2 := fun u hu => by
    have hlive := h.mem_usedAt_of_live (h.live.symm.subset (List.mem_map_of_mem hu))
    exact congrArg Prod.snd (List.inj_on_of_nodup_map (nodup_usedAt L.heap bs) hlive hu rfl)
  rw [← sum_usedAt L.heap bs, (h.live.map s.payload).sum_eq, List.map_map]
  exact congrArg List.sum (List.map_congr_left hpayload)

end Sums

/-! ## The walk -/

/-- The numbers for the blocks that were passed. -/
def statsOfBlocks (bs : List Block) : MemoryStats := ⟨freeBytes bs, usedBytes bs, bs.length⟩

theorem bmod_natCast {n : ℕ} (h : n < 2 ^ 31) : (n : ℤ).bmod (2 ^ 32) = n := by
  rw [Int.bmod_def]
  omega

/-- A pass adds a block. -/
theorem statsPass_block {L : HeapLayout} {m : Mem} {bs₁ bs₂ : List Block} {b : Block}
    (h : Tiled L m (bs₁ ++ b :: bs₂)) :
    statsPass m (endOf L.heap bs₁, statsOfBlocks bs₁) =
      some (.next (walkAt (endOf L.heap (bs₁ ++ [b])) bs₂, statsOfBlocks (bs₁ ++ [b]))) := by
  have hb := h.isBlock
  -- The sums are not larger than the heap.
  have hsum := endOf_eq_add L.heap (bs₁ ++ [b])
  have hle := le_endOf (endOf L.heap (bs₁ ++ [b])) bs₂
  rw [← endOf_append, List.append_assoc, List.singleton_append, h.ends, HeapLayout.heapEnd,
    heapSize] at hle
  have hfree' := bmod_natCast (n := freeBytes (bs₁ ++ [b])) (by omega)
  have hused' := bmod_natCast (n := usedBytes (bs₁ ++ [b])) (by omega)
  have hblocks' := bmod_natCast (n := (bs₁ ++ [b]).length) (by omega)
  have hlen : (bs₁ ++ [b]).length = bs₁.length + 1 := List.length_append
  have hfree : freeBytes (bs₁ ++ [b]) = freeBytes bs₁ + if b.free then b.size else 0 := by
    cases hb : b.free <;> simp [freeBytes, hb]
  have hused : usedBytes (bs₁ ++ [b]) = usedBytes bs₁ + if b.free then 0 else b.size := by
    cases hb : b.free <;> simp [usedBytes, hb]
  rw [hfree] at hfree'
  rw [hused] at hused'
  rw [hlen] at hblocks'
  push_cast at hfree' hused' hblocks'
  rw [statsPass, if_neg (endOf_ne_zero L bs₁), h.next, hb.isFree, hb.size, statsOfBlocks,
    statsOfBlocks, hlen, hfree, hused]
  cases hbf : b.free with
  | true =>
    simp only [hbf, if_true] at hfree'
    simp [hfree', hblocks']
  | false =>
    simp only [hbf, Bool.false_eq_true, if_false] at hused'
    simp [hused', hblocks']

/-- The walk adds up all blocks. -/
theorem stats_loop {L : HeapLayout} {m : Mem} {bs₁ bs₂ : List Block} (h : Tiled L m (bs₁ ++ bs₂))
    {n : ℕ} (hn : bs₂.length < n) :
    loop (statsPass m) n (walkAt (endOf L.heap bs₁) bs₂, statsOfBlocks bs₁) =
      some (statsOfBlocks (bs₁ ++ bs₂)) := by
  induction bs₂ generalizing bs₁ n with
  | nil =>
    obtain ⟨n, rfl⟩ : ∃ k, n = k + 1 := ⟨n - 1, by omega⟩
    rw [List.append_nil]
    refine loop_done ?_
    rw [walkAt, if_pos rfl, statsPass, if_pos rfl]
  | cons b bs₂ ih =>
    obtain ⟨n, rfl⟩ : ∃ k, n = k + 1 := ⟨n - 1, by omega⟩
    rw [walkAt, if_neg (List.cons_ne_nil b bs₂), loop_next (statsPass_block h),
      ih (by rwa [List.append_assoc, List.singleton_append]) (by simpa using hn),
      List.append_assoc, List.singleton_append]

/-- `print_memory_stats` prints the sums. -/
theorem HeapInv.printMemoryStats {L : HeapLayout} {s : HeapRun} {bs : List Block}
    (h : HeapInv L s bs) : Fru1tOs.printMemoryStats s.heap =
      some (statsText bs.length (freeBytes bs) (usedBytes bs)) := by
  have hwalk : s.heap.freeList = walkAt (endOf L.heap []) bs :=
    h.freeList.trans (if_neg h.tiled.ne_nil).symm
  have hloop := stats_loop (show Tiled L s.heap.mem ([] ++ bs) from h.tiled) h.tiled.length_lt
  rw [← hwalk] at hloop
  rw [Fru1tOs.printMemoryStats]
  refine (congrArg (Option.bind · _) hloop).trans ?_
  exact say_eq (show Takes _ [.word, .word, .word] by decide +kernel)

/-- In every run, what `print_memory_stats` prints are the number of the blocks, the bytes that are
    free, and the payloads of the live pointers; with the headers they are the heap. -/
theorem memory_stats_right (L : HeapLayout) (s₀ : Heap) (calls : List HeapCall) :
    ∃ s free, run HeapRun.call (HeapRun.init L s₀) calls = some s ∧
      let blocks := (blockList s.heap.mem heapFuel s.heap.freeList).length
      let used := (s.live.map s.payload).sum
      printMemoryStats s.heap = some (statsText blocks free used) ∧
        12 * blocks + free + used = heapSize := by
  obtain ⟨s, hs, hinv⟩ := heapInv_run L s₀ calls
  refine ⟨s, freeBytes (runBlocks L calls), hs, ?_⟩
  have hend := hinv.tiled.ends
  rw [endOf_eq_add, HeapLayout.heapEnd] at hend
  simp only [hinv.blockList_eq, length_place, hinv.sum_payload]
  exact ⟨hinv.printMemoryStats, by omega⟩

end Fru1tOs
