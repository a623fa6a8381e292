import Fru1tOs.Heap.Coalesce

/-!
# Room in the heap

How far the heap can be cut up. When a free block follows a free one in one place at most
(`Compact`), there are at most two more free blocks than used ones (`countP_free_le`). The used
blocks are not much larger than what was asked for, so that with few of them the free ones cannot
all be small: `Compact.exists_free`.
-/

namespace Fru1tOs

open Lib

/-- In one place at most a free block follows a free one, and the payloads of the used blocks have
    at most `k` bytes. -/
structure Compact (k : ℕ) (bs : List Block) : Prop where
  adjacent : adjFree bs ≤ 1
  used : ∀ b ∈ bs, b.free = false → b.size ≤ k

/-! ## Counting -/

section Counting

variable {a k n : ℕ} {bs : List Block}

/-- Between two free blocks there is a used one, but in the places that `adjFree` counts. -/
theorem countP_free_le (bs : List Block) :
    bs.countP (·.free) ≤ bs.countP (!·.free) + adjFree bs + (headFree bs).toNat := by
  induction bs with
  | nil => exact Nat.zero_le _
  | cons b bs ih =>
    have hhead := Bool.toNat_le (headFree bs)
    rw [List.countP_cons, List.countP_cons, adjFree_cons, headFree_cons]
    cases hb : b.free with
    | false =>
      simp only [Bool.false_eq_true, if_false, Bool.not_false, if_true, Bool.false_and,
        Bool.toNat_false]
      omega
    | true =>
      simp only [Bool.false_eq_true, if_false, Bool.not_true, if_true, Bool.true_and,
        Bool.toNat_true]
      omega

/-- The room that the blocks take, with bounds for the sizes of the used and of the free ones. -/
theorem endOf_le (hused : ∀ b ∈ bs, b.free = false → b.size ≤ k)
    (hfree : ∀ b ∈ bs, b.free = true → b.size ≤ n) :
    endOf a bs ≤ a + bs.countP (!·.free) * (12 + k) + bs.countP (·.free) * (12 + n) := by
  induction bs generalizing a with
  | nil => simp
  | cons b bs ih =>
    have hrest := ih (a := a + 12 + b.size) (fun c hc => hused c (List.mem_cons_of_mem _ hc))
      fun c hc => hfree c (List.mem_cons_of_mem _ hc)
    rw [endOf_cons, List.countP_cons, List.countP_cons]
    cases hb : b.free with
    | false =>
      have := hused b List.mem_cons_self hb
      simp only [Bool.false_eq_true, if_false, Bool.not_false, if_true, add_mul]
      omega
    | true =>
      have := hfree b List.mem_cons_self hb
      simp only [Bool.false_eq_true, if_false, Bool.not_true, if_true, add_mul]
      omega

theorem length_usedAt (a : ℕ) (bs : List Block) :
    (usedAt a bs).length = bs.countP (!·.free) := by
  induction bs generalizing a with
  | nil => rfl
  | cons b bs ih =>
    rw [usedAt_cons, List.length_append, ih, List.countP_cons, Nat.add_comm]
    cases b.free <;> rfl

/-- With few used blocks a free one is large enough. -/
theorem Compact.exists_free (h : Compact k bs)
    (hroom : a + bs.countP (!·.free) * (12 + k) + (bs.countP (!·.free) + 2) * (12 + n) <
      endOf a bs) : ∃ b ∈ bs, b.free = true ∧ n < b.size := by
  by_contra hn
  push Not at hn
  have hcount := countP_free_le bs
  have hhead := Bool.toNat_le (headFree bs)
  have hadj := h.adjacent
  have hend := endOf_le (a := a) h.used hn
  have hfree : bs.countP (·.free) * (12 + n) ≤ (bs.countP (!·.free) + 2) * (12 + n) :=
    Nat.mul_le_mul_right _ (by omega)
  omega

end Counting

/-! ## Steps -/

section Steps

variable {a k ptr size : ℕ} {b : Block} {bs : List Block}

/-- The used blocks after merging were there before. -/
theorem mem_of_mem_mergeFree (hb : b ∈ mergeFree bs) (hused : b.free = false) : b ∈ bs := by
  fun_induction mergeFree bs with
  | case1 => exact hb
  | case2 c => exact hb
  | case3 c c' bs h ih =>
    rcases List.mem_cons.1 hb with rfl | hb
    · cases hused
    · exact List.mem_cons_of_mem _ (List.mem_cons_of_mem _ (ih hb))
  | case4 c c' bs h ih =>
    rcases List.mem_cons.1 hb with rfl | hb
    · exact List.mem_cons_self
    · exact List.mem_cons_of_mem _ (ih hb)

/-- The block that is taken has less than a header more than what is asked for. -/
theorem size_le_of_mem_cut {c : Block} (hc : c ∈ cut b size) (hused : c.free = false) :
    c.size ≤ size + 12 := by
  rw [cut] at hc
  split_ifs at hc with h
  · simp only [List.mem_cons, List.not_mem_nil, or_false] at hc
    rcases hc with rfl | rfl
    · exact Nat.le_add_right _ _
    · cases hused
  · rw [List.mem_singleton.1 hc]
    exact not_lt.1 h

theorem Compact.allocBlocks {r : ℕ × List Block} (h : Compact k bs)
    (halloc : allocBlocks a size bs = some r) (hk : size + 12 ≤ k) : Compact k r.2 := by
  refine ⟨(adjFree_allocBlocks_le halloc).trans h.adjacent, ?_⟩
  obtain ⟨bs₁, c, bs₂, rfl, -, -, rfl⟩ := allocBlocks_eq_some halloc
  intro d hd hused
  simp only [List.mem_append] at hd
  rcases hd with hd | hd | hd
  · exact h.used d (List.mem_append_left _ hd) hused
  · exact (size_le_of_mem_cut hd hused).trans hk
  · exact h.used d (List.mem_append_right _ (List.mem_cons_of_mem _ hd)) hused

/-- A call of `kmalloc` or `kfree`. -/
theorem Compact.blockStep {L : HeapLayout} (h : Compact k bs) (c : HeapCall)
    (hk : ∀ n, c = .kmalloc n → roundUp n.toNat + 12 ≤ k) : Compact k (blockStep L bs c) := by
  cases c with
  | kmalloc n =>
    rw [Fru1tOs.blockStep]
    split_ifs
    · exact h
    · rcases halloc : Fru1tOs.allocBlocks L.heap (roundUp n.toNat) bs with _ | r
      · exact h
      · exact h.allocBlocks halloc (hk n rfl)
  | kfree ptr =>
    refine ⟨adjFree_blockStep_le L h.adjacent _, ?_⟩
    rw [Fru1tOs.blockStep]
    split_ifs with hptr
    · obtain ⟨bs₁, n, bs₂, rfl, rfl⟩ := exists_of_mem_used hptr
      rw [markFree_append]
      intro d hd hused
      have hd' := mem_of_mem_mergeFree hd hused
      rw [List.mem_append, List.mem_cons] at hd'
      rcases hd' with hd' | rfl | hd'
      · exact h.used d (List.mem_append_left _ hd') hused
      · cases hused
      · exact h.used d (List.mem_append_right _ (List.mem_cons_of_mem _ hd')) hused
    · exact h.used
  | write ptr offset byte => exact h

/-- `kmalloc` does not return `NULL` when few pointers are live. -/
theorem HeapInv.kmalloc_ne_null {L : HeapLayout} {s : HeapRun} (h : HeapInv L s bs)
    (hc : Compact k bs) (h0 : size ≠ 0)
    (hroom : s.live.length * (12 + k) + (s.live.length + 2) * (12 + roundUp size) < heapSize) :
    ∃ p h', Fru1tOs.kmalloc s.heap size = some (p, h') ∧ p ≠ 0 := by
  have hlen : s.live.length = bs.countP (!·.free) := by
    rw [h.live.length_eq, List.length_map, length_usedAt]
  rw [hlen] at hroom
  obtain ⟨b, hb, hfree, hsize⟩ := hc.exists_free (a := L.heap) (n := roundUp size) (by
    rw [h.tiled.ends, HeapLayout.heapEnd]
    omega)
  rcases h.kmalloc size with ⟨-, hno⟩ | ⟨p, h', -, -, -, -, hk, hp0, -⟩
  · exact absurd (hno.resolve_left h0 b hb hfree) (not_lt.2 hsize.le)
  · exact ⟨p, h', hk, hp0⟩

end Steps

end Fru1tOs
