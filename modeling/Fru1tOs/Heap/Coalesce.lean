import Fru1tOs.Heap.Run

/-!
# Adjacent free blocks

`kfree` goes once through the list of blocks, and a block that has been merged with the next one
is not looked at again. So of a run of free blocks every second one is left.

The places where a free block follows a free one are counted by `adjFree`:

* `two_mul_adjFree_mergeFree`: merging leaves at most half of them;
* `coalesced_iff`: there are none after any `kfree` of a run exactly if no block is freed between
  two free ones;
* `adjFree_blockStep_le`: there is never more than one.
-/

namespace Fru1tOs

open Lib

/-! ## Counting -/

/-- The first block is free. -/
def headFree : List Block → Bool
  | [] => false
  | b :: _ => b.free

/-- The last block is free. -/
def lastFree : List Block → Bool
  | [] => false
  | [b] => b.free
  | _ :: b :: bs => lastFree (b :: bs)

/-- The number of places where a free block follows a free one. -/
def adjFree : List Block → ℕ
  | [] => 0
  | b :: bs => (b.free && headFree bs).toNat + adjFree bs

section Lists

variable {a n size : ℕ} {b c : Block} {bs bs₁ bs₂ : List Block}

@[simp] theorem headFree_cons : headFree (b :: bs) = b.free := rfl

theorem adjFree_cons : adjFree (b :: bs) = (b.free && headFree bs).toNat + adjFree bs := rfl

theorem headFree_mergeFree (bs : List Block) : headFree (mergeFree bs) = headFree bs := by
  fun_induction mergeFree bs with
  | case1 => rfl
  | case2 b => rfl
  | case3 b b' bs h ih =>
    rw [Bool.and_eq_true] at h
    exact h.1.symm
  | case4 b b' bs h ih => rfl

/-- Merging leaves at most half of the places. -/
theorem two_mul_adjFree_mergeFree (bs : List Block) :
    2 * adjFree (mergeFree bs) ≤ adjFree bs := by
  fun_induction mergeFree bs with
  | case1 => exact le_rfl
  | case2 b => simp [adjFree, headFree]
  | case3 b b' bs h ih =>
    -- The new block may be followed by a free one. It counts twice, and so did the two blocks.
    have hle := Bool.toNat_le (headFree bs)
    rw [Bool.and_eq_true] at h
    rw [adjFree_cons, adjFree_cons, adjFree_cons, headFree_mergeFree, headFree_cons, h.1, h.2]
    simp only [Bool.true_and, Bool.toNat_true]
    omega
  | case4 b b' bs h ih =>
    rw [adjFree_cons, adjFree_cons, headFree_mergeFree, headFree_cons,
      Bool.eq_false_of_not_eq_true h]
    simp only [Bool.toNat_false]
    omega

theorem adjFree_append : adjFree (bs₁ ++ bs₂) =
    adjFree bs₁ + (lastFree bs₁ && headFree bs₂).toNat + adjFree bs₂ := by
  induction bs₁ with
  | nil => simp [adjFree, lastFree]
  | cons b bs₁ ih =>
    rw [List.cons_append, adjFree_cons, adjFree_cons, ih]
    cases bs₁ with
    | nil =>
      simp [headFree, lastFree, adjFree]
    | cons c bs₁ =>
      simp only [List.cons_append, headFree, lastFree]
      omega

/-- A free block that is taken ends no run of free ones that it did not begin. -/
theorem adjFree_cut_le (hb : b.free = true) :
    adjFree (bs₁ ++ (cut b size ++ bs₂)) ≤ adjFree (bs₁ ++ b :: bs₂) := by
  have hold : adjFree (bs₁ ++ b :: bs₂) = _ := adjFree_append
  rw [hold, adjFree_append, adjFree_cons, hb, cut]
  split_ifs with h
  · simp only [List.cons_append, List.nil_append, adjFree_cons, headFree_cons, hb,
      Bool.true_and, Bool.and_false, Bool.and_true, Bool.toNat_false]
    omega
  · simp only [List.cons_append, List.nil_append, adjFree_cons, headFree_cons, Bool.false_and,
      Bool.and_false, Bool.toNat_false]
    omega

/-- A block that is freed adds a place for each free neighbour. -/
theorem adjFree_mark : adjFree (bs₁ ++ ⟨n, true⟩ :: bs₂) =
    adjFree (bs₁ ++ ⟨n, false⟩ :: bs₂) + (lastFree bs₁).toNat + (headFree bs₂).toNat := by
  rw [adjFree_append, adjFree_append, adjFree_cons, adjFree_cons]
  simp only [headFree_cons, Bool.and_true, Bool.and_false, Bool.true_and, Bool.false_and,
    Bool.toNat_false]
  omega

/-- A block that is freed between two free ones: it is merged with the first, and the second one
    is left. -/
theorem adjFree_mergeFree_pos (h : adjFree bs₁ = 0) (hlast : lastFree bs₁ = true)
    (hhead : headFree bs₂ = true) : 0 < adjFree (mergeFree (bs₁ ++ ⟨n, true⟩ :: bs₂)) := by
  induction bs₁ with
  | nil => exact absurd hlast Bool.false_ne_true
  | cons b bs₁ ih =>
    cases bs₁ with
    | nil =>
      have hb : b.free = true := hlast
      rw [List.cons_append, List.nil_append, mergeFree, if_pos (by simp [hb]), adjFree_cons,
        headFree_mergeFree, hhead]
      exact Nat.lt_of_lt_of_le Nat.one_pos (Nat.le_add_right _ _)
    | cons c bs₁ =>
      rw [adjFree_cons, headFree_cons, Nat.add_eq_zero_iff] at h
      have hbc : ¬ (b.free && c.free) = true := fun hbc => by
        rw [hbc] at h
        exact absurd h.1 Nat.one_ne_zero
      rw [List.cons_append, List.cons_append, mergeFree, if_neg hbc, adjFree_cons]
      exact Nat.lt_of_lt_of_le (ih h.2 hlast) (Nat.le_add_left _ _)

/-- `kmalloc` makes no new place. -/
theorem adjFree_allocBlocks_le {r : ℕ × List Block} (h : allocBlocks a size bs = some r) :
    adjFree r.2 ≤ adjFree bs := by
  obtain ⟨bs₁, b, bs₂, rfl, hb, -, rfl⟩ := allocBlocks_eq_some h
  exact adjFree_cut_le hb

/-- There is at most one place after any call, if it was so before. -/
theorem adjFree_blockStep_le (L : HeapLayout) (h : adjFree bs ≤ 1) (call : HeapCall) :
    adjFree (blockStep L bs call) ≤ 1 := by
  cases call with
  | kmalloc n =>
    rw [blockStep]
    split_ifs
    · exact h
    · rcases halloc : allocBlocks L.heap (roundUp n.toNat) bs with _ | r
      · exact h
      · exact (adjFree_allocBlocks_le halloc).trans h
  | kfree ptr =>
    rw [blockStep]
    split_ifs with hptr
    · obtain ⟨bs₁, n, bs₂, rfl, rfl⟩ := exists_of_mem_used hptr
      -- The two neighbours add two places. Merging leaves half of the three.
      have hmerge := two_mul_adjFree_mergeFree (bs₁ ++ ⟨n, true⟩ :: bs₂)
      have hlast := Bool.toNat_le (lastFree bs₁)
      have hhead := Bool.toNat_le (headFree bs₂)
      rw [adjFree_mark] at hmerge
      rw [markFree_append]
      show adjFree (mergeFree (bs₁ ++ ⟨n, true⟩ :: bs₂)) ≤ 1
      omega
    · exact h
  | write ptr offset byte => exact h

/-- A list without two adjacent free blocks stays so when a block is freed, unless it is between
    two free ones. -/
theorem adjFree_mergeFree_eq_zero (h : adjFree (bs₁ ++ ⟨n, false⟩ :: bs₂) = 0) :
    adjFree (mergeFree (bs₁ ++ ⟨n, true⟩ :: bs₂)) = 0 ↔
      ¬ (lastFree bs₁ = true ∧ headFree bs₂ = true) := by
  constructor
  · rintro hzero ⟨hlast, hhead⟩
    rw [adjFree_append, Nat.add_eq_zero_iff, Nat.add_eq_zero_iff] at h
    exact absurd hzero (adjFree_mergeFree_pos h.1.1 hlast hhead).ne'
  · intro hnot
    have hmerge := two_mul_adjFree_mergeFree (bs₁ ++ ⟨n, true⟩ :: bs₂)
    rw [adjFree_mark, h] at hmerge
    have hsum : (lastFree bs₁).toNat + (headFree bs₂).toNat ≤ 1 := by
      rcases Bool.eq_false_or_eq_true (lastFree bs₁) with hlast | hlast
      · rcases Bool.eq_false_or_eq_true (headFree bs₂) with hhead | hhead
        · exact absurd ⟨hlast, hhead⟩ hnot
        · simp [hlast, hhead]
      · rw [hlast]
        simpa using Bool.toNat_le (headFree bs₂)
    omega

/-- No two adjacent blocks are free. -/
theorem isChain_place_iff : (place a bs).IsChain (fun p q =>
    ¬ (p.2.free = true ∧ q.2.free = true ∧ p.1 + 12 + p.2.size = q.1)) ↔ adjFree bs = 0 := by
  induction bs generalizing a with
  | nil => exact iff_of_true List.IsChain.nil rfl
  | cons b bs ih =>
    cases bs with
    | nil =>
      refine iff_of_true (List.IsChain.singleton _) ?_
      simp [adjFree, headFree]
    | cons c bs =>
      rw [place_cons, place_cons, List.isChain_cons_cons, ← place_cons, ih,
        adjFree_cons (b := b), Nat.add_eq_zero_iff, headFree_cons]
      simp [Bool.toNat_eq_zero]

end Lists

/-! ## Runs -/

namespace HeapRun

/-- The list of blocks that starts at `free_list`. -/
def blocks (s : HeapRun) : List (ℕ × Block) := blockList s.heap.mem heapFuel s.heap.freeList

/-- No two address-adjacent blocks of the list are free. -/
def Coalesced (s : HeapRun) : Prop := s.blocks.IsChain fun p q =>
  ¬ (p.2.free = true ∧ q.2.free = true ∧ p.1 + 12 + p.2.size = q.1)

/-- The block of the pointer is between two free ones. -/
def Between (s : HeapRun) (ptr : ℕ) : Prop :=
  (∃ p ∈ s.blocks, p.2.free = true ∧ p.1 + 12 + p.2.size + 12 = ptr) ∧
  ∃ q ∈ s.blocks, q.2.free = true ∧ q.1 = ptr + s.payload ptr

end HeapRun

section Runs

variable {L : HeapLayout} {s : HeapRun} {bs : List Block}

theorem HeapInv.blocks_eq (h : HeapInv L s bs) : s.blocks = place L.heap bs := h.blockList_eq

theorem HeapInv.coalesced_iff_adjFree (h : HeapInv L s bs) : s.Coalesced ↔ adjFree bs = 0 := by
  rw [HeapRun.Coalesced, h.blocks_eq]
  exact isChain_place_iff

theorem lastFree_concat (bs : List Block) (b : Block) : lastFree (bs ++ [b]) = b.free := by
  induction bs with
  | nil => rfl
  | cons c bs ih =>
    cases bs with
    | nil => rfl
    | cons d bs => exact ih

/-- The block before a place in the list. -/
theorem lastFree_iff {a : ℕ} {bs₁ bs₂ : List Block} : lastFree bs₁ = true ↔
    ∃ p ∈ place a (bs₁ ++ bs₂), p.2.free = true ∧ p.1 + 12 + p.2.size = endOf a bs₁ := by
  constructor
  · intro hlast
    rcases List.eq_nil_or_concat' bs₁ with rfl | ⟨l, b, rfl⟩
    · exact absurd hlast Bool.false_ne_true
    · rw [lastFree_concat] at hlast
      refine ⟨(endOf a l, b), ?_, hlast, ?_⟩
      · rw [place_append, place_append, place_cons]
        exact List.mem_append_left _ (List.mem_append_right _ List.mem_cons_self)
      · rw [endOf_append, endOf_cons, endOf_nil]
  · rintro ⟨⟨x, b⟩, hp, hfree, hend⟩
    obtain ⟨l, r, heq, rfl⟩ := exists_of_mem_place hp
    have hend' : endOf a (l ++ [b]) = endOf a bs₁ := by
      rw [endOf_append, endOf_cons, endOf_nil]
      exact hend
    have hpre : l ++ [b] <+: bs₁ ++ bs₂ := ⟨r, by rw [heq, List.append_assoc]; rfl⟩
    rw [← eq_of_endOf_eq hpre (List.prefix_append _ _) hend', lastFree_concat]
    exact hfree

/-- The block at a place in the list. -/
theorem headFree_iff {a : ℕ} {bs₁ bs₂ : List Block} : headFree bs₂ = true ↔
    ∃ q ∈ place a (bs₁ ++ bs₂), q.2.free = true ∧ q.1 = endOf a bs₁ := by
  constructor
  · intro hhead
    cases bs₂ with
    | nil => exact absurd hhead Bool.false_ne_true
    | cons b bs₂ =>
      refine ⟨(endOf a bs₁, b), ?_, hhead, rfl⟩
      rw [place_append, place_cons]
      exact List.mem_append_right _ List.mem_cons_self
  · rintro ⟨⟨x, b⟩, hq, hfree, hend⟩
    obtain ⟨l, r, heq, rfl⟩ := exists_of_mem_place hq
    have hpre : l <+: bs₁ ++ bs₂ := ⟨b :: r, heq.symm⟩
    rw [eq_of_endOf_eq hpre (List.prefix_append _ _) hend, List.append_cancel_left_eq] at heq
    rw [heq]
    exact hfree

theorem HeapInv.between_iff {bs₁ bs₂ : List Block} {n : ℕ}
    (h : HeapInv L s (bs₁ ++ ⟨n, false⟩ :: bs₂)) : s.Between (endOf L.heap bs₁ + 12) ↔
      lastFree bs₁ = true ∧ headFree bs₂ = true := by
  have hpayload : s.payload (endOf L.heap bs₁ + 12) = n := h.tiled.isBlock.size
  have hend : endOf L.heap (bs₁ ++ [⟨n, false⟩]) = endOf L.heap bs₁ + 12 + n := by
    rw [endOf_append, endOf_cons, endOf_nil]
  have hlist : bs₁ ++ ⟨n, false⟩ :: bs₂ = (bs₁ ++ [⟨n, false⟩]) ++ bs₂ := by
    rw [List.append_assoc]
    rfl
  rw [HeapRun.Between, h.blocks_eq, hpayload, ← hend]
  refine and_congr ?_ ?_
  · simp only [Nat.add_right_cancel_iff]
    exact lastFree_iff.symm
  · rw [hlist]
    exact headFree_iff.symm

/-- The blocks after the calls. -/
def runBlocks (L : HeapLayout) (calls : List HeapCall) : List Block :=
  calls.foldl (blockStep L) [⟨heapSize - 12, true⟩]

theorem runBlocks_concat (L : HeapLayout) (calls : List HeapCall) (c : HeapCall) :
    runBlocks L (calls ++ [c]) = blockStep L (runBlocks L calls) c := by
  rw [runBlocks, List.foldl_append]
  rfl

theorem heapInv_run (L : HeapLayout) (s₀ : Heap) (calls : List HeapCall) :
    ∃ s, run HeapRun.call (HeapRun.init L s₀) calls = some s ∧ HeapInv L s (runBlocks L calls) := by
  induction calls using List.reverseRecOn with
  | nil => exact ⟨_, rfl, heapInv_init L s₀⟩
  | append_singleton calls c ih =>
    obtain ⟨s, hs, h⟩ := ih
    obtain ⟨s', hs', h', -⟩ := h.call c
    rw [run_concat, hs, runBlocks_concat]
    exact ⟨s', hs', h'⟩

/-- There are no two adjacent free blocks in a run, if no call of `kfree` makes them. -/
theorem adjFree_runBlocks {calls : List HeapCall} (hfree : ∀ pre ptr,
      pre ++ [.kfree ptr] <+: calls → adjFree (runBlocks L pre) = 0 →
      adjFree (runBlocks L (pre ++ [.kfree ptr])) = 0) {pre : List HeapCall}
    (hpre : pre <+: calls) : adjFree (runBlocks L pre) = 0 := by
  induction pre using List.reverseRecOn with
  | nil => rfl
  | append_singleton pre c ih =>
    have hzero := ih ((List.prefix_append _ _).trans hpre)
    cases c with
    | kmalloc size =>
      rw [runBlocks_concat, blockStep]
      split_ifs
      · exact hzero
      · rcases halloc : allocBlocks L.heap (roundUp size.toNat) (runBlocks L pre) with _ | r
        · exact hzero
        · exact Nat.le_zero.1 (hzero ▸ adjFree_allocBlocks_le halloc)
    | kfree ptr => exact hfree pre ptr hpre hzero
    | write ptr offset byte =>
      rw [runBlocks_concat]
      exact hzero

/-- When nothing is live and no two adjacent blocks are free, there is one block. -/
theorem HeapInv.blocks_of_live_nil (h : HeapInv L s bs) (hzero : adjFree bs = 0)
    (hlive : s.live = []) : s.blocks = [(L.heap, ⟨heapSize - 12, true⟩)] := by
  have hused : usedAt L.heap bs = [] := by
    have := h.live
    rw [hlive, List.nil_perm] at this
    exact List.map_eq_nil_iff.1 this
  have hends := h.tiled.ends
  rw [h.blocks_eq]
  match bs with
  | [] => exact absurd rfl h.tiled.ne_nil
  | [b] =>
    rw [endOf_cons, endOf_nil, HeapLayout.heapEnd] at hends
    have hb : b.free = true := by
      by_contra hb
      rw [usedAt_cons, if_neg hb] at hused
      exact List.cons_ne_nil _ _ hused
    have hsize : b.size = heapSize - 12 := by omega
    rw [place_cons, place_nil, ← hsize, ← hb]
  | b :: c :: bs =>
    -- Both are free, which is one place at least.
    rw [usedAt_cons, usedAt_cons, List.append_eq_nil_iff, List.append_eq_nil_iff] at hused
    have hb : b.free = true := by
      by_contra hb
      rw [if_neg hb] at hused
      exact List.cons_ne_nil _ _ hused.1
    have hc : c.free = true := by
      by_contra hc
      rw [if_neg hc] at hused
      exact List.cons_ne_nil _ _ hused.2.1
    rw [adjFree_cons, headFree_cons, hb, hc, Nat.add_eq_zero_iff] at hzero
    exact absurd hzero.1 Nat.one_ne_zero

/-- After each `kfree` of a run no two adjacent blocks are free, and when nothing is live there is
    the block that `memory_init` made, exactly if no block is freed between two free ones. -/
theorem coalesced_iff (L : HeapLayout) (s₀ : Heap) (calls : List HeapCall) :
    (∀ pre ptr, pre ++ [.kfree ptr] <+: calls → ∃ s,
      run HeapRun.call (HeapRun.init L s₀) (pre ++ [.kfree ptr]) = some s ∧ s.Coalesced ∧
        (s.live = [] → s.blocks = [(L.heap, ⟨heapSize - 12, true⟩)])) ↔
    ∀ pre ptr, pre ++ [.kfree ptr] <+: calls → ∀ s,
      run HeapRun.call (HeapRun.init L s₀) pre = some s → ptr ∈ s.live → ¬ s.Between ptr := by
  -- What a call of `kfree` does, in a state without adjacent free blocks.
  have hkfree : ∀ pre ptr s, run HeapRun.call (HeapRun.init L s₀) pre = some s →
      adjFree (runBlocks L pre) = 0 → (adjFree (runBlocks L (pre ++ [.kfree ptr])) = 0 ↔
        (ptr ∈ s.live → ¬ s.Between ptr)) := by
    intro pre ptr s hs hzero
    obtain ⟨s', hs', h⟩ := heapInv_run L s₀ pre
    obtain rfl := Option.some.inj (hs.symm.trans hs')
    rw [runBlocks_concat, blockStep]
    by_cases hp : ptr ∈ s.live
    · rw [if_pos (h.mem_used.2 hp)]
      obtain ⟨bs₁, n, bs₂, hbs, rfl⟩ := exists_of_mem_used (h.mem_used.2 hp)
      rw [hbs] at hzero h ⊢
      rw [markFree_append, h.between_iff]
      exact (adjFree_mergeFree_eq_zero hzero).trans ⟨fun hnot _ => hnot, fun hnot => hnot hp⟩
    · rw [if_neg fun hmem => hp (h.mem_used.1 hmem)]
      exact iff_of_true hzero fun hp' => absurd hp' hp
  constructor
  · intro hall pre ptr hpre s hs
    have hcoal : ∀ pre ptr, pre ++ [HeapCall.kfree ptr] <+: calls →
        adjFree (runBlocks L (pre ++ [.kfree ptr])) = 0 := fun pre ptr hpre => by
      obtain ⟨s, hs, hc, -⟩ := hall pre ptr hpre
      obtain ⟨s', hs', h⟩ := heapInv_run L s₀ (pre ++ [.kfree ptr])
      obtain rfl := Option.some.inj (hs.symm.trans hs')
      exact h.coalesced_iff_adjFree.1 hc
    have hzero := adjFree_runBlocks (fun pre ptr hpre _ => hcoal pre ptr hpre)
      ((List.prefix_append _ _).trans hpre)
    exact (hkfree pre ptr s hs hzero).1 (hcoal pre ptr hpre)
  · intro hall pre ptr hpre
    obtain ⟨s, hs, h⟩ := heapInv_run L s₀ (pre ++ [.kfree ptr])
    have hzero : adjFree (runBlocks L (pre ++ [.kfree ptr])) = 0 :=
      adjFree_runBlocks (fun pre ptr hpre hzero => by
        obtain ⟨s, hs, -⟩ := heapInv_run L s₀ pre
        exact (hkfree pre ptr s hs hzero).2 (hall pre ptr hpre s hs)) hpre
    exact ⟨s, hs, h.coalesced_iff_adjFree.2 hzero, h.blocks_of_live_nil hzero⟩

end Runs

/-- Three blocks are allocated, and freed: the first one, the last one, and the one in the
    middle. -/
def middleLast : List HeapCall :=
  [.kmalloc 8, .kmalloc 8, .kmalloc 8, .kfree 0x8021000c, .kfree 0x80210034, .kfree 0x80210020]

/-- Everything is freed, but there are two blocks. -/
theorem middleLast_not_coalesced : ∃ s,
    run HeapRun.call (HeapRun.init default ⟨fun _ => 0, 0⟩) middleLast = some s ∧ s.live = [] ∧
      s.blocks = [(0x80210000, ⟨28, true⟩), (0x80210028, ⟨4194252, true⟩)] ∧ ¬ s.Coalesced := by
  obtain ⟨s, hs, h⟩ := heapInv_run default ⟨fun _ => 0, 0⟩ middleLast
  have hblocks : runBlocks default middleLast = [⟨28, true⟩, ⟨4194252, true⟩] := by decide +kernel
  rw [hblocks] at h
  refine ⟨s, hs, ?_, h.blocks_eq, fun hc => ?_⟩
  · exact List.perm_nil.1 h.live
  · exact absurd (h.coalesced_iff_adjFree.1 hc) (by decide)

end Fru1tOs
