import Fru1tOs.Heap.Blocks

/-!
# Allocation and freeing

`memory_init` makes one free block (`tiled_memoryInit`). `kmalloc` cuts the first free
block that is large enough (`kmalloc_spec`), or there is none. `kfree` of a used
block marks it free and merges, once through the list (`kfree_spec`). All keep what
is out of the heap and the payloads of the used blocks, other than the one freed.
-/

namespace Fru1tOs

open Lib

variable {L : HeapLayout} {m : Mem} {bs bs₁ bs₂ : List Block} {b : Block} {size : ℕ}

theorem Tiled.heapEnd_le (L : HeapLayout) : L.heapEnd ≤ 2 ^ 32 := L.heap_fits

/-- The heap after `memory_init`. -/
theorem tiled_memoryInit (L : HeapLayout) (s : Heap) :
    Tiled L (memoryInit L s).mem [⟨heapSize - 12, true⟩] ∧ (memoryInit L s).freeList = L.heap ∧
      Keeps L [] s.mem (memoryInit L s).mem := by
  have hsize : heapSize - 12 < 2 ^ 32 := by decide
  have h12 : 12 ≤ heapSize := by decide
  have hend : L.heap + 12 + (heapSize - 12) = L.heapEnd := by
    rw [HeapLayout.heapEnd]
    omega
  refine ⟨⟨fun p hp => ?_, hend⟩, rfl, fun x hx => ?_⟩
  · rw [place_cons, place_nil, List.mem_singleton] at hp
    subst hp
    simp only [memoryInit]
    refine ⟨?_, ?_, ?_⟩
    · simp (disch := omega) only [load32_store32_of_disjoint, load32_store32, if_true]
    · simp (disch := omega) only [load32_store32_of_disjoint, load32_store32]
    · rw [if_pos hend]
      exact load32_store32 (by omega)
  · have hx' : x < L.heap ∨ L.heap + 12 ≤ x := by
      rw [HeapLayout.heapEnd] at hx
      rcases hx with hx | hx | ⟨u, hu, -⟩
      · exact .inl hx
      · omega
      · cases hu
    simp only [memoryInit]
    rw [store32_of_disjoint (by omega), store32_of_disjoint (by omega),
      store32_of_disjoint (by omega)]

/-! ## Allocation -/

section Alloc

/-- `kmalloc` takes the block it has found: it is cut, and the memory changes in the headers of
    the two blocks. -/
theorem kmallocTake_spec (h : Tiled L m (bs₁ ++ b :: bs₂)) (hsize : size ≤ b.size) :
    (∀ p ∈ place (endOf L.heap bs₁) (cut b size),
      IsBlock (kmallocTake m (endOf L.heap bs₁) size) L.heapEnd p.1 p.2) ∧
    ∀ x, ¬ InHeader (endOf L.heap bs₁) (cut b size) x →
      kmallocTake m (endOf L.heap bs₁) size x = m x := by
  obtain ⟨hlo, hhi⟩ := h.bounds
  have hend := Tiled.heapEnd_le L
  have hpos := L.heap_pos
  have hb := h.isBlock
  set a := endOf L.heap bs₁ with ha
  have hmod : (size + 12) % 2 ^ 32 = size + 12 := Nat.mod_eq_of_lt (by omega)
  rw [kmallocTake, cut, hmod, hb.size]
  by_cases hcut : b.size > size + 12
  · -- The words of the two headers, one store after the other.
    have hsize' : load32 (store32 m (a + 12 + size) 1) (a + 4) = b.size := by
      rw [load32_store32_of_disjoint (by omega), hb.size]
    have hnext : load32 (store32 (store32 m (a + 12 + size) 1) (a + 12 + size + 4)
        (b.size - size - 12)) (a + 8) =
          if a + 12 + b.size = L.heapEnd then 0 else a + 12 + b.size := by
      rw [load32_store32_of_disjoint (by omega), load32_store32_of_disjoint (by omega), hb.next]
    have hnext_lt : (if a + 12 + b.size = L.heapEnd then 0 else a + 12 + b.size) < 2 ^ 32 := by
      split_ifs <;> omega
    simp only [if_pos hcut, hsize', hnext]
    have hrest : a + 12 + size + 12 + (b.size - size - 12) = a + 12 + b.size := by omega
    refine ⟨fun p hp => ?_, fun x hx => ?_⟩
    · simp only [place_cons, place_nil, List.mem_cons, List.not_mem_nil, or_false] at hp
      rcases hp with rfl | rfl
      · refine ⟨?_, ?_, ?_⟩
        · rw [load32_store32 (by omega)]
          rfl
        · simp (disch := omega) only [load32_store32_of_disjoint, load32_store32]
        · rw [if_neg (show ¬ a + 12 + size = L.heapEnd by omega)]
          simp (disch := omega) only [load32_store32_of_disjoint, load32_store32]
      · refine ⟨?_, ?_, ?_⟩
        · simp (disch := omega) only [load32_store32_of_disjoint, load32_store32, if_true]
        · simp (disch := omega) only [load32_store32_of_disjoint, load32_store32]
        · rw [load32_store32_of_disjoint (by omega), load32_store32_of_disjoint (by omega),
            load32_store32_of_disjoint (by omega), load32_store32 hnext_lt]
          simp only [hrest]
    · simp only [inHeader_cons, not_or, not_and, not_lt] at hx
      simp (disch := omega) only [store32_of_disjoint]
  · simp only [if_neg hcut]
    refine ⟨fun p hp => ?_, fun x hx => store32_of_disjoint (by
      simp only [inHeader_cons, not_or, not_and, not_lt] at hx
      omega)⟩
    simp only [place_cons, place_nil, List.mem_singleton] at hp
    subst hp
    refine ⟨?_, ?_, ?_⟩
    · rw [load32_store32 (by omega)]
      rfl
    · rw [load32_store32_of_disjoint (by omega), hb.size]
    · rw [load32_store32_of_disjoint (by omega), hb.next]

/-- The payload of the block that `cut` takes. -/
def cutSize (b : Block) (size : ℕ) : ℕ := if b.size > size + 12 then size else b.size

theorem le_cutSize (h : size ≤ b.size) : size ≤ cutSize b size := by
  rw [cutSize]
  split_ifs
  exacts [le_rfl, h]

theorem usedAt_cut (a : ℕ) (b : Block) (size : ℕ) (bs : List Block) :
    usedAt a (cut b size ++ bs) = (a + 12, cutSize b size) :: usedAt (a + 12 + b.size) bs := by
  rw [cut, cutSize]
  split_ifs with h
  · have hend : a + 12 + size + 12 + (b.size - size - 12) = a + 12 + b.size := by omega
    simp only [List.cons_append, List.nil_append, usedAt_cons, if_true, Bool.false_eq_true,
      if_false, hend]
  · simp only [List.cons_append, List.nil_append, usedAt_cons, Bool.false_eq_true, if_false]

/-- The blocks from a place of the list on, as the walk along it finds them: their
    address, or `NULL` at the end. -/
def walkAt (a : ℕ) (rest : List Block) : ℕ := if rest = [] then 0 else a

/-- The `next` of a block is the address of what follows. -/
theorem Tiled.next (h : Tiled L m (bs₁ ++ b :: bs₂)) :
    load32 m (endOf L.heap bs₁ + 8) = walkAt (endOf L.heap (bs₁ ++ [b])) bs₂ := by
  rw [h.isBlock.next, walkAt, endOf_append, endOf_cons, endOf_nil]
  exact if_congr h.end_eq_iff rfl rfl

/-- A block is not at `NULL`. -/
theorem endOf_ne_zero (L : HeapLayout) (bs : List Block) : endOf L.heap bs ≠ 0 := by
  have := le_endOf L.heap bs
  have := L.heap_pos
  omega

/-- A pass of the search of `kmalloc`: the blocks before the one it is at are used or too
    small. -/
theorem kmallocPass_spec (h : Tiled L m bs) (size k current : ℕ)
    (hst : ∃ bs₁ bs₂, bs = bs₁ ++ bs₂ ∧ (∀ b ∈ bs₁, b.free = true → b.size < size) ∧
      current = walkAt (endOf L.heap bs₁) bs₂ ∧ bs₂.length = k) :
    (∃ r, kmallocPass m size current = some (.done r) ∧
      ((r = none ∧ ∀ b ∈ bs, b.free = true → b.size < size) ∨
        ∃ bs₁ b bs₂, bs = bs₁ ++ b :: bs₂ ∧ (∀ c ∈ bs₁, c.free = true → c.size < size) ∧
          b.free = true ∧ size ≤ b.size ∧ r = some (endOf L.heap bs₁))) ∨
    ∃ current' k', kmallocPass m size current = some (.next current') ∧ k' < k ∧
      ∃ bs₁ bs₂, bs = bs₁ ++ bs₂ ∧ (∀ b ∈ bs₁, b.free = true → b.size < size) ∧
        current' = walkAt (endOf L.heap bs₁) bs₂ ∧ bs₂.length = k' := by
  obtain ⟨bs₁, bs₂, rfl, hsmall, rfl, rfl⟩ := hst
  cases bs₂ with
  | nil =>
    refine .inl ⟨none, ?_, .inl ⟨rfl, by simpa using hsmall⟩⟩
    rw [kmallocPass, walkAt, if_pos rfl, if_pos rfl]
  | cons b bs₂ =>
    have hb := h.isBlock
    have hcur : walkAt (endOf L.heap bs₁) (b :: bs₂) = endOf L.heap bs₁ := if_neg (by simp)
    rw [hcur, kmallocPass, if_neg (endOf_ne_zero L bs₁), hb.isFree, hb.size]
    by_cases hfit : b.free = true ∧ size ≤ b.size
    · refine .inl ⟨some (endOf L.heap bs₁), ?_,
        .inr ⟨bs₁, b, bs₂, rfl, hsmall, hfit.1, hfit.2, rfl⟩⟩
      rw [if_pos ⟨by rw [hfit.1]; decide, hfit.2⟩]
    · refine .inr ⟨_, bs₂.length, ?_, by simp, bs₁ ++ [b], bs₂, by simp, ?_, h.next, rfl⟩
      · rw [if_neg]
        rintro ⟨hfree, hsize⟩
        refine hfit ⟨?_, hsize⟩
        by_contra hn
        simp [hn] at hfree
      · intro c hc hfree
        rcases List.mem_append.1 hc with hc | hc
        · exact hsmall c hc hfree
        · obtain rfl := List.mem_singleton.1 hc
          by_contra hn
          exact hfit ⟨hfree, not_lt.1 hn⟩

/-- The size that `kmalloc` looks for. -/
def roundUp (size : ℕ) : ℕ := (size + 7) % 2 ^ 32 / 8 * 8

/-- `kmalloc` cuts the first free block that is large enough, or returns `NULL` if the size is
    zero or there is none. -/
theorem kmalloc_spec {s : Heap} (h : Tiled L s.mem bs) (hfl : s.freeList = L.heap) (size : ℕ) :
    (kmalloc s size = some (0, s) ∧
      (size = 0 ∨ ∀ b ∈ bs, b.free = true → b.size < roundUp size)) ∨
    ∃ m' bs₁ b bs₂, size ≠ 0 ∧ bs = bs₁ ++ b :: bs₂ ∧
      (∀ c ∈ bs₁, c.free = true → c.size < roundUp size) ∧ b.free = true ∧ roundUp size ≤ b.size ∧
      kmalloc s size = some (endOf L.heap bs₁ + 12, { s with mem := m' }) ∧
      Tiled L m' (bs₁ ++ (cut b (roundUp size) ++ bs₂)) ∧ Keeps L (usedAt L.heap bs) s.mem m' ∧
      ∀ x, ¬ InHeader L.heap (bs₁ ++ (cut b (roundUp size) ++ bs₂)) x → m' x = s.mem x := by
  by_cases h0 : size = 0
  · exact .inl ⟨by rw [kmalloc, if_pos h0], .inl h0⟩
  have hwalk : s.freeList = walkAt (endOf L.heap []) bs := by
    rw [hfl, walkAt, if_neg h.ne_nil, endOf_nil]
  obtain ⟨r, hr, hcase⟩ := loop_of_variant (n := heapFuel) (kmallocPass_spec h (roundUp size))
    ⟨[], bs, rfl, by simp, hwalk, rfl⟩ h.length_lt
  have hloop : kmalloc s size = some (r.elim (0, s) fun current =>
      (current + 12, { s with mem := kmallocTake s.mem current (roundUp size) })) := by
    rw [roundUp] at hr
    simp only [kmalloc, if_neg h0, hr, Option.bind_eq_bind, Option.bind_some]
    cases r <;> rfl
  rcases hcase with ⟨rfl, hnone⟩ | ⟨bs₁, b, bs₂, rfl, hsmall, hfree, hsize, rfl⟩
  · exact .inl ⟨hloop, .inr hnone⟩
  · obtain ⟨hblocks, hheader⟩ := kmallocTake_spec h hsize
    have hcut := endOf_cut (endOf L.heap bs₁) b (roundUp size) []
    rw [List.append_nil] at hcut
    have hframe : ∀ x, x < endOf L.heap bs₁ ∨ endOf (endOf L.heap bs₁) [b] ≤ x →
        kmallocTake s.mem (endOf L.heap bs₁) (roundUp size) x = s.mem x := fun x hx =>
      hheader x fun hin => by
        have := hin.bounds
        rw [hcut] at this
        omega
    refine .inr ⟨_, bs₁, b, bs₂, h0, rfl, hsmall, hfree, hsize, hloop,
      h.replace (y := [b]) hcut hblocks hframe, ?_, fun x hx => hheader x fun hin => hx ?_⟩
    · rw [usedAt_append, usedAt_cons, hfree]
      exact h.keeps (y := [b]) hframe
    · rw [inHeader_append, inHeader_append]
      exact .inr (.inl hin)

end Alloc

/-! ## Freeing -/

section Free

/-- A pass of the merging of `kfree`, at a block that is not the last one: the block is
    merged with the next if both are free. -/
theorem kfreePass_step {c : Block} (h : Tiled L m (bs₁ ++ b :: c :: bs₂)) :
    ∃ m', kfreePass (m, endOf L.heap bs₁) = some (.next (m', load32 m' (endOf L.heap bs₁ + 8))) ∧
      (∀ x, x < endOf L.heap bs₁ ∨ endOf L.heap bs₁ + 12 ≤ x → m' x = m x) ∧
      if b.free && c.free then Tiled L m' (bs₁ ++ ⟨b.size + (12 + c.size), true⟩ :: bs₂)
      else m' = m := by
  have hb := h.isBlock
  have hc' : Tiled L m ((bs₁ ++ [b]) ++ c :: bs₂) := by simpa using h
  have hc := hc'.isBlock
  obtain ⟨hlo, -⟩ := h.bounds
  obtain ⟨-, hhi⟩ := hc'.bounds
  have hend := Tiled.heapEnd_le L
  have hpos := L.heap_pos
  rw [endOf_append, endOf_cons, endOf_nil] at hc hhi
  have ha0 := endOf_ne_zero L bs₁
  have hplace : endOf (endOf L.heap bs₁) [b, c] =
      endOf L.heap bs₁ + 12 + b.size + 12 + c.size := rfl
  set a := endOf L.heap bs₁ with ha
  have hnext : load32 m (a + 8) = a + 12 + b.size := by
    rw [hb.next, if_neg (by omega)]
  have hpass : kfreePass (m, a) = some (.next
      (let m' := if b.free = true ∧ c.free = true then
          store32 (store32 m (a + 4) (b.size + (12 + c.size))) (a + 8)
            (if a + 12 + b.size + 12 + c.size = L.heapEnd then 0
              else a + 12 + b.size + 12 + c.size)
        else m
      (m', load32 m' (a + 8)))) := by
    have hcond : (load32 m a ≠ 0 ∧ load32 m (a + 12 + b.size) ≠ 0) ↔
        b.free = true ∧ c.free = true := by
      rw [hb.isFree, hc.isFree]
      cases b.free <;> cases c.free <;> simp
    have hmod : (b.size + (12 + c.size)) % 2 ^ 32 = b.size + (12 + c.size) :=
      Nat.mod_eq_of_lt (by omega)
    have hnext' : load32 (store32 m (a + 4) (b.size + (12 + c.size))) (a + 8) =
        a + 12 + b.size := by
      rw [load32_store32_of_disjoint (by omega), hnext]
    have hnext'' : load32 (store32 m (a + 4) (b.size + (12 + c.size))) (a + 12 + b.size + 8) =
        if a + 12 + b.size + 12 + c.size = L.heapEnd then 0
          else a + 12 + b.size + 12 + c.size := by
      rw [load32_store32_of_disjoint (by omega), hc.next]
    simp only [kfreePass, if_neg ha0, hnext, if_neg (show a + 12 + b.size ≠ 0 by omega), hb.size,
      hc.size, hmod, hnext', hnext'', and_true, hcond]
  refine ⟨_, hpass, ?_, ?_⟩
  · by_cases hfree : b.free = true ∧ c.free = true
    · rw [if_pos hfree]
      intro x hx
      rw [store32_of_disjoint (by omega), store32_of_disjoint (by omega)]
    · rw [if_neg hfree]
      exact fun _ _ => rfl
  · by_cases hfree : b.free = true ∧ c.free = true
    · have hsum : a + 12 + (b.size + (12 + c.size)) = a + 12 + b.size + 12 + c.size := by omega
      rw [if_pos hfree, if_pos (by rw [hfree.1, hfree.2]; rfl)]
      refine h.replace (y := [b, c]) (z := [⟨b.size + (12 + c.size), true⟩]) hsum ?_ fun x hx => ?_
      · intro p hp
        rw [place_cons, place_nil, List.mem_singleton] at hp
        subst hp
        refine ⟨?_, ?_, ?_⟩
        · rw [load32_store32_of_disjoint (by omega), load32_store32_of_disjoint (by omega),
            hb.isFree, hfree.1]
        · rw [load32_store32_of_disjoint (by omega), load32_store32 (by omega)]
        · rw [hsum, load32_store32 (by split_ifs <;> omega)]
      · rw [hplace] at hx
        rw [store32_of_disjoint (by omega), store32_of_disjoint (by omega)]
    · rw [if_neg hfree, if_neg (by rwa [Bool.and_eq_true])]

/-- The merging of `kfree`, from a place of the list on: what is before has been gone
    through. -/
def MergeInv (L : HeapLayout) (bs : List Block) (m₀ : Mem) (k : ℕ) : Mem × ℕ → Prop
  | (m, current) => ∃ bs₁ bs₂, Tiled L m (bs₁ ++ bs₂) ∧
      current = walkAt (endOf L.heap bs₁) bs₂ ∧ bs₁ ++ mergeFree bs₂ = mergeFree bs ∧
      (∀ x, ¬ InHeader L.heap (mergeFree bs) x → m x = m₀ x) ∧ bs₂.length = k

/-- The first block is still one after merging. -/
theorem inHeader_mergeFree {a x : ℕ} (hx : a ≤ x) (hx' : x < a + 12) :
    InHeader a (mergeFree (b :: bs)) x := by
  cases bs with
  | nil => exact inHeader_cons.2 (.inl ⟨hx, hx'⟩)
  | cons c bs =>
    rw [mergeFree]
    split_ifs
    · exact inHeader_cons.2 (.inl ⟨hx, hx'⟩)
    · exact inHeader_cons.2 (.inl ⟨hx, hx'⟩)

/-- A pass of the merging goes on, or has reached the last block. -/
theorem kfreePass_spec (L : HeapLayout) (bs : List Block) (m₀ : Mem) (k : ℕ) (st : Mem × ℕ)
    (hst : MergeInv L bs m₀ k st) :
    (∃ m', kfreePass st = some (.done m') ∧ Tiled L m' (mergeFree bs) ∧
      ∀ x, ¬ InHeader L.heap (mergeFree bs) x → m' x = m₀ x) ∨
    ∃ st' k', kfreePass st = some (.next st') ∧ k' < k ∧ MergeInv L bs m₀ k' st' := by
  obtain ⟨m, current⟩ := st
  obtain ⟨bs₁, bs₂, h, rfl, hmerge, hframe, rfl⟩ := hst
  have hcur : ∀ b bs₂, walkAt (endOf L.heap bs₁) (b :: bs₂) = endOf L.heap bs₁ := fun b bs₂ =>
    if_neg (by simp)
  match bs₂ with
  | [] =>
    refine .inl ⟨m, by rw [walkAt, if_pos rfl, kfreePass, if_pos rfl], ?_, hframe⟩
    rw [mergeFree] at hmerge
    rwa [hmerge] at h
  | [b] =>
    have hnext : load32 m (endOf L.heap bs₁ + 8) = 0 := h.next.trans (if_pos rfl)
    refine .inl ⟨m, ?_, ?_, hframe⟩
    · rw [hcur, kfreePass, if_neg (endOf_ne_zero L bs₁)]
      simp only [hnext, if_true]
    · rw [mergeFree] at hmerge
      rwa [hmerge] at h
  | b :: c :: bs₂ =>
    obtain ⟨m', hpass, hstep, hm'⟩ := kfreePass_step h
    -- The pass writes in the header of a block that is still there at the end.
    have hframe' : ∀ x, ¬ InHeader L.heap (mergeFree bs) x → m' x = m₀ x := fun x hx => by
      have hout : x < endOf L.heap bs₁ ∨ endOf L.heap bs₁ + 12 ≤ x := by
        by_contra hn
        rw [← hmerge, inHeader_append] at hx
        exact hx (.inr (inHeader_mergeFree (by omega) (by omega)))
      rw [hstep x hout, hframe x hx]
    rw [hcur, hpass]
    by_cases hfree : (b.free && c.free) = true
    · -- The two blocks are merged, and the next pass is after them.
      rw [if_pos hfree] at hm'
      refine .inr ⟨_, bs₂.length, rfl, by simp, bs₁ ++ [⟨b.size + (12 + c.size), true⟩], bs₂,
        by simpa using hm', hm'.next, ?_, hframe', rfl⟩
      rw [← hmerge, mergeFree, if_pos hfree]
      simp
    · rw [if_neg hfree] at hm'
      subst hm'
      refine .inr ⟨_, bs₂.length + 1, rfl, by simp, bs₁ ++ [b], c :: bs₂, by simpa using h, h.next,
        ?_, hframe', rfl⟩
      rw [← hmerge, mergeFree, if_neg hfree]
      simp

/-- `kfree` of a used block: the memory changes in its header, and in those of the blocks that
    there are afterwards. -/
theorem kfree_spec {s : Heap} {n : ℕ} (h : Tiled L s.mem (bs₁ ++ ⟨n, false⟩ :: bs₂))
    (hfl : s.freeList = L.heap) :
    ∃ m', kfree s (endOf L.heap bs₁ + 12) = some { s with mem := m' } ∧
      Tiled L m' (mergeFree (bs₁ ++ ⟨n, true⟩ :: bs₂)) ∧
      Keeps L (usedAt L.heap bs₁ ++ usedAt (endOf L.heap bs₁ + 12 + n) bs₂) s.mem m' ∧
      ∀ x, ¬ InHeader L.heap (mergeFree (bs₁ ++ ⟨n, true⟩ :: bs₂)) x →
        m' x = store32 s.mem (endOf L.heap bs₁) 1 x := by
  have hb := h.isBlock
  set m₁ := store32 s.mem (endOf L.heap bs₁) 1 with hm₁
  have hframe : ∀ x, x < endOf L.heap bs₁ ∨ endOf (endOf L.heap bs₁) [⟨n, false⟩] ≤ x →
      m₁ x = s.mem x := fun x hx => by
    simp only [endOf_cons, endOf_nil] at hx
    exact store32_of_disjoint (by omega)
  have h₁ : Tiled L m₁ (bs₁ ++ ⟨n, true⟩ :: bs₂) := by
    refine h.replace (y := [⟨n, false⟩]) (z := [⟨n, true⟩]) rfl ?_ hframe
    intro p hp
    rw [place_cons, place_nil, List.mem_singleton] at hp
    subst hp
    refine ⟨load32_store32 (by decide), ?_, ?_⟩
    · rw [load32_store32_of_disjoint (by omega), hb.size]
    · rw [load32_store32_of_disjoint (by omega), hb.next]
  have hused : usedAt L.heap (bs₁ ++ ⟨n, true⟩ :: bs₂) =
      usedAt L.heap bs₁ ++ usedAt (endOf L.heap bs₁ + 12 + n) bs₂ := by
    rw [usedAt_append, usedAt_cons]
    rfl
  have hwalk : s.freeList = walkAt (endOf L.heap []) (bs₁ ++ ⟨n, true⟩ :: bs₂) := by
    rw [hfl, walkAt, if_neg h₁.ne_nil, endOf_nil]
  obtain ⟨m', hm', htiled, hheader⟩ := loop_of_variant (n := heapFuel)
    (kfreePass_spec L (bs₁ ++ ⟨n, true⟩ :: bs₂) m₁) (s := (m₁, s.freeList))
    ⟨[], _, h₁, hwalk, rfl, fun _ _ => rfl, rfl⟩ h₁.length_lt
  have hkeeps := keeps_of_header htiled.ends hheader
  rw [usedAt_mergeFree, hused] at hkeeps
  refine ⟨m', ?_, htiled, (h.keeps (y := [⟨n, false⟩]) hframe).trans hkeeps, hheader⟩
  have hkfree : kfree s (endOf L.heap bs₁ + 12) =
      (loop kfreePass heapFuel (m₁, s.freeList)).bind fun m => some { s with mem := m } := by
    rw [kfree, if_neg (by omega), Nat.add_sub_cancel]
    rfl
  rw [hkfree, hm', Option.bind_some]

end Free

end Fru1tOs
