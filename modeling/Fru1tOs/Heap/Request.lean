import Fru1tOs.Heap.Coalesce

/-!
# What a request gets

A request of `kmalloc` is rounded up to a multiple of 8 in 32 bits: the seven largest sizes
become zero, and are served by a block of the heap, which is far smaller
(`kmalloc_serves_iff`).

The payload is 12 bytes after the start of its block. With the heap at a multiple of 8, the
first pointer of every run is not one, and a later one is if the block it is taken from
starts 4 bytes after a multiple of 8 (`kmalloc_aligned_iff`).
-/

namespace Fru1tOs

open Lib

section Requests

variable {L : HeapLayout} {s : HeapRun} {bs : List Block} {size : ℕ}

theorem le_roundUp (h : size ≤ 2 ^ 32 - 8) : size ≤ roundUp size := by
  rw [roundUp, Nat.mod_eq_of_lt (by omega)]
  omega

/-- Beyond that the sum wraps. -/
theorem roundUp_of_lt (h : 2 ^ 32 - 8 < size) (hlt : size < 2 ^ 32) : roundUp size = 0 := by
  rw [roundUp]
  omega

/-- The blocks of the list are in the heap. -/
theorem HeapInv.size_lt (h : HeapInv L s bs) {p : ℕ × Block} (hp : p ∈ s.blocks) :
    p.2.size < heapSize := by
  rw [h.blocks_eq] at hp
  obtain ⟨hlo, hhi⟩ := mem_place hp
  rw [h.tiled.ends, HeapLayout.heapEnd] at hhi
  omega

/-! ## Sizes -/

/-- `kmalloc` refuses the request, or returns a block that has the bytes asked for. -/
def HeapRun.Serves (s : HeapRun) (size : UInt32) : Prop :=
  ∃ p h', kmalloc s.heap size.toNat = some (p, h') ∧ (p = 0 ∨
    ∃ q b, (q, b) ∈ HeapRun.blocks ⟨h', p :: s.live⟩ ∧ p = q + 12 ∧ b.free = false ∧
      size.toNat ≤ b.size)

/-- A request is refused or gets a block of its size at least if and only if it is not one of the
    seven largest ones, or no block is free. -/
theorem HeapInv.serves_iff (h : HeapInv L s bs) (size : UInt32) :
    s.Serves size ↔ size.toNat ≤ 2 ^ 32 - 8 ∨ ∀ p ∈ s.blocks, p.2.free = false := by
  have hsize := size.toNat_lt
  rcases h.kmalloc size.toNat with
    ⟨hk, hno⟩ | ⟨p, h', bs', n, h0, ⟨b, hb, hfree, -⟩, hk, hp0, hn, hinv, -, hused, -, -⟩
  · refine iff_of_true ⟨0, s.heap, hk, .inl rfl⟩ ?_
    by_contra hnot
    obtain ⟨hlarge, hfree⟩ := not_or.1 hnot
    -- A size that wraps is zero after it, so that every free block is large enough.
    rw [roundUp_of_lt (not_le.1 hlarge) hsize] at hno
    refine hfree fun p hp => ?_
    rw [h.blocks_eq] at hp
    obtain ⟨bs₁, bs₂, hbs, -⟩ := exists_of_mem_place hp
    by_contra hpfree
    rcases hno with h0 | hno
    · exact hlarge (h0 ▸ Nat.zero_le _)
    · exact Nat.not_lt_zero _ (hno p.2 (by rw [hbs]; simp) (by simpa using hpfree))
  · obtain ⟨hplace, h12⟩ := mem_usedAt.1 ((hused (p, n)).2 (.inl rfl))
    constructor
    · rintro ⟨p', h'', hk', hp' | ⟨q, c, hqc, -, -, hle⟩⟩
      · cases hk.symm.trans hk'
        exact absurd hp' hp0
      · cases hk.symm.trans hk'
        have := hinv.size_lt hqc
        left
        simp only [heapSize] at this
        omega
    · rintro (hle | hnone)
      · refine ⟨p, h', hk, .inr ⟨p - 12, ⟨n, false⟩, ?_, ?_, rfl, ?_⟩⟩
        · rw [hinv.blocks_eq]
          exact hplace
        · simp only at h12
          omega
        · exact (le_roundUp hle).trans hn
      · obtain ⟨bs₁, bs₂, hbs⟩ := List.append_of_mem hb
        have hmem : (endOf L.heap bs₁, b) ∈ s.blocks := by
          rw [h.blocks_eq, hbs, place_append, place_cons]
          simp
        exact absurd (hnone _ hmem) (by simp [hfree])

/-- In every state of a run, a request is refused or gets a block of its size at least if and only
    if it is not one of the seven largest ones, or no block is free. -/
theorem kmalloc_serves_iff (L : HeapLayout) (s₀ : Heap) (calls : List HeapCall) :
    ∃ s, run HeapRun.call (HeapRun.init L s₀) calls = some s ∧ ∀ size : UInt32,
      s.Serves size ↔ size.toNat ≤ 2 ^ 32 - 8 ∨ ∀ p ∈ s.blocks, p.2.free = false := by
  obtain ⟨s, hs, h⟩ := heapInv_run L s₀ calls
  exact ⟨s, hs, h.serves_iff⟩

/-- A request of the largest size, just after `memory_init`, gets a block of no bytes. -/
theorem kmalloc_max_not_served : ∃ s h',
    run HeapRun.call (HeapRun.init default ⟨fun _ => 0, 0⟩) [] = some s ∧
      kmalloc s.heap (0xffffffff : UInt32).toNat = some (0x8021000c, h') ∧
      HeapRun.blocks ⟨h', [0x8021000c]⟩ =
        [(0x80210000, ⟨0, false⟩), (0x8021000c, ⟨4194280, true⟩)] ∧
      ¬ s.Serves 0xffffffff := by
  have h := heapInv_init default ⟨fun _ => 0, 0⟩
  rcases h.kmalloc (0xffffffff : UInt32).toNat with
    ⟨-, hno⟩ | ⟨p, h', bs', n, -, -, hk, -, -, hinv, -, -, halloc, -⟩
  · exact absurd hno (by decide)
  · have hbs : allocBlocks (default : HeapLayout).heap (roundUp (0xffffffff : UInt32).toNat)
        [⟨heapSize - 12, true⟩] = some (0x8021000c, [⟨0, false⟩, ⟨4194280, true⟩]) := by
      decide +kernel
    obtain ⟨rfl, rfl⟩ := Prod.mk.inj (Option.some.inj (halloc.symm.trans hbs))
    refine ⟨_, h', rfl, hk, hinv.blocks_eq, fun hserves => ?_⟩
    rcases (h.serves_iff _).1 hserves with hle | hnone
    · exact absurd hle (by decide)
    · rw [h.blocks_eq] at hnone
      exact absurd (hnone _ List.mem_cons_self) (by decide)

/-! ## Alignment -/

/-- The block that a request of `size` bytes is taken from: the first free one that is large
    enough. -/
def HeapRun.firstFit (s : HeapRun) (size : ℕ) : Option (ℕ × Block) :=
  s.blocks.find? fun p => p.2.free && decide (roundUp size ≤ p.2.size)

theorem map_fst_allocBlocks (a size : ℕ) (bs : List Block) :
    (allocBlocks a size bs).map Prod.fst =
      ((place a bs).find? fun p => p.2.free && decide (size ≤ p.2.size)).map fun p => p.1 + 12 := by
  induction bs generalizing a with
  | nil => rfl
  | cons b bs ih =>
    rw [allocBlocks, place_cons, List.find?_cons]
    by_cases hb : b.free = true ∧ size ≤ b.size
    · simp [hb]
    · have hb' : (b.free && decide (size ≤ b.size)) = false := by simpa using hb
      rw [if_neg hb, hb', Option.map_map, ← ih]
      rfl

/-- What `kmalloc` returns is the payload of the block of the first fit. -/
theorem HeapInv.kmalloc_firstFit (h : HeapInv L s bs) (size : ℕ) :
    ∃ p h', Fru1tOs.kmalloc s.heap size = some (p, h') ∧
      p = if size = 0 then 0 else ((s.firstFit size).map fun b => b.1 + 12).getD 0 := by
  have hfirst := map_fst_allocBlocks L.heap (roundUp size) bs
  rcases h.kmalloc size with ⟨hk, hno⟩ | ⟨p, h', bs', n, h0, -, hk, -, -, -, -, -, halloc, -⟩
  · refine ⟨0, s.heap, hk, ?_⟩
    rcases hno with h0 | hno
    · rw [if_pos h0]
    · rw [allocBlocks_eq_none hno] at hfirst
      rw [HeapRun.firstFit, h.blocks_eq, ← hfirst]
      simp
  · refine ⟨p, h', hk, ?_⟩
    rw [halloc] at hfirst
    rw [if_neg h0, HeapRun.firstFit, h.blocks_eq, ← hfirst]
    rfl

/-- `kmalloc` refuses the request, or returns a multiple of 8. -/
def HeapRun.Aligns (s : HeapRun) (size : UInt32) : Prop :=
  ∃ p h', kmalloc s.heap size.toNat = some (p, h') ∧ (p = 0 ∨ 8 ∣ p)

theorem HeapInv.aligns_iff (h : HeapInv L s bs) (size : UInt32) :
    s.Aligns size ↔ size = 0 ∨ ∀ b, s.firstFit size.toNat = some b → b.1 % 8 = 4 := by
  obtain ⟨p, h', hk, hp⟩ := h.kmalloc_firstFit size.toNat
  have hiff : s.Aligns size ↔ p = 0 ∨ 8 ∣ p := by
    constructor
    · rintro ⟨p', h'', hk', hp'⟩
      cases hk.symm.trans hk'
      exact hp'
    · exact fun hp => ⟨p, h', hk, hp⟩
  rw [hiff, hp]
  by_cases h0 : size = 0
  · simp [h0]
  · have h0' : size.toNat ≠ 0 := fun heq => h0 (UInt32.toNat_inj.1 heq)
    rw [if_neg h0', or_iff_right h0]
    rcases s.firstFit size.toNat with _ | b
    · simp
    · simp only [Option.map_some, Option.getD_some, Option.some.injEq, forall_eq']
      omega

/-- The requests that a heap without a used block refuses. -/
def Refused (size : UInt32) : Prop :=
  size = 0 ∨ heapSize - 16 < size.toNat ∧ size.toNat ≤ 2 ^ 32 - 8

theorem refused_iff (size : UInt32) :
    Refused size ↔ size.toNat = 0 ∨ heapSize - 12 < roundUp size.toNat := by
  have hsize := size.toNat_lt
  have h0 : size = 0 ↔ size.toNat = 0 := UInt32.toNat_inj.symm
  rw [Refused, h0, roundUp]
  simp only [heapSize]
  omega

/-- While every request is refused there is one block, and nothing is live. -/
theorem runBlocks_of_refused {calls : List HeapCall}
    (hcalls : ∀ size, .kmalloc size ∈ calls → Refused size) :
    runBlocks L calls = [⟨heapSize - 12, true⟩] := by
  induction calls using List.reverseRecOn with
  | nil => rfl
  | append_singleton calls c ih =>
    rw [runBlocks_concat, ih fun size hsize => hcalls size (List.mem_append_left _ hsize)]
    cases c with
    | kmalloc size =>
      rw [blockStep]
      rcases (refused_iff size).1 (hcalls size (by simp)) with h0 | hlarge
      · rw [if_pos h0]
      · rw [allocBlocks_eq_none (by simpa using hlarge)]
        simp
    | kfree ptr => rfl
    | write ptr offset byte => rfl

/-- The first request that is served gets the payload of the first block, which is not a multiple
    of 8. -/
theorem HeapInv.aligns_first (hL : 8 ∣ L.heap) (h : HeapInv L s [⟨heapSize - 12, true⟩])
    (size : UInt32) : s.Aligns size ↔ Refused size := by
  rw [h.aligns_iff, refused_iff, HeapRun.firstFit, h.blocks_eq, place_cons, place_nil,
    UInt32.toNat_inj.symm]
  refine or_congr Iff.rfl ?_
  by_cases hfit : roundUp size.toNat ≤ heapSize - 12
  · simp only [List.find?_cons, hfit, decide_true, Bool.and_self, Option.some.injEq, forall_eq']
    omega
  · simp only [List.find?_cons, hfit, decide_false, Bool.and_false, List.find?_nil]
    simpa using hfit

/-- With the heap at a multiple of 8, the pointers that `kmalloc` returns in a run are multiples
    of 8 if and only if the run has no request that a heap without a used block would serve: the
    pointer of the first one is not a multiple of 8. For a single request, the block it is taken
    from decides. -/
theorem kmalloc_aligned_iff (L : HeapLayout) (hL : 8 ∣ L.heap) (s₀ : Heap)
    (calls : List HeapCall) :
    ((∀ pre size, pre ++ [.kmalloc size] <+: calls → ∃ s,
      run HeapRun.call (HeapRun.init L s₀) pre = some s ∧ s.Aligns size) ↔
        ∀ size, .kmalloc size ∈ calls → Refused size) ∧
    ∃ s, run HeapRun.call (HeapRun.init L s₀) calls = some s ∧ ∀ size, s.Aligns size ↔
      size = 0 ∨ ∀ b, s.firstFit size.toNat = some b → b.1 % 8 = 4 := by
  refine ⟨⟨fun hall => ?_, fun hall pre size hpre => ?_⟩, ?_⟩
  · -- As long as all requests are refused, the next one sees the heap as `memory_init` made it.
    induction calls using List.reverseRecOn with
    | nil => exact fun size hsize => absurd hsize List.not_mem_nil
    | append_singleton calls c ih =>
      have hcalls := ih fun pre size hpre => hall pre size (hpre.trans (List.prefix_append _ _))
      intro size hsize
      rcases List.mem_append.1 hsize with hsize | hsize
      · exact hcalls size hsize
      · obtain rfl := List.mem_singleton.1 hsize
        obtain ⟨s, hs, haligns⟩ := hall calls size (List.prefix_refl _)
        obtain ⟨s', hs', h⟩ := heapInv_run L s₀ calls
        obtain rfl := Option.some.inj (hs.symm.trans hs')
        rw [runBlocks_of_refused hcalls] at h
        exact (h.aligns_first hL size).1 haligns
  · obtain ⟨s, hs, h⟩ := heapInv_run L s₀ pre
    have hbefore : pre <+: calls := (List.prefix_append _ _).trans hpre
    rw [runBlocks_of_refused fun size hsize => hall size (hbefore.subset hsize)] at h
    exact ⟨s, hs, (h.aligns_first hL size).2 (hall size (hpre.subset (by simp)))⟩
  · obtain ⟨s, hs, h⟩ := heapInv_run L s₀ calls
    exact ⟨s, hs, h.aligns_iff⟩

theorem kmalloc_aligned_iff_refused :
    8 ∣ (default : HeapLayout).heap ∧
    ∀ pre size, pre ++ [.kmalloc size] <+: [.kmalloc 0, .kmalloc 0x500000] → ∃ s,
      run HeapRun.call (HeapRun.init default ⟨fun _ => 0, 0⟩) pre = some s ∧ s.Aligns size := by
  refine ⟨by decide, (kmalloc_aligned_iff default (by decide) _ _).1.2 fun size hsize => ?_⟩
  rw [refused_iff]
  rcases List.mem_cons.1 hsize with heq | hsize
  · cases heq
    exact .inl rfl
  · cases List.mem_singleton.1 hsize
    exact .inr (by decide)

/-- The first request after `memory_init`, of 8 bytes, with the heap at a multiple of 8. -/
theorem kmalloc_eight_not_aligned : 8 ∣ (default : HeapLayout).heap ∧ ∃ s h',
    run HeapRun.call (HeapRun.init default ⟨fun _ => 0, 0⟩) [] = some s ∧
      kmalloc s.heap (8 : UInt32).toNat = some (0x8021000c, h') ∧ ¬ 8 ∣ 0x8021000c ∧
      ¬ s.Aligns 8 := by
  have h := heapInv_init default ⟨fun _ => 0, 0⟩
  refine ⟨by decide, ?_⟩
  rcases h.kmalloc (8 : UInt32).toNat with
    ⟨-, hno⟩ | ⟨p, h', bs', n, -, -, hk, -, -, -, -, -, halloc, -⟩
  · exact absurd hno (by decide)
  · have hbs : (allocBlocks (default : HeapLayout).heap (roundUp (8 : UInt32).toNat)
        [⟨heapSize - 12, true⟩]).map Prod.fst = some 0x8021000c := by
      decide +kernel
    rw [halloc] at hbs
    obtain rfl := Option.some.inj hbs
    refine ⟨_, h', rfl, hk, by decide, fun haligns => ?_⟩
    have := (refused_iff 8).1 ((h.aligns_first (by decide) 8).1 haligns)
    exact absurd this (by decide)

end Requests

end Fru1tOs
