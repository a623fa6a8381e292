import Fru1tOs.Heap.Alloc

/-!
# Runs of the heap

Runs of `kmalloc`, of `kfree` of live pointers, and of writes in the payload of a live
pointer, after `memory_init`. The live pointers are those that `kmalloc` returned and
that were not freed since.

In every state, the list of blocks that starts at `free_list` covers the heap, in the
order of the addresses, and its used blocks are those of the live pointers
(`HeapRun.Ok`). What a call does to the list of blocks is `blockStep`. No call changes a
byte in the payload of a live pointer other than the one it is given (`heap_run_ok`).
-/

namespace Fru1tOs

open Lib

/-- The heap, and the live pointers. -/
structure HeapRun where
  heap : Heap
  live : List ℕ

/-- The calls of a run. A call with a pointer that is neither live nor, for `kfree`,
    `NULL` is not made. -/
inductive HeapCall
  | kmalloc (size : UInt32)
  | kfree (ptr : ℕ)
  | write (ptr offset : ℕ) (byte : UInt8)

/-- The pointer given to a call. -/
def HeapCall.target : HeapCall → Option ℕ
  | .kmalloc _ => none
  | .kfree ptr => some ptr
  | .write ptr _ _ => some ptr

namespace HeapRun

/-- The size of the payload of a pointer, from the header of its block. -/
def payload (s : HeapRun) (ptr : ℕ) : ℕ := load32 s.heap.mem (ptr - 8)

/-- The state after `memory_init`. -/
def init (L : HeapLayout) (s : Heap) : HeapRun := ⟨memoryInit L s, []⟩

/-- The effect of a call. -/
def call (s : HeapRun) : HeapCall → Option HeapRun
  | .kmalloc size => do
    let (ptr, heap) ← Fru1tOs.kmalloc s.heap size.toNat
    return ⟨heap, if ptr = 0 then s.live else ptr :: s.live⟩
  | .kfree ptr =>
    if ptr = 0 ∨ ptr ∈ s.live then do
      let heap ← Fru1tOs.kfree s.heap ptr
      return ⟨heap, s.live.erase ptr⟩
    else some s
  | .write ptr offset byte =>
    if ptr ∈ s.live ∧ offset < s.payload ptr then
      some { s with heap := { s.heap with mem := Function.update s.heap.mem (ptr + offset) byte } }
    else some s

end HeapRun

/-- The blocks from the address `a` on, following `next`. -/
def blockList (m : Mem) : ℕ → ℕ → List (ℕ × Block)
  | 0, _ => []
  | n + 1, a =>
    if a = 0 then [] else
      (a, ⟨load32 m (a + 4), load32 m a ≠ 0⟩) :: blockList m n (load32 m (a + 8))

theorem blockList_eq_place {L : HeapLayout} {m : Mem} {bs₁ bs₂ : List Block}
    (h : Tiled L m (bs₁ ++ bs₂)) {n : ℕ} (hn : bs₂.length < n) :
    blockList m n (walkAt (endOf L.heap bs₁) bs₂) = place (endOf L.heap bs₁) bs₂ := by
  induction bs₂ generalizing bs₁ n with
  | nil =>
    obtain ⟨n, rfl⟩ : ∃ k, n = k + 1 := ⟨n - 1, by omega⟩
    rw [walkAt, if_pos rfl, blockList, if_pos rfl, place_nil]
  | cons b bs₂ ih =>
    obtain ⟨n, rfl⟩ : ∃ k, n = k + 1 := ⟨n - 1, by omega⟩
    have hb := h.isBlock
    have hrest := ih (show Tiled L m ((bs₁ ++ [b]) ++ bs₂) by simpa using h) (n := n)
      (by simpa using hn)
    have hfree : decide (load32 m (endOf L.heap bs₁) ≠ 0) = b.free := by
      rw [hb.isFree]
      cases b.free <;> rfl
    rw [walkAt, if_neg (by simp), blockList, if_neg (endOf_ne_zero L bs₁), h.next, hrest, hb.size,
      hfree, endOf_append, endOf_cons, endOf_nil, place_cons]

/-- The heap in a state of a run. -/
structure HeapRun.Ok (L : HeapLayout) (s : HeapRun) : Prop where
  /-- The blocks of the list are in order and cover the heap. -/
  tiles : ∃ bs, blockList s.heap.mem heapFuel s.heap.freeList = place L.heap bs ∧
    endOf L.heap bs = L.heapEnd
  /-- Its used blocks are those of the live pointers, each once. -/
  used : s.live.Perm (((blockList s.heap.mem heapFuel s.heap.freeList).filter
    fun p => !p.2.free).map fun p => p.1 + 12)
  nodup : s.live.Nodup
  inside : ∀ p ∈ s.live, L.heap + 12 ≤ p ∧ p + s.payload p ≤ L.heapEnd
  disjoint : ∀ p ∈ s.live, ∀ q ∈ s.live, p ≠ q → p + s.payload p ≤ q ∨ q + s.payload q ≤ p

/-- The blocks after a call. -/
def blockStep (L : HeapLayout) (bs : List Block) : HeapCall → List Block
  | .kmalloc size =>
    if size.toNat = 0 then bs
    else ((allocBlocks L.heap (roundUp size.toNat) bs).map Prod.snd).getD bs
  | .kfree ptr =>
    if ptr ∈ (usedAt L.heap bs).map Prod.fst then mergeFree (markFree L.heap ptr bs) else bs
  | .write _ _ _ => bs

/-- The invariant of the runs. -/
structure HeapInv (L : HeapLayout) (s : HeapRun) (bs : List Block) : Prop where
  tiled : Tiled L s.heap.mem bs
  freeList : s.heap.freeList = L.heap
  live : s.live.Perm ((usedAt L.heap bs).map Prod.fst)

namespace HeapInv

variable {L : HeapLayout} {s : HeapRun} {bs : List Block}

/-- The payload of a live pointer is that of a used block. -/
theorem mem_usedAt_of_live (h : HeapInv L s bs) {p : ℕ} (hp : p ∈ s.live) :
    (p, s.payload p) ∈ usedAt L.heap bs := by
  obtain ⟨u, hu, rfl⟩ := List.mem_map.1 (h.live.subset hp)
  obtain ⟨hplace, h12⟩ := mem_usedAt.1 hu
  have hsize := (h.tiled.blocks _ hplace).size
  simp only at hsize
  have hpayload : s.payload u.1 = u.2 := by
    rw [HeapRun.payload, ← hsize]
    congr 1
    omega
  rw [hpayload]
  exact hu

theorem blockList_eq (h : HeapInv L s bs) :
    blockList s.heap.mem heapFuel s.heap.freeList = place L.heap bs := by
  have hwalk : s.heap.freeList = walkAt (endOf L.heap []) bs :=
    h.freeList.trans (if_neg h.tiled.ne_nil).symm
  rw [hwalk]
  exact blockList_eq_place (show Tiled L s.heap.mem ([] ++ bs) from h.tiled) h.tiled.length_lt

/-- A payload is in the heap. -/
theorem used_bounds (h : HeapInv L s bs) {p n : ℕ} (hp : (p, n) ∈ usedAt L.heap bs) :
    L.heap + 12 ≤ p ∧ p + n ≤ L.heapEnd := by
  obtain ⟨hplace, h12⟩ := mem_usedAt.1 hp
  have := mem_place hplace
  rw [h.tiled.ends] at this
  simp only at this h12
  omega

theorem ok (h : HeapInv L s bs) : s.Ok L := by
  have hlist := h.blockList_eq
  have hlive := h.live
  refine ⟨⟨bs, hlist, h.tiled.ends⟩, ?_, ?_, fun p hp => ?_, fun p hp q hq hpq => ?_⟩
  · rw [hlist]
    rw [usedAt, List.map_map] at hlive
    exact hlive
  · exact hlive.nodup_iff.2 (nodup_usedAt L.heap bs)
  · exact h.used_bounds (h.mem_usedAt_of_live hp)
  · exact usedAt_disjoint (h.mem_usedAt_of_live hp) (h.mem_usedAt_of_live hq) hpq

/-- The invariant depends on the memory of the heap, and not on the order of the live
    pointers. -/
theorem congr (h : HeapInv L s bs) {m' : Mem} {l : List ℕ}
    (hm : ∀ x, L.heap ≤ x → x < L.heapEnd → m' x = s.heap.mem x) (hl : l.Perm s.live) :
    HeapInv L ⟨{ s.heap with mem := m' }, l⟩ bs where
  tiled :=
    { blocks := fun p hp => (h.tiled.blocks p hp).congr fun x hx hx' => by
        obtain ⟨h₁, h₂⟩ := mem_place hp
        rw [h.tiled.ends] at h₂
        exact hm x (by omega) (by omega)
      ends := h.tiled.ends }
  freeList := h.freeList
  live := hl.trans h.live

/-- A used block, by its pointer. -/
theorem exists_block (h : HeapInv L s bs) {p : ℕ} (hp : p ∈ s.live) :
    ∃ bs₁ bs₂, bs = bs₁ ++ ⟨s.payload p, false⟩ :: bs₂ ∧ p = endOf L.heap bs₁ + 12 := by
  obtain ⟨hplace, h12⟩ := mem_usedAt.1 (h.mem_usedAt_of_live hp)
  obtain ⟨bs₁, bs₂, hbs, hend⟩ := exists_of_mem_place hplace
  exact ⟨bs₁, bs₂, hbs, by simp only at hend h12; omega⟩

/-- `kmalloc` adds a used block that is large enough, or returns `NULL` if the size is
    zero or no free block is large enough. -/
theorem kmalloc (h : HeapInv L s bs) (size : ℕ) :
    (Fru1tOs.kmalloc s.heap size = some (0, s.heap) ∧
      (size = 0 ∨ ∀ b ∈ bs, b.free = true → b.size < roundUp size)) ∨
    ∃ p h' bs' n, size ≠ 0 ∧ (∃ b ∈ bs, b.free = true ∧ roundUp size ≤ b.size) ∧
      Fru1tOs.kmalloc s.heap size = some (p, h') ∧ p ≠ 0 ∧ roundUp size ≤ n ∧
      HeapInv L ⟨h', p :: s.live⟩ bs' ∧ Keeps L (usedAt L.heap bs) s.heap.mem h'.mem ∧
      (∀ u, u ∈ usedAt L.heap bs' ↔ u = (p, n) ∨ u ∈ usedAt L.heap bs) ∧
      allocBlocks L.heap (roundUp size) bs = some (p, bs') ∧
      ∀ x, ¬ InHeader L.heap bs' x → h'.mem x = s.heap.mem x := by
  rcases kmalloc_spec h.tiled h.freeList size with
    hnone | ⟨m', bs₁, b, bs₂, h0, rfl, hsmall, hfree, hsize, hk, htiled, hkeeps, hheader⟩
  · exact .inl hnone
  · have hold : usedAt L.heap (bs₁ ++ b :: bs₂) =
        usedAt L.heap bs₁ ++ usedAt (endOf L.heap bs₁ + 12 + b.size) bs₂ := by
      rw [usedAt_append, usedAt_cons, hfree]
      rfl
    have hnew : usedAt L.heap (bs₁ ++ (cut b (roundUp size) ++ bs₂)) = usedAt L.heap bs₁ ++
        (endOf L.heap bs₁ + 12, cutSize b (roundUp size)) ::
          usedAt (endOf L.heap bs₁ + 12 + b.size) bs₂ := by
      rw [usedAt_append, usedAt_cut]
    refine .inr ⟨_, _, _, cutSize b (roundUp size), h0, ⟨b, by simp, hfree, hsize⟩, hk, by omega,
      le_cutSize hsize, ⟨htiled, h.freeList, ?_⟩, hkeeps, fun u => ?_,
      allocBlocks_append hsmall hfree hsize, hheader⟩
    · have hlive := h.live
      rw [hold, List.map_append] at hlive
      rw [hnew, List.map_append, List.map_cons]
      exact (List.Perm.cons _ hlive).trans List.perm_middle.symm
    · rw [hold, hnew]
      simp only [List.mem_append, List.mem_cons]
      tauto

/-- `kfree` of a live pointer takes its block away from the used ones. -/
theorem kfree (h : HeapInv L s bs) {p : ℕ} (hp : p ∈ s.live) :
    ∃ h' bs', Fru1tOs.kfree s.heap p = some h' ∧ HeapInv L ⟨h', s.live.erase p⟩ bs' ∧
      (∀ u, u ∈ usedAt L.heap bs' ↔ u ∈ usedAt L.heap bs ∧ u.1 ≠ p) ∧
      Keeps L (usedAt L.heap bs') s.heap.mem h'.mem ∧
      bs' = mergeFree (markFree L.heap p bs) ∧
      ∀ x, ¬ InHeader L.heap bs' x → h'.mem x = store32 s.heap.mem (p - 12) 1 x := by
  obtain ⟨bs₁, bs₂, rfl, hptr⟩ := h.exists_block hp
  obtain ⟨m', hk, htiled, hkeeps, hheader⟩ := kfree_spec h.tiled h.freeList
  rw [← hptr] at hk
  have hold : usedAt L.heap (bs₁ ++ ⟨s.payload p, false⟩ :: bs₂) = usedAt L.heap bs₁ ++
      (p, s.payload p) :: usedAt (endOf L.heap bs₁ + 12 + s.payload p) bs₂ := by
    rw [usedAt_append, usedAt_cons, hptr]
    rfl
  have hnew : usedAt L.heap (mergeFree (bs₁ ++ ⟨s.payload p, true⟩ :: bs₂)) =
      usedAt L.heap bs₁ ++ usedAt (endOf L.heap bs₁ + 12 + s.payload p) bs₂ := by
    rw [usedAt_mergeFree, usedAt_append, usedAt_cons]
    rfl
  -- No other used block has the same pointer.
  have hnd := nodup_usedAt L.heap (bs₁ ++ ⟨s.payload p, false⟩ :: bs₂)
  rw [hold, List.map_append, List.map_cons] at hnd
  have hne : p ∉ (usedAt L.heap bs₁).map Prod.fst ++
      (usedAt (endOf L.heap bs₁ + 12 + s.payload p) bs₂).map Prod.fst :=
    (List.nodup_middle.1 hnd |> List.nodup_cons.1).1
  refine ⟨_, _, hk, ⟨htiled, h.freeList, ?_⟩, fun u => ?_, ?_, ?_, ?_⟩
  · have hlive := h.live.erase p
    rw [hold, List.map_append, List.map_cons,
      List.erase_append_right _ fun hmem => hne (List.mem_append_left _ hmem),
      List.erase_cons_head, ← List.map_append, ← hnew] at hlive
    exact hlive
  · rw [hold, hnew]
    simp only [List.mem_append, List.mem_cons]
    constructor
    · intro hu
      refine ⟨hu.imp id .inr, fun hup => hne ?_⟩
      rw [← List.map_append]
      exact List.mem_map.2 ⟨u, List.mem_append.2 hu, hup⟩
    · rintro ⟨hu | rfl | hu, hup⟩
      · exact .inl hu
      · exact absurd rfl hup
      · exact .inr hu
  · rw [hnew]
    exact hkeeps
  · rw [hptr, markFree_append]
  · rw [show p - 12 = endOf L.heap bs₁ by omega]
    exact hheader

/-- `NULL` is not a live pointer. -/
theorem ne_zero_of_live (h : HeapInv L s bs) {p : ℕ} (hp : p ∈ s.live) : p ≠ 0 := by
  have := (mem_usedAt.1 (h.mem_usedAt_of_live hp)).2
  simp only at this
  omega

/-- Writes in the payload of a used block. -/
theorem of_payload (h : HeapInv L s bs) {u : ℕ × ℕ} (hu : u ∈ usedAt L.heap bs) {m' : Mem}
    (hm : ∀ x, x < u.1 ∨ u.1 + u.2 ≤ x → m' x = s.heap.mem x) :
    HeapInv L ⟨{ s.heap with mem := m' }, s.live⟩ bs where
  tiled :=
    { blocks := fun p hp => (h.tiled.blocks p hp).congr fun x hx hx' => by
        -- A payload overlaps no header.
        have hdisj := place_disjoint (mem_usedAt.1 hu).1 hp
        have h12 := (mem_usedAt.1 hu).2
        simp only at hdisj
        exact hm x (by omega)
      ends := h.tiled.ends }
  freeList := h.freeList
  live := h.live

/-- A write in the payload of a live pointer. -/
theorem write (h : HeapInv L s bs) (ptr offset : ℕ) (byte : UInt8) :
    ∃ s', s.call (.write ptr offset byte) = some s' ∧ HeapInv L s' bs ∧
      ∀ p ∈ s.live, p ≠ ptr → ∀ x, p ≤ x → x < p + s.payload p → s'.heap.mem x = s.heap.mem x := by
  by_cases hw : ptr ∈ s.live ∧ offset < s.payload ptr
  · have hmem := h.mem_usedAt_of_live hw.1
    refine ⟨{ s with heap := { s.heap with
        mem := Function.update s.heap.mem (ptr + offset) byte } }, by rw [HeapRun.call, if_pos hw],
      h.of_payload hmem fun x hx => ?_, fun p hp hne x hx hx' => ?_⟩
    · simp only at hx
      exact Function.update_of_ne (by omega) _ _
    · refine Function.update_of_ne ?_ _ _
      rintro rfl
      have := usedAt_disjoint (h.mem_usedAt_of_live hp) hmem hne
      simp only at this
      omega
  · exact ⟨s, by rw [HeapRun.call, if_neg hw], h, fun _ _ _ _ _ _ => rfl⟩

theorem mem_used (h : HeapInv L s bs) {p : ℕ} :
    p ∈ (usedAt L.heap bs).map Prod.fst ↔ p ∈ s.live := (h.live.mem_iff (a := p)).symm

/-- Every call returns, does to the list of blocks what `blockStep` says, and changes no payload
    but that of the pointer it is given. -/
theorem call (h : HeapInv L s bs) (c : HeapCall) :
    ∃ s', s.call c = some s' ∧ HeapInv L s' (blockStep L bs c) ∧ ∀ p ∈ s.live, c.target ≠ some p →
      ∀ x, p ≤ x → x < p + s.payload p → s'.heap.mem x = s.heap.mem x := by
  cases c with
  | kmalloc size =>
    rw [blockStep]
    rcases h.kmalloc size.toNat with
      ⟨hk, hno⟩ | ⟨p, h', bs', n, h0, -, hk, hp0, -, hinv, hkeeps, -, halloc, -⟩
    · refine ⟨s, ?_, ?_, fun _ _ _ _ _ _ => rfl⟩
      · simp only [HeapRun.call, hk, Option.bind_eq_bind, Option.bind_some, if_true,
          Option.pure_def]
      · rcases hno with h0 | hno
        · rwa [if_pos h0]
        · rw [allocBlocks_eq_none hno, Option.map_none, Option.getD_none, ite_self]
          exact h
    · refine ⟨⟨h', p :: s.live⟩, ?_, ?_, fun q hq _ x hx hx' =>
        hkeeps x (.inr (.inr ⟨_, h.mem_usedAt_of_live hq, hx, hx'⟩))⟩
      · simp only [HeapRun.call, hk, Option.bind_eq_bind, Option.bind_some, Option.pure_def,
          if_neg hp0]
      · rwa [if_neg h0, halloc, Option.map_some, Option.getD_some]
  | kfree ptr =>
    rw [blockStep]
    by_cases hp : ptr ∈ s.live
    · obtain ⟨h', bs', hk, hinv, hused, hkeeps, rfl, -⟩ := h.kfree hp
      refine ⟨⟨h', s.live.erase ptr⟩, ?_, by rwa [if_pos (h.mem_used.2 hp)],
        fun q hq hne x hx hx' => hkeeps x (.inr (.inr ⟨_, (hused _).2 ⟨h.mem_usedAt_of_live hq,
          fun heq => hne (congrArg some heq.symm)⟩, hx, hx'⟩))⟩
      simp only [HeapRun.call, hp, or_true, if_true, hk, Option.bind_eq_bind, Option.bind_some,
        Option.pure_def]
    · rw [if_neg fun hmem => hp (h.mem_used.1 hmem)]
      refine ⟨s, ?_, h, fun _ _ _ _ _ _ => rfl⟩
      by_cases h0 : ptr = 0
      · simp only [HeapRun.call, h0, true_or, if_true, Fru1tOs.kfree, Option.bind_eq_bind,
          Option.bind_some, Option.pure_def]
        rw [← h0, List.erase_of_not_mem hp]
      · simp only [HeapRun.call, h0, hp, or_self, if_false]
  | write ptr offset byte =>
    obtain ⟨s', hs', h', hkeeps⟩ := h.write ptr offset byte
    exact ⟨s', hs', h', fun p hp hne => hkeeps p hp fun heq => hne (by rw [heq]; rfl)⟩

/-! The same call in two memories with the same blocks: where they are the same, they stay so. -/

section Congr

variable {s₁ s₂ : HeapRun} {t₁ t₂ : Heap}

theorem kmalloc_congr (h₁ : HeapInv L s₁ bs) (h₂ : HeapInv L s₂ bs) {size p₁ p₂ : ℕ}
    (hk₁ : Fru1tOs.kmalloc s₁.heap size = some (p₁, t₁))
    (hk₂ : Fru1tOs.kmalloc s₂.heap size = some (p₂, t₂)) :
    p₁ = p₂ ∧ ∀ x, s₁.heap.mem x = s₂.heap.mem x → t₁.mem x = t₂.mem x := by
  rcases h₁.kmalloc size with
    ⟨hf₁, hno₁⟩ | ⟨q₁, u₁, bs₁, -, h0, ⟨b, hb, hfree, hfit⟩, hs₁, -, -, hinv₁, -, -, ha₁, hx₁⟩
  · rw [hf₁, Option.some_inj, Prod.mk.injEq] at hk₁
    rcases h₂.kmalloc size with ⟨hf₂, -⟩ | ⟨-, -, -, -, h0, ⟨b, hb, hfree, hfit⟩, -⟩
    · rw [hf₂, Option.some_inj, Prod.mk.injEq] at hk₂
      rw [← hk₁.1, ← hk₂.1, ← hk₁.2, ← hk₂.2]
      exact ⟨rfl, fun x hx => hx⟩
    · exact hno₁.elim (fun hno => absurd hno h0) fun hno => absurd (hno b hb hfree) (not_lt.2 hfit)
  · rw [hs₁, Option.some_inj, Prod.mk.injEq] at hk₁
    rcases h₂.kmalloc size with ⟨-, hno₂⟩ | ⟨q₂, u₂, bs₂, -, -, -, hs₂, -, -, hinv₂, -, -, ha₂, hx₂⟩
    · exact hno₂.elim (fun hno => absurd hno h0) fun hno => absurd (hno b hb hfree) (not_lt.2 hfit)
    · rw [hs₂, Option.some_inj, Prod.mk.injEq] at hk₂
      obtain ⟨rfl, rfl⟩ := Prod.mk.inj (Option.some.inj (ha₁.symm.trans ha₂))
      rw [← hk₁.1, ← hk₂.1, ← hk₁.2, ← hk₂.2]
      refine ⟨rfl, fun x hx => ?_⟩
      by_cases hin : InHeader L.heap bs₁ x
      · exact hinv₂.tiled.eq_of_inHeader hinv₁.tiled hin
      · rw [hx₁ x hin, hx₂ x hin, hx]

theorem kfree_congr (h₁ : HeapInv L s₁ bs) (h₂ : HeapInv L s₂ bs) {p : ℕ} (hp₁ : p ∈ s₁.live)
    (hp₂ : p ∈ s₂.live) (hk₁ : Fru1tOs.kfree s₁.heap p = some t₁)
    (hk₂ : Fru1tOs.kfree s₂.heap p = some t₂) {x : ℕ} (hx : s₁.heap.mem x = s₂.heap.mem x) :
    t₁.mem x = t₂.mem x := by
  obtain ⟨u₁, bs₁, hs₁, hinv₁, -, -, rfl, hx₁⟩ := h₁.kfree hp₁
  obtain ⟨u₂, bs₂, hs₂, hinv₂, -, -, rfl, hx₂⟩ := h₂.kfree hp₂
  obtain rfl := Option.some.inj (hs₁.symm.trans hk₁)
  obtain rfl := Option.some.inj (hs₂.symm.trans hk₂)
  by_cases hin : InHeader L.heap (mergeFree (markFree L.heap p bs)) x
  · exact hinv₂.tiled.eq_of_inHeader hinv₁.tiled hin
  · rw [hx₁ x hin, hx₂ x hin]
    exact store32_congr hx

end Congr

end HeapInv

/-- The invariant after `memory_init`. -/
theorem heapInv_init (L : HeapLayout) (s₀ : Heap) :
    HeapInv L (HeapRun.init L s₀) [⟨heapSize - 12, true⟩] := by
  obtain ⟨htiled, hfl, -⟩ := tiled_memoryInit L s₀
  exact ⟨htiled, hfl, by rw [usedAt_cons]; exact List.Perm.refl _⟩

/-- In every run of `kmalloc`, of `kfree` of live pointers, and of writes in live
    payloads after `memory_init`, every call returns, the blocks cover the heap with one
    used block for each live pointer, and no call changes the payload of a live pointer
    other than the one it is given. -/
theorem heap_run_ok (L : HeapLayout) (s₀ : Heap) (calls : List HeapCall) :
    ∃ s, run HeapRun.call (HeapRun.init L s₀) calls = some s ∧ s.Ok L ∧
      ∀ c, ∃ s', s.call c = some s' ∧ ∀ p ∈ s.live, c.target ≠ some p →
        ∀ x, p ≤ x → x < p + s.payload p → s'.heap.mem x = s.heap.mem x := by
  have hstep : ∀ s c, (∃ bs, HeapInv L s bs) → ∃ s', s.call c = some s' ∧ ∃ bs, HeapInv L s' bs :=
    fun s c ⟨bs, h⟩ => by
      obtain ⟨s', hs', h', -⟩ := h.call c
      exact ⟨s', hs', _, h'⟩
  obtain ⟨s, hs, bs, h⟩ := run_of_invariant hstep ⟨_, heapInv_init L s₀⟩ calls
  refine ⟨s, hs, h.ok, fun c => ?_⟩
  obtain ⟨s', hs', -, hkeeps⟩ := h.call c
  exact ⟨s', hs', hkeeps⟩

end Fru1tOs
