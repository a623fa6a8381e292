import Fru1tOs.Heap.Basic

/-!
# Blocks

The heap as a list of blocks, one after the other (`place`): the memory holds their
headers (`InHeader`), and they cover the array exactly (`Tiled`). What the allocator must
not change is what is out of the array, and the payloads of the used blocks (`Keeps`).

The abstract operations are on lists: cutting a free block (`cut`), the first one that
is large enough (`allocBlocks`), marking a block free (`markFree`), and merging, once
through the list, each free block with the next one if it is free (`mergeFree`). Cutting
leaves the end of the list where it is (`endOf_cut`), and merging the used blocks
(`usedAt_mergeFree`).
-/

namespace Fru1tOs

open Lib

/-- A block: the size of its payload, and whether it is free. -/
structure Block where
  size : ℕ
  free : Bool
  deriving DecidableEq, Repr

/-! ## Lists of blocks -/

/-- The blocks with their addresses, the first one at `a`. -/
def place : ℕ → List Block → List (ℕ × Block)
  | _, [] => []
  | a, b :: bs => (a, b) :: place (a + 12 + b.size) bs

/-- Where the blocks end, the first one at `a`. -/
def endOf : ℕ → List Block → ℕ
  | a, [] => a
  | a, b :: bs => endOf (a + 12 + b.size) bs

/-- The payloads of the used blocks, with their sizes. -/
def usedAt (a : ℕ) (bs : List Block) : List (ℕ × ℕ) :=
  ((place a bs).filter fun p => !p.2.free).map fun p => (p.1 + 12, p.2.size)

section Lists

variable {a : ℕ} {b : Block} {bs bs₁ bs₂ : List Block}

@[simp] theorem place_nil : place a [] = [] := rfl
@[simp] theorem place_cons : place a (b :: bs) = (a, b) :: place (a + 12 + b.size) bs := rfl
@[simp] theorem endOf_nil : endOf a [] = a := rfl
@[simp] theorem endOf_cons : endOf a (b :: bs) = endOf (a + 12 + b.size) bs := rfl
@[simp] theorem usedAt_nil : usedAt a [] = [] := rfl

theorem usedAt_cons : usedAt a (b :: bs) =
    (if b.free then [] else [(a + 12, b.size)]) ++ usedAt (a + 12 + b.size) bs := by
  cases hb : b.free <;> simp [usedAt, hb]

theorem place_append : place a (bs₁ ++ bs₂) = place a bs₁ ++ place (endOf a bs₁) bs₂ := by
  induction bs₁ generalizing a with
  | nil => rfl
  | cons b bs ih => simp [ih]

theorem endOf_append : endOf a (bs₁ ++ bs₂) = endOf (endOf a bs₁) bs₂ := by
  induction bs₁ generalizing a with
  | nil => rfl
  | cons b bs ih => simp [ih]

theorem usedAt_append : usedAt a (bs₁ ++ bs₂) = usedAt a bs₁ ++ usedAt (endOf a bs₁) bs₂ := by
  simp [usedAt, place_append]

/-- The list takes at least the headers. -/
theorem length_le_endOf (a : ℕ) (bs : List Block) : a + 12 * bs.length ≤ endOf a bs := by
  induction bs generalizing a with
  | nil => simp
  | cons b bs ih =>
    have := ih (a + 12 + b.size)
    simp only [List.length_cons, endOf_cons]
    omega

theorem le_endOf (a : ℕ) (bs : List Block) : a ≤ endOf a bs :=
  (Nat.le_add_right _ _).trans (length_le_endOf a bs)

/-- A block lies between the start and the end of the list. -/
theorem mem_place {p : ℕ × Block} (hp : p ∈ place a bs) :
    a ≤ p.1 ∧ p.1 + 12 + p.2.size ≤ endOf a bs := by
  induction bs generalizing a with
  | nil => cases hp
  | cons b bs ih =>
    rw [endOf_cons]
    rcases List.mem_cons.1 hp with rfl | hp
    · exact ⟨le_rfl, le_endOf _ _⟩
    · obtain ⟨h₁, h₂⟩ := ih hp
      exact ⟨by omega, h₂⟩

/-- The blocks are in the order of their addresses and do not overlap. -/
theorem place_pairwise (a : ℕ) (bs : List Block) :
    (place a bs).Pairwise fun p q => p.1 + 12 + p.2.size ≤ q.1 := by
  induction bs generalizing a with
  | nil => exact List.Pairwise.nil
  | cons b bs ih => exact List.pairwise_cons.2 ⟨fun q hq => (mem_place hq).1, ih _⟩

/-- Two different blocks do not overlap. -/
theorem place_disjoint {p q : ℕ × Block} (hp : p ∈ place a bs) (hq : q ∈ place a bs) :
    p.1 = q.1 ∨ p.1 + 12 + p.2.size ≤ q.1 ∨ q.1 + 12 + q.2.size ≤ p.1 := by
  by_cases hpq : p = q
  · exact .inl (by rw [hpq])
  have hsymm : Std.Symm fun p q : ℕ × Block =>
      p.1 + 12 + p.2.size ≤ q.1 ∨ q.1 + 12 + q.2.size ≤ p.1 := ⟨fun _ _ => Or.symm⟩
  have hpair : (place a bs).Pairwise fun p q =>
      p.1 + 12 + p.2.size ≤ q.1 ∨ q.1 + 12 + q.2.size ≤ p.1 := (place_pairwise a bs).imp .inl
  exact .inr (hpair.forall hp hq hpq)

/-- A block of the list, and what is before and after it. -/
theorem exists_of_mem_place {x : ℕ} (hp : (x, b) ∈ place a bs) :
    ∃ bs₁ bs₂, bs = bs₁ ++ b :: bs₂ ∧ endOf a bs₁ = x := by
  induction bs generalizing a with
  | nil => cases hp
  | cons c bs ih =>
    rcases List.mem_cons.1 hp with heq | hp
    · obtain ⟨rfl, rfl⟩ := Prod.mk.inj heq
      exact ⟨[], bs, rfl, rfl⟩
    · obtain ⟨bs₁, bs₂, rfl, hend⟩ := ih hp
      exact ⟨c :: bs₁, bs₂, rfl, hend⟩

theorem mem_usedAt {u : ℕ × ℕ} :
    u ∈ usedAt a bs ↔ (u.1 - 12, ⟨u.2, false⟩) ∈ place a bs ∧ 12 ≤ u.1 := by
  simp only [usedAt, List.mem_map, List.mem_filter, Bool.not_eq_true']
  constructor
  · rintro ⟨⟨x, n, f⟩, ⟨hp, hf⟩, rfl⟩
    simp only at hf
    subst hf
    exact ⟨by simpa using hp, by simp⟩
  · rintro ⟨hp, h12⟩
    refine ⟨_, ⟨hp, rfl⟩, ?_⟩
    ext <;> simp
    omega

/-- The payloads of used blocks do not overlap. -/
theorem usedAt_pairwise (a : ℕ) (bs : List Block) :
    (usedAt a bs).Pairwise fun u v => u.1 + u.2 + 12 ≤ v.1 := by
  rw [usedAt, List.pairwise_map]
  refine (List.Pairwise.filter _ (place_pairwise a bs)).imp fun h => ?_
  omega

theorem usedAt_disjoint {u v : ℕ × ℕ} (hu : u ∈ usedAt a bs) (hv : v ∈ usedAt a bs)
    (huv : u.1 ≠ v.1) : u.1 + u.2 ≤ v.1 ∨ v.1 + v.2 ≤ u.1 := by
  have hdisj := place_disjoint (mem_usedAt.1 hu).1 (mem_usedAt.1 hv).1
  have hu12 := (mem_usedAt.1 hu).2
  have hv12 := (mem_usedAt.1 hv).2
  simp only at hdisj
  omega

/-- The pointers of used blocks are all different. -/
theorem nodup_usedAt (a : ℕ) (bs : List Block) : ((usedAt a bs).map Prod.fst).Nodup := by
  refine List.pairwise_map.2 ((usedAt_pairwise a bs).imp fun h heq => ?_)
  omega

end Lists

/-! ## The abstract operations -/

/-- A free block taken for `size` bytes: what is beyond them and a header is cut off. -/
def cut (b : Block) (size : ℕ) : List Block :=
  if b.size > size + 12 then [⟨size, false⟩, ⟨b.size - size - 12, true⟩] else [⟨b.size, false⟩]

/-- Once through the list, a free block is merged with the next one if it is free. The
    result of a merge is not merged again. -/
def mergeFree : List Block → List Block
  | [] => []
  | [b] => [b]
  | b :: b' :: bs =>
    if b.free && b'.free then ⟨b.size + (12 + b'.size), true⟩ :: mergeFree bs
    else b :: mergeFree (b' :: bs)

/-- The first free block from `a` on that is large enough is cut. Its payload, and the blocks. -/
def allocBlocks : ℕ → ℕ → List Block → Option (ℕ × List Block)
  | _, _, [] => none
  | a, size, b :: bs =>
    if b.free = true ∧ size ≤ b.size then some (a + 12, cut b size ++ bs)
    else (allocBlocks (a + 12 + b.size) size bs).map fun r => (r.1, b :: r.2)

/-- The block with the payload `ptr` is marked free. -/
def markFree : ℕ → ℕ → List Block → List Block
  | _, _, [] => []
  | a, ptr, b :: bs =>
    if a + 12 = ptr then ⟨b.size, true⟩ :: bs else b :: markFree (a + 12 + b.size) ptr bs

section Abstract

variable {a size : ℕ} {b : Block} {bs bs₁ bs₂ : List Block}

theorem allocBlocks_eq_none (h : ∀ b ∈ bs, b.free = true → b.size < size) :
    allocBlocks a size bs = none := by
  induction bs generalizing a with
  | nil => rfl
  | cons b bs ih =>
    have hb : ¬ (b.free = true ∧ size ≤ b.size) := fun hb =>
      absurd (h b List.mem_cons_self hb.1) (not_lt.2 hb.2)
    rw [allocBlocks, if_neg hb, ih fun c hc => h c (List.mem_cons_of_mem _ hc), Option.map_none]

theorem allocBlocks_append (h : ∀ c ∈ bs₁, c.free = true → c.size < size) (hb : b.free = true)
    (hsize : size ≤ b.size) : allocBlocks a size (bs₁ ++ b :: bs₂) =
      some (endOf a bs₁ + 12, bs₁ ++ (cut b size ++ bs₂)) := by
  induction bs₁ generalizing a with
  | nil => rw [List.nil_append, allocBlocks, if_pos ⟨hb, hsize⟩, endOf_nil, List.nil_append]
  | cons c bs₁ ih =>
    have hc : ¬ (c.free = true ∧ size ≤ c.size) := fun hc =>
      absurd (h c List.mem_cons_self hc.1) (not_lt.2 hc.2)
    rw [List.cons_append, allocBlocks, if_neg hc, ih fun d hd => h d (List.mem_cons_of_mem _ hd),
      Option.map_some, endOf_cons, List.cons_append]

/-- The block that was cut. -/
theorem allocBlocks_eq_some {r : ℕ × List Block} (h : allocBlocks a size bs = some r) :
    ∃ bs₁ b bs₂, bs = bs₁ ++ b :: bs₂ ∧ b.free = true ∧ size ≤ b.size ∧
      r = (endOf a bs₁ + 12, bs₁ ++ (cut b size ++ bs₂)) := by
  induction bs generalizing a r with
  | nil => cases h
  | cons c bs ih =>
    rw [allocBlocks] at h
    split_ifs at h with hc
    · exact ⟨[], c, bs, rfl, hc.1, hc.2, (Option.some.inj h).symm⟩
    · obtain ⟨r', hr', rfl⟩ := Option.map_eq_some_iff.1 h
      obtain ⟨bs₁, b, bs₂, rfl, hb, hsize, rfl⟩ := ih hr'
      exact ⟨c :: bs₁, b, bs₂, rfl, hb, hsize, rfl⟩

/-- A used block, by its pointer. -/
theorem exists_of_mem_used {ptr : ℕ} (h : ptr ∈ (usedAt a bs).map Prod.fst) :
    ∃ bs₁ n bs₂, bs = bs₁ ++ ⟨n, false⟩ :: bs₂ ∧ ptr = endOf a bs₁ + 12 := by
  obtain ⟨u, hu, rfl⟩ := List.mem_map.1 h
  obtain ⟨hplace, h12⟩ := mem_usedAt.1 hu
  obtain ⟨bs₁, bs₂, hbs, hend⟩ := exists_of_mem_place hplace
  exact ⟨bs₁, u.2, bs₂, hbs, by omega⟩

/-- A place in the list is known by its address. -/
theorem eq_of_endOf_eq {l l' : List Block} (hl : l <+: bs) (hl' : l' <+: bs)
    (h : endOf a l = endOf a l') : l = l' := by
  have hle : ∀ u v : List Block, u <+: v → endOf a u = endOf a v → u = v := by
    rintro u _ ⟨w, rfl⟩ heq
    have hlen := length_le_endOf (endOf a u) w
    rw [endOf_append] at heq
    have hw : w = [] := List.length_eq_zero_iff.1 (by omega)
    rw [hw, List.append_nil]
  rcases List.prefix_or_prefix_of_prefix hl hl' with hpre | hpre
  · exact hle l l' hpre h
  · exact (hle l' l hpre h.symm).symm

theorem markFree_append : markFree a (endOf a bs₁ + 12) (bs₁ ++ b :: bs₂) =
    bs₁ ++ ⟨b.size, true⟩ :: bs₂ := by
  induction bs₁ generalizing a with
  | nil => rw [List.nil_append, endOf_nil, markFree, if_pos rfl, List.nil_append]
  | cons c bs₁ ih =>
    have hle := le_endOf (a + 12 + c.size) bs₁
    rw [List.cons_append, endOf_cons, markFree, if_neg (by omega), ih, List.cons_append]

end Abstract

theorem endOf_cut (a : ℕ) (b : Block) (size : ℕ) (bs : List Block) :
    endOf a (cut b size ++ bs) = endOf a (b :: bs) := by
  rw [cut]
  split_ifs with h
  · simp only [List.cons_append, List.nil_append, endOf_cons]
    congr 1
    omega
  · rfl

theorem usedAt_mergeFree (a : ℕ) (bs : List Block) : usedAt a (mergeFree bs) = usedAt a bs := by
  fun_induction mergeFree bs generalizing a with
  | case1 => rfl
  | case2 b => rfl
  | case3 b b' bs h ih =>
    rw [Bool.and_eq_true] at h
    rw [usedAt_cons, usedAt_cons, usedAt_cons, ih, h.1, h.2]
    simp only [if_true, List.nil_append]
    congr 1
    omega
  | case4 b b' bs h ih => rw [usedAt_cons, ih, ← usedAt_cons]

/-! ## The memory -/

/-- The header of the block `b` at `a`, in a heap that ends at `e`. -/
structure IsBlock (m : Mem) (e a : ℕ) (b : Block) : Prop where
  isFree : load32 m a = if b.free then 1 else 0
  size : load32 m (a + 4) = b.size
  next : load32 m (a + 8) = if a + 12 + b.size = e then 0 else a + 12 + b.size

theorem IsBlock.congr {m m' : Mem} {e a : ℕ} {b : Block} (h : IsBlock m e a b)
    (hm : ∀ x, a ≤ x → x < a + 12 → m' x = m x) : IsBlock m' e a b where
  isFree := by rw [load32_congr fun x _ _ => hm x (by omega) (by omega), h.isFree]
  size := by rw [load32_congr fun x _ _ => hm x (by omega) (by omega), h.size]
  next := by rw [load32_congr fun x _ _ => hm x (by omega) (by omega), h.next]

/-- The memory holds the blocks `bs`, which cover the heap. -/
structure Tiled (L : HeapLayout) (m : Mem) (bs : List Block) : Prop where
  blocks : ∀ p ∈ place L.heap bs, IsBlock m L.heapEnd p.1 p.2
  ends : endOf L.heap bs = L.heapEnd

/-- An address in the header of one of the blocks, the first one at `a`. -/
def InHeader (a : ℕ) (bs : List Block) (x : ℕ) : Prop := ∃ p ∈ place a bs, p.1 ≤ x ∧ x < p.1 + 12

section Headers

variable {a x : ℕ} {b : Block} {bs bs₁ bs₂ : List Block}

theorem inHeader_cons : InHeader a (b :: bs) x ↔
    (a ≤ x ∧ x < a + 12) ∨ InHeader (a + 12 + b.size) bs x := by
  simp only [InHeader, place_cons, List.mem_cons, exists_eq_or_imp]

theorem inHeader_append :
    InHeader a (bs₁ ++ bs₂) x ↔ InHeader a bs₁ x ∨ InHeader (endOf a bs₁) bs₂ x := by
  simp only [InHeader, place_append, List.mem_append, or_and_right, exists_or]

theorem InHeader.bounds (h : InHeader a bs x) : a ≤ x ∧ x < endOf a bs := by
  obtain ⟨p, hp, hx, hx'⟩ := h
  have := mem_place hp
  omega

/-- A payload overlaps no header. -/
theorem not_inHeader_of_used {u : ℕ × ℕ} (hu : u ∈ usedAt a bs) (hx : u.1 ≤ x)
    (hx' : x < u.1 + u.2) : ¬ InHeader a bs x := by
  rintro ⟨p, hp, hpx, hpx'⟩
  have hdisj := place_disjoint (mem_usedAt.1 hu).1 hp
  have h12 := (mem_usedAt.1 hu).2
  simp only at hdisj
  omega

/-- The blocks determine the bytes of their headers. -/
theorem Tiled.eq_of_inHeader {L : HeapLayout} {m m' : Mem} (h : Tiled L m bs) (h' : Tiled L m' bs)
    (hx : InHeader L.heap bs x) : m' x = m x := by
  obtain ⟨p, hp, hx, hx'⟩ := hx
  have hb := h.blocks p hp
  have hb' := h'.blocks p hp
  have hwords : (p.1 ≤ x ∧ x < p.1 + 4) ∨ (p.1 + 4 ≤ x ∧ x < p.1 + 4 + 4) ∨
      (p.1 + 8 ≤ x ∧ x < p.1 + 8 + 4) := by omega
  rcases hwords with ⟨h₁, h₂⟩ | ⟨h₁, h₂⟩ | ⟨h₁, h₂⟩
  · exact eq_of_load32_eq (hb'.isFree.trans hb.isFree.symm) h₁ h₂
  · exact eq_of_load32_eq (hb'.size.trans hb.size.symm) h₁ h₂
  · exact eq_of_load32_eq (hb'.next.trans hb.next.symm) h₁ h₂

end Headers

/-- The memory out of the heap and in the payloads `us` is kept. -/
def Keeps (L : HeapLayout) (us : List (ℕ × ℕ)) (m m' : Mem) : Prop :=
  ∀ x, (x < L.heap ∨ L.heapEnd ≤ x ∨ ∃ u ∈ us, u.1 ≤ x ∧ x < u.1 + u.2) → m' x = m x

theorem Keeps.trans {L : HeapLayout} {us : List (ℕ × ℕ)} {m₁ m₂ m₃ : Mem} (h : Keeps L us m₁ m₂)
    (h' : Keeps L us m₂ m₃) : Keeps L us m₁ m₃ := fun x hx => (h' x hx).trans (h x hx)

/-- What is changed in headers only keeps the payloads of the used blocks. -/
theorem keeps_of_header {L : HeapLayout} {bs : List Block} {m m' : Mem}
    (hend : endOf L.heap bs = L.heapEnd) (hm : ∀ x, ¬ InHeader L.heap bs x → m' x = m x) :
    Keeps L (usedAt L.heap bs) m m' := by
  rintro x (hx | hx | ⟨u, hu, hx, hx'⟩)
  · exact hm x fun hin => absurd hin.bounds.1 (not_le.2 hx)
  · exact hm x fun hin => absurd hin.bounds.2 (not_lt.2 (hend ▸ hx))
  · exact hm x (not_inHeader_of_used hu hx hx')

namespace Tiled

variable {L : HeapLayout} {m m' : Mem} {bs bs₁ bs₂ : List Block} {b : Block}

theorem length_lt (h : Tiled L m bs) : bs.length < heapFuel := by
  have := length_le_endOf L.heap bs
  rw [h.ends, HeapLayout.heapEnd] at this
  rw [heapFuel]
  omega

theorem ne_nil (h : Tiled L m bs) : bs ≠ [] := by
  rintro rfl
  have := h.ends
  rw [endOf_nil, HeapLayout.heapEnd, heapSize] at this
  omega

/-- A block in the middle of the list. -/
theorem isBlock (h : Tiled L m (bs₁ ++ b :: bs₂)) :
    IsBlock m L.heapEnd (endOf L.heap bs₁) b := by
  refine h.blocks (endOf L.heap bs₁, b) ?_
  rw [place_append, place_cons]
  exact List.mem_append_right _ List.mem_cons_self

/-- The bounds of a block in the middle of the list. -/
theorem bounds (h : Tiled L m (bs₁ ++ b :: bs₂)) :
    L.heap ≤ endOf L.heap bs₁ ∧ endOf L.heap bs₁ + 12 + b.size ≤ L.heapEnd := by
  have hp : (endOf L.heap bs₁, b) ∈ place L.heap (bs₁ ++ b :: bs₂) := by
    rw [place_append, place_cons]
    exact List.mem_append_right _ List.mem_cons_self
  have := mem_place hp
  rwa [h.ends] at this

/-- The last block is the one that ends the heap. -/
theorem end_eq_iff (h : Tiled L m (bs₁ ++ b :: bs₂)) :
    endOf L.heap bs₁ + 12 + b.size = L.heapEnd ↔ bs₂ = [] := by
  have hends := h.ends
  rw [endOf_append, endOf_cons] at hends
  constructor
  · intro heq
    have := length_le_endOf (endOf L.heap bs₁ + 12 + b.size) bs₂
    rw [hends, heq] at this
    exact List.length_eq_zero_iff.1 (by omega)
  · rintro rfl
    exact hends

/-- Blocks in the middle of the list are replaced by others that take the same room: it
    is enough that the memory holds the new ones, and is the same elsewhere. -/
theorem replace {y z : List Block} (h : Tiled L m (bs₁ ++ (y ++ bs₂)))
    (hend : endOf (endOf L.heap bs₁) z = endOf (endOf L.heap bs₁) y)
    (hz : ∀ p ∈ place (endOf L.heap bs₁) z, IsBlock m' L.heapEnd p.1 p.2)
    (hm : ∀ x, x < endOf L.heap bs₁ ∨ endOf (endOf L.heap bs₁) y ≤ x → m' x = m x) :
    Tiled L m' (bs₁ ++ (z ++ bs₂)) where
  blocks p hp := by
    rw [place_append, place_append, List.mem_append, List.mem_append, hend] at hp
    have hblocks := h.blocks p
    rw [place_append, place_append, List.mem_append, List.mem_append] at hblocks
    rcases hp with hp | hp | hp
    · have := (mem_place hp).2
      exact (hblocks (.inl hp)).congr fun x _ _ => hm x (by omega)
    · exact hz p hp
    · have := (mem_place hp).1
      exact (hblocks (.inr (.inr hp))).congr fun x _ _ => hm x (by omega)
  ends := by
    rw [endOf_append, endOf_append, hend, ← endOf_append, ← endOf_append]
    exact h.ends

/-- What is changed within some blocks keeps the used payloads of the others. -/
theorem keeps {y : List Block} (h : Tiled L m (bs₁ ++ (y ++ bs₂)))
    (hm : ∀ x, x < endOf L.heap bs₁ ∨ endOf (endOf L.heap bs₁) y ≤ x → m' x = m x) :
    Keeps L (usedAt L.heap bs₁ ++ usedAt (endOf (endOf L.heap bs₁) y) bs₂) m m' := by
  have hlo := le_endOf L.heap bs₁
  have hhi := le_endOf (endOf (endOf L.heap bs₁) y) bs₂
  rw [← endOf_append, ← endOf_append, List.append_assoc, h.ends, endOf_append] at hhi
  rintro x (hx | hx | ⟨u, hu, hx₁, hx₂⟩)
  · exact hm x (by omega)
  · exact hm x (by omega)
  · rcases List.mem_append.1 hu with hu | hu
    · have := (mem_place (mem_usedAt.1 hu).1).2
      simp only at this
      exact hm x (by omega)
    · have := (mem_place (mem_usedAt.1 hu).1).1
      simp only at this
      exact hm x (by omega)

end Tiled

end Fru1tOs
