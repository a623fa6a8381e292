import Fru1tOs.Files.Slots

/-!
# What the file system writes

The calls on the blocks of the heap and on the slots of the table (`FsShape`), and on the memory:
a new file is put in its slot (`putSlot`), and the slot of a deleted one is cleared (`clearSlot`).
The table is not in the heap, so that what is written there leaves the blocks as they are.
-/

namespace Fru1tOs

open Lib

/-- The data pointers of the files. -/
def dataPtrs (slots : Fin maxFiles → Option Slot) : List ℕ :=
  (List.finRange maxFiles).filterMap fun i => (slots i).map Slot.data

/-- The blocks of the heap and the slots of the table. -/
structure FsShape where
  blocks : List Block
  slots : Fin maxFiles → Option Slot

namespace FsShape

/-- What `fs_create` does to them. -/
def create (L : FsLayout) (x : FsShape) (name : FileName) (size : ℕ) : FsShape :=
  if size = 0 ∨ size > maxFilesize ∨ (findSlot x.slots name).isSome then x
  else
    match freeSlot x.slots, allocBlocks L.heap (roundUp size) x.blocks with
    | some i, some (p, bs) => ⟨bs, Function.update x.slots i (some ⟨name, p, size⟩)⟩
    | _, _ => x

theorem create_eq_self {L : FsLayout} {x : FsShape} {name : FileName} {size : ℕ}
    (h : size = 0 ∨ size > maxFilesize ∨ findSlot x.slots name ≠ none ∨ freeSlot x.slots = none ∨
      allocBlocks L.heap (roundUp size) x.blocks = none) : x.create L name size = x := by
  rw [create]
  split_ifs with hfail
  · rfl
  · simp only [not_or, Bool.not_eq_true, Option.isSome_eq_false_iff,
      Option.isNone_iff_eq_none] at hfail
    obtain ⟨h0, hmax, hfind⟩ := hfail
    rcases h with h | h | h | h | h
    · exact absurd h h0
    · exact absurd h hmax
    · exact absurd hfind h
    · rw [h]
    · rw [h]
      cases freeSlot x.slots <;> rfl

theorem create_eq {L : FsLayout} {x : FsShape} {name : FileName} {size p : ℕ} {i : Fin maxFiles}
    {bs : List Block} (h0 : size ≠ 0) (hmax : size ≤ maxFilesize)
    (hfind : findSlot x.slots name = none) (hi : freeSlot x.slots = some i)
    (halloc : allocBlocks L.heap (roundUp size) x.blocks = some (p, bs)) :
    x.create L name size = ⟨bs, Function.update x.slots i (some ⟨name, p, size⟩)⟩ := by
  rw [create, if_neg (by simp [h0, hmax, hfind]), hi, halloc]

/-- What `fs_delete` does to them. -/
def delete (L : FsLayout) (x : FsShape) (name : FileName) : FsShape :=
  match findSlot x.slots name with
  | none => x
  | some i =>
    match x.slots i with
    | none => x
    | some f => ⟨mergeFree (markFree L.heap f.data x.blocks), Function.update x.slots i none⟩

/-- What the calls of the other users do to them, which do not free the data of files. -/
def other (L : FsLayout) (x : FsShape) (c : HeapCall) : FsShape :=
  if c.target.any (· ∈ dataPtrs x.slots) then x
  else { x with blocks := blockStep L.toHeapLayout x.blocks c }

/-- What a call does to them. -/
def step (L : FsLayout) (x : FsShape) : FsCall → FsShape
  | .create name size => x.create L name size.toNat
  | .delete name => x.delete L name
  | .other c => x.other L c
  | _ => x

@[simp] theorem step_other_slots (L : FsLayout) (x : FsShape) (c : HeapCall) :
    (x.step L (.other c)).slots = x.slots := by
  rw [step, other]
  split_ifs <;> rfl

/-- After `memory_init` and `fs_init`. -/
def init : FsShape := ⟨[⟨heapSize - 12, true⟩], fun _ => none⟩

end FsShape

section Ptrs

variable {slots : Fin maxFiles → Option Slot} {i : Fin maxFiles} {f : Slot}

theorem mem_dataPtrs {p : ℕ} : p ∈ dataPtrs slots ↔ ∃ i f, slots i = some f ∧ f.data = p := by
  simp [dataPtrs]

/-- The pointers with one more file. -/
theorem dataPtrs_update (hi : slots i = none) :
    (dataPtrs (Function.update slots i (some f))).Perm (f.data :: dataPtrs slots) := by
  obtain ⟨l₁, l₂, hl⟩ := List.append_of_mem (List.mem_finRange i)
  have hnd := List.nodup_finRange maxFiles
  rw [hl] at hnd
  have hnot := (List.nodup_cons.1 (List.nodup_middle.1 hnd)).1
  have hsame : ∀ l : List (Fin maxFiles), (∀ j ∈ l, j ∈ l₁ ++ l₂) →
      (l.filterMap fun j => (Function.update slots i (some f) j).map Slot.data) =
        l.filterMap fun j => (slots j).map Slot.data := fun l hsub =>
    List.filterMap_congr fun j hj => by
      have hji : j ≠ i := fun hji => hnot (hji ▸ hsub j hj)
      rw [Function.update_of_ne hji]
  rw [dataPtrs, dataPtrs, hl, List.filterMap_append, List.filterMap_append, List.filterMap_cons,
    List.filterMap_cons, hi, Function.update_self,
    hsame l₁ fun j hj => List.mem_append_left _ hj, hsame l₂ fun j hj => List.mem_append_right _ hj]
  exact List.perm_middle

/-- The pointers with one file less. -/
theorem dataPtrs_erase (hi : slots i = some f) :
    (dataPtrs slots).Perm (f.data :: dataPtrs (Function.update slots i none)) := by
  have : (dataPtrs (Function.update (Function.update slots i none) i (some f))).Perm
      (f.data :: dataPtrs (Function.update slots i none)) :=
    dataPtrs_update (Function.update_self _ _ _)
  rwa [Function.update_idem, ← hi, Function.update_eq_self] at this

theorem length_dataPtrs_of_full (hall : ∀ i, ∃ f, slots i = some f) :
    (dataPtrs slots).length = maxFiles := by
  choose f hf using hall
  simp [dataPtrs, hf]

theorem length_dataPtrs_le (slots : Fin maxFiles → Option Slot) :
    (dataPtrs slots).length ≤ maxFiles := by
  have := List.length_filterMap_le (fun i => (slots i).map Slot.data) (List.finRange maxFiles)
  rwa [List.length_finRange] at this

end Ptrs

/-! ## What the operations do to the memory -/

/-- The new file is put in its slot. -/
def putSlot (L : FsLayout) (m : Mem) (i : Fin maxFiles) (data size : ℕ) : Mem :=
  let m := store32 (store32 (store32 m (L.data i) data) (L.size i) size) (L.isUsed i) 1
  store32 m L.fileCount ((load32 m L.fileCount + 1) % 2 ^ 32)

/-- `fs_create`, once a free slot has been found. -/
def fsCreateAt (L : FsLayout) (s : Heap) (i : Fin maxFiles) (filename : List UInt8) (size : ℕ) :
    Option (ℤ × Heap) :=
  (kmalloc { s with mem := strcpy s.mem (L.file i) filename } size).bind fun r =>
    if r.1 = 0 then some (-1, { r.2 with mem := store32 r.2.mem (L.data i) r.1 })
    else some ((i : ℤ), { r.2 with mem := putSlot L r.2.mem i r.1 size })

/-- The slot of a deleted file is cleared. -/
def clearSlot (L : FsLayout) (m : Mem) (i : Fin maxFiles) : Mem :=
  let m := store32 (store32 (store32 m (L.isUsed i) 0) (L.data i) 0) (L.size i) 0
  store32 m L.fileCount ((load32 m L.fileCount + 2 ^ 32 - 1) % 2 ^ 32)

/-- The table is not in the heap. -/
theorem FsLayout.fs_disjoint_heap (L : FsLayout) {x : ℕ} (hx : L.heap ≤ x) (hx' : x < L.heapEnd) :
    x < L.fs ∨ L.fileCount + 4 ≤ x := by
  by_contra hn
  have := L.out_of_heap (x := x) (by omega) (by omega)
  omega

section Slots

variable {L : FsLayout} {m m' : Mem} {i : Fin maxFiles} {x : ℕ}

theorem strcpy_of_heap (name : FileName) (hx : L.heap ≤ x) (hx' : x < L.heapEnd) :
    strcpy m (L.file i) name x = m x := by
  obtain ⟨hlo, hhi⟩ := L.file_bounds i
  have hout := L.fs_disjoint_heap hx hx'
  have hlen : name.1.length < 64 := name.2.2
  exact storeBytes_of_disjoint (by rw [List.length_append, List.length_singleton]; omega)

theorem store32_data_of_heap (hx : L.heap ≤ x) (hx' : x < L.heapEnd) (v : ℕ) :
    store32 m (L.data i) v x = m x := by
  obtain ⟨hlo, hhi⟩ := L.file_bounds i
  have hout := L.fs_disjoint_heap hx hx'
  exact store32_of_disjoint (by rw [FsLayout.data]; omega)

/-- The words of the new file, and the counter. -/
theorem putSlot_of_disjoint (data size : ℕ) (hx : x < L.file i + 64 ∨ L.file i + 76 ≤ x)
    (hx' : x < L.fileCount ∨ L.fileCount + 4 ≤ x) : putSlot L m i data size x = m x := by
  rw [putSlot, FsLayout.data, FsLayout.size, FsLayout.isUsed, store32_of_disjoint hx',
    store32_of_disjoint (by omega), store32_of_disjoint (by omega), store32_of_disjoint (by omega)]

theorem clearSlot_of_disjoint (hx : x < L.file i + 64 ∨ L.file i + 76 ≤ x)
    (hx' : x < L.fileCount ∨ L.fileCount + 4 ≤ x) : clearSlot L m i x = m x := by
  rw [clearSlot, FsLayout.data, FsLayout.size, FsLayout.isUsed, store32_of_disjoint hx',
    store32_of_disjoint (by omega), store32_of_disjoint (by omega), store32_of_disjoint (by omega)]

theorem putSlot_of_heap (data size : ℕ) (hx : L.heap ≤ x) (hx' : x < L.heapEnd) :
    putSlot L m i data size x = m x := by
  obtain ⟨hlo, hhi⟩ := L.file_bounds i
  have hout := L.fs_disjoint_heap hx hx'
  have hcountAt : L.fileCount = L.fs + 76 * 32 := rfl
  exact putSlot_of_disjoint data size (by omega) (by omega)

theorem clearSlot_of_heap (hx : L.heap ≤ x) (hx' : x < L.heapEnd) : clearSlot L m i x = m x := by
  obtain ⟨hlo, hhi⟩ := L.file_bounds i
  have hout := L.fs_disjoint_heap hx hx'
  have hcountAt : L.fileCount = L.fs + 76 * 32 := rfl
  exact clearSlot_of_disjoint (by omega) (by omega)

/-- `file_count` is not in a slot. -/
theorem load32_fileCount_store (u v w : ℕ) {a b c : ℕ} (ha : a + 4 ≤ L.fileCount)
    (hb : b + 4 ≤ L.fileCount) (hc : c + 4 ≤ L.fileCount) :
    load32 (store32 (store32 (store32 m a u) b v) c w) L.fileCount = load32 m L.fileCount := by
  rw [load32_store32_of_disjoint (.inr hc), load32_store32_of_disjoint (.inr hb),
    load32_store32_of_disjoint (.inr ha)]

theorem putSlot_eq (m : Mem) (data size : ℕ) : putSlot L m i data size =
    store32 (store32 (store32 (store32 m (L.data i) data) (L.size i) size) (L.isUsed i) 1)
      L.fileCount ((load32 m L.fileCount + 1) % 2 ^ 32) := by
  obtain ⟨hlo, hhi⟩ := L.file_bounds i
  rw [putSlot, load32_fileCount_store] <;> simp only [FsLayout.data, FsLayout.size, FsLayout.isUsed]
    <;> omega

theorem clearSlot_eq (m : Mem) : clearSlot L m i =
    store32 (store32 (store32 (store32 m (L.isUsed i) 0) (L.data i) 0) (L.size i) 0)
      L.fileCount ((load32 m L.fileCount + 2 ^ 32 - 1) % 2 ^ 32) := by
  obtain ⟨hlo, hhi⟩ := L.file_bounds i
  rw [clearSlot, load32_fileCount_store] <;>
    simp only [FsLayout.data, FsLayout.size, FsLayout.isUsed] <;> omega

theorem load32_fileCount_putSlot (data size : ℕ) : load32 (putSlot L m i data size) L.fileCount =
    (load32 m L.fileCount + 1) % 2 ^ 32 := by
  rw [putSlot_eq, load32_store32 (Nat.mod_lt _ (by decide))]

theorem load32_fileCount_clearSlot : load32 (clearSlot L m i) L.fileCount =
    (load32 m L.fileCount + 2 ^ 32 - 1) % 2 ^ 32 := by
  rw [clearSlot_eq, load32_store32 (Nat.mod_lt _ (by decide))]

theorem load32_isUsed_putSlot (data size : ℕ) :
    load32 (putSlot L m i data size) (L.isUsed i) = 1 := by
  obtain ⟨hlo, hhi⟩ := L.file_bounds i
  rw [putSlot_eq, load32_store32_of_disjoint (by rw [FsLayout.isUsed]; omega),
    load32_store32 (by decide)]

/-- The slot of the new file, whose name is there. -/
theorem holdsSlot_putSlot {name : FileName} {data size : ℕ} (hname : StoresStr m (L.file i) name)
    (hdata : data < 2 ^ 32) (hsize : size < 2 ^ 32) :
    HoldsSlot L (putSlot L m i data size) i (some ⟨name, data, size⟩) := by
  obtain ⟨hlo, hhi⟩ := L.file_bounds i
  have hlen : name.1.length < 64 := name.2.2
  refine ⟨load32_isUsed_putSlot _ _,
    hname.congr fun x hx hx' => putSlot_of_disjoint _ _ (by omega) (by omega), ?_, ?_⟩
  all_goals rw [putSlot_eq, load32_store32_of_disjoint (by
    simp only [FsLayout.data, FsLayout.size]
    omega)]
  · simp only [FsLayout.data, FsLayout.size, FsLayout.isUsed]
    rw [load32_store32_of_disjoint (by omega), load32_store32_of_disjoint (by omega),
      load32_store32 hdata]
  · simp only [FsLayout.data, FsLayout.size, FsLayout.isUsed]
    rw [load32_store32_of_disjoint (by omega), load32_store32 hsize]

/-- The slot of the deleted file. -/
theorem holdsSlot_clearSlot : HoldsSlot L (clearSlot L m i) i none := by
  obtain ⟨hlo, hhi⟩ := L.file_bounds i
  rw [HoldsSlot, clearSlot_eq]
  simp only [FsLayout.data, FsLayout.size, FsLayout.isUsed]
  rw [load32_store32_of_disjoint (by omega), load32_store32_of_disjoint (by omega),
    load32_store32_of_disjoint (by omega), load32_store32 (by decide)]

theorem putSlot_congr (data size : ℕ) (hcount : load32 m' L.fileCount = load32 m L.fileCount)
    (hx : m' x = m x) : putSlot L m' i data size x = putSlot L m i data size x := by
  rw [putSlot_eq, putSlot_eq, hcount]
  exact store32_congr (store32_congr (store32_congr (store32_congr hx)))

theorem clearSlot_congr (hcount : load32 m' L.fileCount = load32 m L.fileCount)
    (hx : m' x = m x) : clearSlot L m' i x = clearSlot L m i x := by
  rw [clearSlot_eq, clearSlot_eq, hcount]
  exact store32_congr (store32_congr (store32_congr (store32_congr hx)))

end Slots

section Cases

variable {L : FsLayout} {s : Heap} {slots : Fin maxFiles → Option Slot}

theorem freeSlot_eq_some {i : Fin maxFiles} (h : freeSlot slots = some i) : slots i = none := by
  have := List.find?_some h
  rwa [Option.isNone_iff_eq_none] at this

theorem freeSlot_eq_none (h : freeSlot slots = none) (i : Fin maxFiles) :
    ∃ f, slots i = some f := by
  have := List.find?_eq_none.1 h i (List.mem_finRange i)
  rwa [Option.isNone_iff_eq_none, ← ne_eq, Option.ne_none_iff_exists'] at this

/-- `fs_create` fails before it has written anything, or has found a free slot. -/
theorem Table.fsCreate_cases (h : Table L s.mem slots) (name : FileName) (size : ℕ) :
    ((size > maxFilesize ∨ findSlot slots name ≠ none ∨ freeSlot slots = none) ∧
      fsCreate L s name size = some (-1, s)) ∨
    ∃ i, size ≤ maxFilesize ∧ findSlot slots name = none ∧ freeSlot slots = some i ∧
      fsCreate L s name size = fsCreateAt L s i name size := by
  by_cases hmax : size > maxFilesize
  · exact .inl ⟨.inl hmax, by rw [fsCreate, if_pos hmax]⟩
  rw [fsCreate, if_neg hmax, fsExists, h.fsFind_eq_findSlot]
  by_cases hfind : findSlot slots name = none
  swap
  · refine .inl ⟨.inr (.inl hfind), ?_⟩
    rw [if_pos (Option.isSome_iff_ne_none.2 hfind)]
    rfl
  rw [hfind, h.find?_isUsed]
  cases hslot : freeSlot slots with
  | none => exact .inl ⟨.inr (.inr rfl), rfl⟩
  | some i => exact .inr ⟨i, not_lt.1 hmax, rfl, rfl, rfl⟩

/-- `fs_delete` finds no file, or frees its data and clears its slot. -/
theorem Table.fsDelete_cases (h : Table L s.mem slots) (name : FileName) :
    (findSlot slots name = none ∧ fsDelete L s name = some (-1, s)) ∨
    ∃ i f, findSlot slots name = some i ∧ slots i = some f ∧ f.name = name ∧
      fsDelete L s name = (kfree s f.data).bind fun s =>
        some (0, { s with mem := clearSlot L s.mem i }) := by
  have hfind := h.fsFind_eq_findSlot name
  cases hslot : findSlot slots name with
  | none =>
    rw [hslot] at hfind
    exact .inl ⟨rfl, by rw [fsDelete, hfind]⟩
  | some i =>
    rw [hslot] at hfind
    obtain ⟨f, hf, hname⟩ := h.fsFind_eq_some.1 hfind
    have hholds := h.holds i
    rw [hf] at hholds
    refine .inr ⟨i, f, rfl, hf, hname, ?_⟩
    rw [fsDelete, hfind]
    simp only [hholds.2.2.1]
    rfl

/-- `fs_write` finds no file that is large enough, or writes in its data. -/
theorem Table.fsWrite_cases (h : Table L s.mem slots) (name : FileName) (data : List UInt8) :
    ((∀ i f, slots i = some f → f.name = name → f.size < data.length) ∧
      fsWrite L s name data = (-1, s)) ∨
    ∃ i f, findSlot slots name = some i ∧ slots i = some f ∧ f.name = name ∧
      data.length ≤ f.size ∧
      fsWrite L s name data = (0, { s with mem := storeBytes s.mem f.data data }) := by
  have hfind := h.fsFind_eq_findSlot name
  cases hslot : findSlot slots name with
  | none =>
    rw [hslot] at hfind
    refine .inl ⟨fun i f hf hname => ?_, by rw [fsWrite, hfind]⟩
    rw [h.fsFind_eq_some.2 ⟨f, hf, hname⟩] at hfind
    cases hfind
  | some i =>
    rw [hslot] at hfind
    obtain ⟨f, hf, hname⟩ := h.fsFind_eq_some.1 hfind
    have hholds := h.holds i
    rw [hf] at hholds
    rw [fsWrite, hfind]
    simp only [hholds.2.2.1, hholds.2.2.2]
    by_cases hlen : data.length > f.size
    · refine .inl ⟨fun j g hg hgname => ?_, if_pos hlen⟩
      rw [h.names j i g f hg hf (hgname.trans hname.symm), hf, Option.some_inj] at hg
      rwa [← hg]
    · exact .inr ⟨i, f, rfl, hf, hname, not_lt.1 hlen, if_neg hlen⟩

end Cases

end Fru1tOs
