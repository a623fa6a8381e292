import Fru1tOs.Files.Run

/-!
# Names that are too long

`fs_create` copies the name with `strcpy`, which goes on to the terminating zero. The field has 64
bytes, and `data`, `size` and `is_used` of the slot come next, and then the name of the next slot.
The shell takes names of up to 255 characters.

* `create_clean_iff`: `fs_create` writes a new file in its slot and nothing else exactly if the name
  is not copied, or it fits its field.

The table may have anything in it. Only the heap has to be as `kmalloc` and `kfree` leave it.
-/

namespace Fru1tOs

open Lib

variable {L : FsLayout} {s : Heap} {i : Fin maxFiles} {filename : List UInt8} {size : ℕ}

/-- The slot that `fs_create` copies the name to. -/
def createSlot (L : FsLayout) (s : Heap) (filename : List UInt8) (size : ℕ) :
    Option (Fin maxFiles) :=
  if size > maxFilesize ∨ fsExists L s filename ≠ 0 then none
  else (List.finRange maxFiles).find? fun i => load32 s.mem (L.isUsed i) = 0

/-- The file in the slot `i` is new: its name is in its field, with the terminating zero, and the
    other slots are as they were. -/
structure NewFile (L : FsLayout) (s s' : Heap) (i : Fin maxFiles) (filename : List UInt8) :
    Prop where
  fits : filename.length < maxFilename
  name : StoresStr s'.mem (L.file i) filename
  found : fsExists L s' filename = 1
  others : ∀ j ≠ i, ∀ x, L.file j ≤ x → x < L.file j + 76 → s'.mem x = s.mem x
  count : load32 s'.mem L.fileCount = (load32 s.mem L.fileCount + 1) % 2 ^ 32

/-- Copying the name to the slot `i` stores no character out of the field, whatever is there. -/
def StoresInName (L : FsLayout) (i : Fin maxFiles) (filename : List UInt8) : Prop :=
  ∀ m x, x < L.file i ∨ L.file i + maxFilename ≤ x → strcpy m (L.file i) filename x = m x

/-- `fs_create` returns -1, with nothing changed but in slots that are not used, or the slot of a
    new file; and no character is stored out of the name of the slot. -/
def CreatesClean (L : FsLayout) (s : Heap) (filename : List UInt8) (size : ℕ) : Prop :=
  ∃ r s', fsCreate L s filename size = some (r, s') ∧
    ((r = -1 ∧ ∀ x, (∀ j, load32 s.mem (L.isUsed j) = 0 → x < L.file j ∨ L.file j + 76 ≤ x) →
        s'.mem x = s.mem x) ∨
      ∃ i : Fin maxFiles, r = i ∧ NewFile L s s' i filename) ∧
    ∀ i, createSlot L s filename size = some i → StoresInName L i filename

theorem fsCreate_of_createSlot_none (h : createSlot L s filename size = none) :
    fsCreate L s filename size = some (-1, s) := by
  rw [createSlot] at h
  by_cases hcond : size > maxFilesize ∨ fsExists L s filename ≠ 0
  · rw [fsCreate]
    split_ifs with hsize hexists
    · rfl
    · rfl
    · exact absurd hcond (not_or_intro hsize hexists)
  · rw [if_neg hcond] at h
    rw [not_or] at hcond
    rw [fsCreate, if_neg hcond.1, if_neg hcond.2, h]

theorem fsCreate_of_createSlot (h : createSlot L s filename size = some i) :
    load32 s.mem (L.isUsed i) = 0 ∧ size ≤ maxFilesize ∧
      fsCreate L s filename size = fsCreateAt L s i filename size := by
  rw [createSlot] at h
  split_ifs at h with hcond
  simp only [not_or, not_lt] at hcond
  refine ⟨by simpa using List.find?_some h, hcond.1, ?_⟩
  rw [fsCreate, if_neg (not_lt.2 hcond.1), if_neg hcond.2, h]
  rfl

/-- A name is copied to its field exactly if it fits, with the terminating zero. -/
theorem storesInName_iff : StoresInName L i filename ↔ filename.length < maxFilename := by
  constructor
  · intro h
    by_contra hlen
    have hlt : maxFilename < (filename ++ [0]).length := by
      rw [List.length_append, List.length_singleton]
      omega
    -- The byte after the field, in two memories that have different ones there.
    have hbyte : ∀ m : Mem, strcpy m (L.file i) filename (L.file i + maxFilename) =
        (filename ++ [0])[maxFilename] := fun m => storeBytes_at hlt
    have h₀ := (hbyte fun _ => 0).symm.trans (h (fun _ => 0) _ (.inr le_rfl))
    have h₁ := (hbyte fun _ => 1).symm.trans (h (fun _ => 1) _ (.inr le_rfl))
    exact absurd (h₀.symm.trans h₁) (by decide)
  · intro hlen m x hx
    refine storeBytes_of_disjoint ?_
    rw [List.length_append, List.length_singleton]
    omega

/-- When `kmalloc` has no memory, the name and `data` of the slot are written. -/
theorem fsCreateAt_null (hlen : filename.length < maxFilename) {m : Mem} {x : ℕ}
    (hx : x < L.file i ∨ L.file i + 76 ≤ x) :
    store32 (strcpy m (L.file i) filename) (L.data i) 0 x = m x := by
  have hdata : L.data i = L.file i + 64 := rfl
  rw [store32_of_disjoint (by omega)]
  exact storesInName_iff.2 hlen m x (by simp only [maxFilename]; omega)

/-- The new file, when `kmalloc` has changed nothing out of the heap. -/
theorem newFile_putSlot (hlen : filename.length < maxFilename) (hne : ∀ c ∈ filename, c ≠ 0)
    {h' : Heap} {p : ℕ}
    (hout : ∀ x, L.fs ≤ x → x < L.fileCount + 4 →
      h'.mem x = strcpy s.mem (L.file i) filename x) :
    NewFile L s { h' with mem := putSlot L h'.mem i p size } i filename := by
  obtain ⟨hlo, hhi⟩ := L.file_bounds i
  have hcopy : ∀ x, x < L.file i ∨ L.file i + 64 ≤ x →
      strcpy s.mem (L.file i) filename x = s.mem x := storesInName_iff.2 hlen s.mem
  simp only [maxFilename] at hlen
  have hname : StoresStr (putSlot L h'.mem i p size) (L.file i) filename :=
    (storesStr_strcpy s.mem (L.file i) filename).congr fun x hx hx' => by
      rw [putSlot_of_disjoint _ _ (by omega) (by omega), hout x (by omega) (by omega)]
  refine ⟨hlen, hname, ?_, fun j hj x hx hx' => ?_, ?_⟩
  · have hfind : (fsFind L (putSlot L h'.mem i p size) filename).isSome := by
      refine List.find?_isSome.2 ⟨i, List.mem_finRange i, decide_eq_true ⟨?_, ?_⟩⟩
      · rw [load32_isUsed_putSlot]
        exact Nat.one_ne_zero
      · exact (hname.strcmp_eq_zero hne hne).2 rfl
    rw [fsExists, if_pos hfind]
  · obtain ⟨hlo', hhi'⟩ := L.file_bounds j
    have hdisj := L.file_disjoint hj
    simp only
    rw [putSlot_of_disjoint _ _ (by omega) (by omega), hout x (by omega) (by omega),
      hcopy x (by omega)]
  · rw [load32_fileCount_putSlot]
    have hcount : load32 h'.mem L.fileCount = load32 s.mem L.fileCount :=
      load32_congr fun x hx hx' => by rw [hout x (by omega) hx', hcopy x (by omega)]
    rw [hcount]

/-- A name that fits its field, or is not copied. -/
theorem createsClean_of_fits {live : List ℕ} {bs : List Block}
    (h : HeapInv L.toHeapLayout ⟨s, live⟩ bs) (hne : ∀ c ∈ filename, c ≠ 0)
    (hcond : createSlot L s filename size = none ∨ filename.length < maxFilename) :
    CreatesClean L s filename size := by
  rcases hslot : createSlot L s filename size with _ | i
  · exact ⟨-1, s, fsCreate_of_createSlot_none hslot, .inl ⟨rfl, fun _ _ => rfl⟩,
      fun i hi => (nomatch hslot.symm.trans hi)⟩
  have hlen := hcond.resolve_left fun hnone => nomatch hslot.symm.trans hnone
  obtain ⟨hfree, hmax, hcreate⟩ := fsCreate_of_createSlot hslot
  have hstores : ∀ j, createSlot L s filename size = some j → StoresInName L j filename :=
    fun j _ => storesInName_iff.2 hlen
  -- The name is not in the heap.
  have hheap : HeapInv L.toHeapLayout
      ⟨{ s with mem := strcpy s.mem (L.file i) filename }, live⟩ bs :=
    h.congr (fun x hx hx' => strcpy_of_heap ⟨filename, hne, hlen⟩ hx hx') (List.Perm.refl _)
  rw [fsCreateAt] at hcreate
  rcases hheap.kmalloc size with ⟨hk, -⟩ | ⟨p, h', -, -, -, -, hk, hp0, -, -, hkeeps, -⟩
  · simp only at hk
    rw [hk, Option.bind_some, if_pos rfl] at hcreate
    exact ⟨-1, _, hcreate, .inl ⟨rfl, fun x hx => fsCreateAt_null hlen (hx i hfree)⟩, hstores⟩
  · simp only at hk hkeeps
    rw [hk, Option.bind_some, if_neg hp0] at hcreate
    refine ⟨i, _, hcreate, .inr ⟨i, rfl, newFile_putSlot hlen hne fun x hx hx' => ?_⟩, hstores⟩
    exact hkeeps x ((L.out_of_heap hx hx').imp id .inl)

/-- In any state whose heap is in order, `fs_create` keeps to the slot of the new file, and to its
    name while it copies the name, exactly if the name is not copied or fits its field. -/
theorem create_clean_iff {live : List ℕ} {bs : List Block}
    (h : HeapInv L.toHeapLayout ⟨s, live⟩ bs) (hne : ∀ c ∈ filename, c ≠ 0) (size : ℕ) :
    CreatesClean L s filename size ↔
      createSlot L s filename size = none ∨ filename.length < maxFilename := by
  refine ⟨?_, createsClean_of_fits h hne⟩
  rintro ⟨r, s', -, -, hstores⟩
  rcases hslot : createSlot L s filename size with _ | i
  · exact .inl rfl
  · exact .inr (storesInName_iff.1 (hstores i hslot))

/-- The file `a`, in a new file system. -/
theorem create_clean_iff_short :
    CreatesClean default (FsRun.init default ⟨fun _ => 0, 0⟩).heap [97] 8 :=
  (create_clean_iff (fsInv_init default ⟨fun _ => 0, 0⟩).heap (by simp) 8).2 (.inr (by decide))

/-- The files `a` and `b` are created, and `a` is deleted. -/
def freeSlotBefore : Option Heap := do
  let (_, s) ← fsCreate default (FsRun.init default ⟨fun _ => 0, 0⟩).heap [97] 8
  let (_, s) ← fsCreate default s [98] 8
  let (_, s) ← fsDelete default s [97]
  return s

/-- A file with a name of 80 characters is created in the free slot before `b`. Then there is no
    file `b`: its name is overwritten. -/
theorem create_overwrites_name : ∃ s s', freeSlotBefore = some s ∧ fsExists default s [98] = 1 ∧
    fsCreate default s (List.replicate 80 67) 8 = some (0, s') ∧ fsExists default s' [98] = 0 ∧
    ¬CreatesClean default s (List.replicate 80 67) 8 := by
  have hcheck : (freeSlotBefore.bind fun s => (fsCreate default s (List.replicate 80 67) 8).map
      fun r => (fsExists default s [98], createSlot default s (List.replicate 80 67) 8, r.1,
        fsExists default r.2 [98])) = some (1, some 0, 0, 0) := by
    decide +kernel
  obtain ⟨s, hs, hcheck⟩ := Option.bind_eq_some_iff.1 hcheck
  obtain ⟨⟨r, s'⟩, hcreate, hcheck⟩ := Option.map_eq_some_iff.1 hcheck
  simp only [Prod.mk.injEq] at hcheck
  obtain ⟨hbefore, hslot, rfl, hafter⟩ := hcheck
  refine ⟨s, s', hs, hbefore, hcreate, hafter, ?_⟩
  rintro ⟨r, s'', -, -, hstores⟩
  exact absurd (storesInName_iff.1 (hstores 0 hslot)) (by decide +kernel)

end Fru1tOs
