import Fru1tOs.Heap.Run

/-!
# The in-memory file system

The file system of `kernel.c`: a table of `MAX_FILES` slots, each with a name, a
pointer to the data and its size, the data being allocated by `kmalloc`. The table is
in the memory of the heap (`Lib.Mem`), at the address `fs`, out of the array of the
heap: a slot takes 76 bytes, 64 for the name and 4 for each of `data`, `size` and
`is_used`, and `file_count` follows the slots.

A file name is given as the list of its characters, up to the terminating zero,
which is not part of it. The messages are left out.
-/

namespace Fru1tOs

open Lib

/-- `MAX_FILES`. -/
abbrev maxFiles : ℕ := 32

/-- `MAX_FILENAME`. -/
abbrev maxFilename : ℕ := 64

/-- `MAX_FILESIZE`. -/
abbrev maxFilesize : ℕ := 1024

/-- The size of `struct filesystem`. -/
abbrev fsSize : ℕ := 76 * maxFiles + 4

/-- Where the heap and the variable `fs` are. -/
structure FsLayout extends HeapLayout where
  fs : ℕ
  fs_fits : fs + fsSize ≤ 2 ^ 32
  fs_disjoint : fs + fsSize ≤ heap ∨ heap + heapSize ≤ fs

instance : Inhabited FsLayout := ⟨⟨default, 0x80200000, by decide, by decide⟩⟩

namespace FsLayout

variable (L : FsLayout)

/-- The address of a slot. Its name is there. -/
def file (i : Fin maxFiles) : ℕ := L.fs + 76 * i

/-- The address of `data` of a slot. -/
def data (i : Fin maxFiles) : ℕ := L.file i + 64

/-- The address of `size` of a slot. -/
def size (i : Fin maxFiles) : ℕ := L.file i + 68

/-- The address of `is_used` of a slot. -/
def isUsed (i : Fin maxFiles) : ℕ := L.file i + 72

/-- The address of `file_count`. -/
def fileCount : ℕ := L.fs + 76 * maxFiles

end FsLayout

/-! ## Strings -/

/-- `strcmp` of the string at `a` and of a name: the difference of the first characters
    that differ, if any. -/
def strcmp (m : Mem) : ℕ → List UInt8 → ℤ
  | a, [] => (m a).toNat
  | a, c :: l => if m a ≠ 0 ∧ m a = c then strcmp m (a + 1) l else (m a).toNat - c.toNat

/-- `strcpy` of a name at `a`, with its terminating zero. -/
def strcpy (m : Mem) (a : ℕ) (name : List UInt8) : Mem := storeBytes m a (name ++ [0])

/-! ## Operations -/

/-- The body of the loop of `fs_init`. -/
def fsClear (L : FsLayout) (m : Mem) (i : Fin maxFiles) : Mem :=
  store32 (store32 (store32 m (L.isUsed i) 0) (L.data i) 0) (L.size i) 0

/-- `fs_init`. -/
def fsInit (L : FsLayout) (s : Heap) : Heap :=
  { s with mem := store32 ((List.finRange maxFiles).foldl (fsClear L) s.mem) L.fileCount 0 }

/-- The scan of the slots for a file of the given name. -/
def fsFind (L : FsLayout) (m : Mem) (filename : List UInt8) : Option (Fin maxFiles) :=
  (List.finRange maxFiles).find? fun i =>
    load32 m (L.isUsed i) ≠ 0 ∧ strcmp m (L.file i) filename = 0

/-- `fs_exists`. -/
def fsExists (L : FsLayout) (s : Heap) (filename : List UInt8) : ℤ :=
  if (fsFind L s.mem filename).isSome then 1 else 0

/-- `fs_create`. -/
def fsCreate (L : FsLayout) (s : Heap) (filename : List UInt8) (size : ℕ) : Option (ℤ × Heap) :=
  if size > maxFilesize then some (-1, s)
  else if fsExists L s filename ≠ 0 then some (-1, s)
  else
    match (List.finRange maxFiles).find? fun i => load32 s.mem (L.isUsed i) = 0 with
    | none => some (-1, s)
    | some i => do
      let s := { s with mem := strcpy s.mem (L.file i) filename }
      let (data, s) ← kmalloc s size
      let s := { s with mem := store32 s.mem (L.data i) data }
      if data = 0 then return (-1, s)
      let m := store32 s.mem (L.size i) size
      let m := store32 m (L.isUsed i) 1
      let m := store32 m L.fileCount ((load32 m L.fileCount + 1) % 2 ^ 32)
      return (i, { s with mem := m })

/-- `fs_write`, of the bytes given. -/
def fsWrite (L : FsLayout) (s : Heap) (filename data : List UInt8) : ℤ × Heap :=
  match fsFind L s.mem filename with
  | none => (-1, s)
  | some i =>
    if data.length > load32 s.mem (L.size i) then (-1, s)
    else (0, { s with mem := storeBytes s.mem (load32 s.mem (L.data i)) data })

/-- `fs_read`, with the bytes read. -/
def fsRead (L : FsLayout) (s : Heap) (filename : List UInt8) (size : ℕ) : ℤ × List UInt8 :=
  match fsFind L s.mem filename with
  | none => (-1, [])
  | some i =>
    let readSize := if size < load32 s.mem (L.size i) then size else load32 s.mem (L.size i)
    (readSize, loadBytes s.mem (load32 s.mem (L.data i)) readSize)

/-- `fs_delete`. -/
def fsDelete (L : FsLayout) (s : Heap) (filename : List UInt8) : Option (ℤ × Heap) :=
  match fsFind L s.mem filename with
  | none => some (-1, s)
  | some i => do
    let s ← kfree s (load32 s.mem (L.data i))
    let m := store32 s.mem (L.isUsed i) 0
    let m := store32 m (L.data i) 0
    let m := store32 m (L.size i) 0
    let m := store32 m L.fileCount ((load32 m L.fileCount + 2 ^ 32 - 1) % 2 ^ 32)
    return (0, { s with mem := m })

/-! ## Runs -/

/-- A file name that fits its field. -/
abbrev FileName := {l : List UInt8 // (∀ c ∈ l, c ≠ 0) ∧ l.length < maxFilename}

/-- The calls of a run: those of the file system, and those of the other users of the
    heap. -/
inductive FsCall
  | create (filename : FileName) (size : UInt32)
  | write (filename : FileName) (data : List UInt8)
  | read (filename : FileName) (size : UInt32)
  | delete (filename : FileName)
  | exists (filename : FileName)
  | other (c : HeapCall)

/-- The heap, and the live pointers of its other users. -/
structure FsRun where
  heap : Heap
  live : List ℕ

/-- The effect of a call, with the number it returns and the bytes it reads. -/
def FsRun.call (L : FsLayout) (s : FsRun) : FsCall → Option ((ℤ × List UInt8) × FsRun)
  | .create filename size => do
    let (r, heap) ← fsCreate L s.heap filename size.toNat
    return ((r, []), { s with heap := heap })
  | .write filename data =>
    let (r, heap) := fsWrite L s.heap filename data
    some ((r, []), { s with heap := heap })
  | .read filename size => some (fsRead L s.heap filename size.toNat, s)
  | .delete filename => do
    let (r, heap) ← fsDelete L s.heap filename
    return ((r, []), { s with heap := heap })
  | .exists filename => some ((fsExists L s.heap filename, []), s)
  | .other c => do
    let t ← (HeapRun.mk s.heap s.live).call c
    return ((0, []), ⟨t.heap, t.live⟩)

/-- The state after `memory_init` and `fs_init`. -/
def FsRun.init (L : FsLayout) (s : Heap) : FsRun := ⟨fsInit L (memoryInit L.toHeapLayout s), []⟩

end Fru1tOs
