import Fru1tOs.Files.Run
import Fru1tOs.Heap.Stats

/-!
# What the file system prints

The messages of `fs_create`, `fs_read` and `fs_delete`, and the listing of `fs_list`, on the state
before the call. They are said of the files in the order of their slots (`Files`), each with its
name and its contents: `fs_create` puts a new one in the first slot that is free, with some contents
of the given size, `fs_delete` takes one out, and `fs_list` goes through them in that order
(`FsInv.fsCreate`, `FsInv.fsDelete`, `FsInv.fsListText`).
-/

namespace Fru1tOs

open Lib

/-- What `kmalloc` prints. -/
def kmallocText (s : Heap) (size : ℕ) : Option (List UInt8) := do
  let (p, _) ← kmalloc s size
  if size ≠ 0 ∧ p = 0 then say "kmalloc failed: no suitable block found\n" [] else return []

/-- What `fs_create` prints. -/
def fsCreateText (L : FsLayout) (s : Heap) (filename : List UInt8) (size : ℕ) :
    Option (List UInt8) :=
  if size > maxFilesize then
    say "File size too large: %d bytes (max: %d)\n" [intArg size, intArg maxFilesize]
  else if fsExists L s filename ≠ 0 then say "File '%s' already exists\n" [.str filename]
  else
    match (List.finRange maxFiles).find? fun i => load32 s.mem (L.isUsed i) = 0 with
    | none => say "No free file slots available\n" []
    | some i => do
      let s := { s with mem := strcpy s.mem (L.file i) filename }
      let (data, _) ← kmalloc s size
      let out ← kmallocText s size
      if data = 0 then
        return out ++ (← say "Failed to allocate memory for file '%s'\n" [.str filename])
      return out ++ (← say "Created file '%s' (%d bytes)\n" [.str filename, intArg size])

/-- What `fs_read` prints. -/
def fsReadText (L : FsLayout) (s : Heap) (filename : List UInt8) (size : ℕ) : Option (List UInt8) :=
  match fsFind L s.mem filename with
  | none => say "File '%s' not found\n" [.str filename]
  | some i =>
    let readSize := if size < load32 s.mem (L.size i) then size else load32 s.mem (L.size i)
    say "Read %d bytes from file '%s'\n" [intArg readSize, .str filename]

/-- What `fs_delete` prints. -/
def fsDeleteText (L : FsLayout) (s : Heap) (filename : List UInt8) : Option (List UInt8) :=
  match fsFind L s.mem filename with
  | none => say "File '%s' not found\n" [.str filename]
  | some _ => say "Deleted file '%s'\n" [.str filename]

/-- What `fs_list` prints. -/
def fsListText (L : FsLayout) (s : Heap) : Option (List UInt8) := do
  let head ← say "\n=== File System Listing ===\n" []
  let count ← say "Files: %d/%d\n" [intArg (load32 s.mem L.fileCount), intArg maxFiles]
  if load32 s.mem L.fileCount = 0 then
    return head ++ count ++ (← say "No files in filesystem\n" [])
  let lines ← (List.finRange maxFiles).mapM fun i =>
    if load32 s.mem (L.isUsed i) ≠ 0 then
      say "  %s (%d bytes)\n" [.str (slotName L s.mem i), intArg (load32 s.mem (L.size i))]
    else some []
  return head ++ count ++ lines.flatten

/-! ## The files -/

/-- The files in the order of their slots: a name, and the contents. -/
abbrev Files := Fin maxFiles → Option (List UInt8 × List UInt8)

namespace Files

variable (files : Files)

/-- The slot of the file of a name. -/
def find (name : List UInt8) : Option (Fin maxFiles) :=
  (List.finRange maxFiles).find? fun i => (files i).map Prod.fst = some name

/-- The first slot that is free. -/
def free : Option (Fin maxFiles) := (List.finRange maxFiles).find? fun i => (files i).isNone

/-- The contents of the file of a name. -/
def contents (name : List UInt8) : Option (List UInt8) :=
  (files.find name).bind fun i => (files i).map Prod.snd

/-- The files, one after the other. -/
def toList : List (List UInt8 × List UInt8) := (List.finRange maxFiles).filterMap files

/-- The listing of the files. -/
def listing : List UInt8 :=
  text "\n=== File System Listing ===\n" [] ++
    text "Files: %d/%d\n" [intArg files.toList.length, intArg maxFiles] ++
    if files.toList = [] then text "No files in filesystem\n" []
    else files.toList.flatMap fun f =>
      text "  %s (%d bytes)\n" [.str f.1, intArg f.2.length]

/-- What reading a file prints. -/
def reading (name : List UInt8) (size : ℕ) : List UInt8 :=
  match files.contents name with
  | none => text "File '%s' not found\n" [.str name]
  | some c =>
    text "Read %d bytes from file '%s'\n" [intArg (min size c.length : ℕ), .str name]

/-- What the creation of a file prints, and the files after it. -/
def Creates (name : List UInt8) (size : ℕ) (out : List UInt8) (files' : Files) : Prop :=
  if (files.find name).isSome then
    out = text "File '%s' already exists\n" [.str name] ∧ files' = files
  else
    match files.free with
    | none => out = text "No free file slots available\n" [] ∧ files' = files
    | some i => ∃ data : List UInt8, data.length = size ∧
        out = text "Created file '%s' (%d bytes)\n" [.str name, intArg size] ∧
        files' = Function.update files i (some (name, data))

/-- What the deletion of a file prints, and the files after it. -/
def Deletes (name out : List UInt8) (files' : Files) : Prop :=
  match files.find name with
  | none => out = text "File '%s' not found\n" [.str name] ∧ files' = files
  | some i => out = text "Deleted file '%s'\n" [.str name] ∧ files' = Function.update files i none

end Files

/-- The files that are in the table. -/
def filesIn (L : FsLayout) (m : Mem) : Files := fun i =>
  if load32 m (L.isUsed i) ≠ 0 then
    some (slotName L m i, loadBytes m (load32 m (L.data i)) (load32 m (L.size i)))
  else none

/-- The files of the slots. -/
def filesOf (m : Mem) (slots : Fin maxFiles → Option Slot) : Files :=
  fun i => (slots i).map fun f => (f.name.1, f.contents m)

section Files

variable {m m' : Mem} {slots slots' : Fin maxFiles → Option Slot}

/-- The slots are what the table holds. -/
theorem Table.filesIn {L : FsLayout} (h : Table L m slots) :
    Fru1tOs.filesIn L m = filesOf m slots := by
  funext i
  have hholds := h.holds i
  rw [Fru1tOs.filesIn, filesOf]
  cases hi : slots i with
  | none =>
    rw [hi] at hholds
    have hunused : load32 m (L.isUsed i) = 0 := hholds
    rw [if_neg (not_not.2 hunused), Option.map_none]
  | some f =>
    rw [hi] at hholds
    obtain ⟨hused, hname, hdata, hsize⟩ := hholds
    rw [if_pos (by rw [hused]; decide), slotName, hname.takeWhile f.name.2.1 f.name.2.2, hdata,
      hsize, Option.map_some, Slot.contents]

theorem filesOf_find (m : Mem) (slots : Fin maxFiles → Option Slot) (name : FileName) :
    (filesOf m slots).find name = findSlot slots name := by
  refine congrArg (List.find? · (List.finRange maxFiles)) (funext fun i => ?_)
  rw [filesOf]
  cases slots i with
  | none => rfl
  | some f => simp [Subtype.ext_iff]

theorem filesOf_free (m : Mem) (slots : Fin maxFiles → Option Slot) :
    (filesOf m slots).free = freeSlot slots := by
  simp only [Files.free, freeSlot, filesOf, Option.isNone_map]

/-- The number of files. -/
theorem length_toList_filesOf (m : Mem) (slots : Fin maxFiles → Option Slot) :
    (filesOf m slots).toList.length = (dataPtrs slots).length := by
  have hlen : ∀ l : List (Fin maxFiles), (l.filterMap (filesOf m slots)).length =
      (l.filterMap fun i => (slots i).map Slot.data).length := fun l => by
    induction l with
    | nil => rfl
    | cons i l ih =>
      cases hi : slots i with
      | none => simpa [filesOf, hi] using ih
      | some f => simpa [filesOf, hi] using ih
  exact hlen _

end Files

/-! ## The texts -/

section Text

variable {L : FsLayout} {s : FsRun} {bs : List Block} {slots : Fin maxFiles → Option Slot}

/-- What is shown for the entries that are there. -/
theorem flatMap_filterMap {α β : Type} (g : α → Option β) (t : β → List UInt8) (l : List α) :
    (l.filterMap g).flatMap t = (l.map fun a => ((g a).map t).getD []).flatten := by
  induction l with
  | nil => rfl
  | cons a l ih =>
    rw [List.map_cons, List.flatten_cons, ← ih, List.filterMap_cons]
    cases g a <;> rfl

/-- The listing is that of the files. -/
theorem FsInv.fsListText (h : FsInv L s bs slots) :
    Fru1tOs.fsListText L s.heap = some (filesOf s.heap.mem slots).listing := by
  set m := s.heap.mem
  set files := filesOf m slots with hfiles
  have hlen : (files.toList).length = load32 m L.fileCount := by
    rw [length_toList_filesOf, h.count]
  -- A slot in use has a line of its own, and another one has none.
  have hline : ∀ i, (if load32 m (L.isUsed i) ≠ 0 then
      say "  %s (%d bytes)\n" [.str (slotName L m i), intArg (load32 m (L.size i))]
      else some []) = some (((files i).map fun f =>
        text "  %s (%d bytes)\n" [.str f.1, intArg f.2.length]).getD []) := fun i => by
    rw [hfiles, ← h.table.filesIn, filesIn]
    split_ifs
    · rw [say_eq (show Takes _ [.str, .word] by decide +kernel), Option.map_some, Option.getD_some,
        length_loadBytes]
    · rfl
  have hlines : (List.finRange maxFiles).mapM (fun i =>
      if load32 m (L.isUsed i) ≠ 0 then
        say "  %s (%d bytes)\n" [.str (slotName L m i), intArg (load32 m (L.size i))]
      else some []) = some ((List.finRange maxFiles).map fun i => ((files i).map fun f =>
        text "  %s (%d bytes)\n" [.str f.1, intArg f.2.length]).getD []) := by
    rw [funext hline]
    exact List.mapM_pure
  rw [Fru1tOs.fsListText, say_eq (show Takes _ [] by decide +kernel),
    say_eq (show Takes _ [.word, .word] by decide +kernel),
    say_eq (show Takes _ [] by decide +kernel), hlines, Files.listing, hlen]
  simp only [Option.bind_eq_bind, Option.bind_some, Option.pure_def]
  by_cases hzero : load32 m L.fileCount = 0
  · rw [if_pos hzero, if_pos (List.eq_nil_of_length_eq_zero (hlen.trans hzero))]
  · rw [if_neg hzero, if_neg fun hnil => hzero (by rw [← hlen, hnil]; rfl), Files.toList,
      flatMap_filterMap]

/-- The contents of a file are what the map has. -/
theorem FsInv.fsMap_name (h : FsInv L s bs slots) {i : Fin maxFiles} {f : Slot}
    (hf : slots i = some f) : fsMap L s.heap.mem f.name = some (f.contents s.heap.mem) :=
  h.table.fsMap_eq_some.2 ⟨i, f, hf, rfl, rfl⟩

/-- What `contents` finds is what the map has. -/
theorem FsInv.contents (h : FsInv L s bs slots) (name : FileName) :
    (filesOf s.heap.mem slots).contents name = fsMap L s.heap.mem name := by
  rw [Files.contents, filesOf_find, ← h.table.fsFind_eq_findSlot]
  cases hfind : fsFind L s.heap.mem name with
  | none => rw [h.table.fsMap_eq, hfind, Option.bind_none, Option.map_none]
  | some i =>
    obtain ⟨f, hf, rfl⟩ := h.table.fsFind_eq_some.1 hfind
    rw [h.fsMap_name hf, Option.bind_some, filesOf, hf]
    rfl

/-- `fs_read` prints how much is read. -/
theorem FsInv.fsReadText (h : FsInv L s bs slots) (name : FileName) (size : ℕ) :
    Fru1tOs.fsReadText L s.heap name size =
      some ((filesOf s.heap.mem slots).reading name size) := by
  rw [Fru1tOs.fsReadText, Files.reading, h.contents, h.table.fsMap_eq]
  cases fsFind L s.heap.mem name with
  | none => exact say_eq (show Takes _ [.str] by decide +kernel)
  | some i =>
    simp only [Option.map_some, length_loadBytes]
    have hmin : (if size < load32 s.heap.mem (L.size i) then size
        else load32 s.heap.mem (L.size i)) = min size (load32 s.heap.mem (L.size i)) := by
      split_ifs <;> omega
    rw [say_eq (show Takes _ [.word, .str] by decide +kernel), hmin]

/-- The files are the same, when the slots and the map are. -/
theorem FsInv.filesOf_congr (h : FsInv L s bs slots) {s' : FsRun} {bs' : List Block}
    {slots' : Fin maxFiles → Option Slot} (h' : FsInv L s' bs' slots') {i : Fin maxFiles}
    (hslot : slots' i = slots i)
    (hmap : ∀ f, slots i = some f → fsMap L s'.heap.mem f.name = fsMap L s.heap.mem f.name) :
    filesOf s'.heap.mem slots' i = filesOf s.heap.mem slots i := by
  rw [filesOf, filesOf, hslot]
  cases hi : slots i with
  | none => rfl
  | some f =>
    have hcontents := hmap f hi
    rw [h.fsMap_name hi, h'.fsMap_name (hslot.trans hi), Option.some_inj] at hcontents
    rw [Option.map_some, Option.map_some, hcontents]

theorem findSlot_eq_none {name : FileName} (h : findSlot slots name = none) {i : Fin maxFiles}
    {f : Slot} (hf : slots i = some f) : f.name ≠ name := by
  have := List.find?_eq_none.1 h i (List.mem_finRange i)
  simpa [hf] using this

/-- `fs_delete` prints what happens, and takes the file out. -/
theorem FsInv.fsDelete (h : FsInv L s bs slots) (name : FileName) :
    ∃ out s' bs' slots', fsDeleteText L s.heap name = some out ∧
      (∃ r, s.call L (.delete name) = some (r, s')) ∧ FsInv L s' bs' slots' ∧
      (FsShape.step L ⟨bs, slots⟩ (.delete name) = ⟨bs', slots'⟩) ∧
      (filesOf s.heap.mem slots).Deletes name out (filesOf s'.heap.mem slots') := by
  obtain ⟨r, s', hs', h', hspec⟩ := h.delete name
  have hfind := h.table.fsFind_eq_findSlot name
  simp only [fsDeleteText, hfind, Files.Deletes, filesOf_find]
  rw [FsShape.step, FsShape.delete] at h' ⊢
  cases hslot : findSlot slots name with
  | none =>
    rw [hslot] at h'
    refine ⟨_, s', bs, slots, say_eq (show Takes _ [.str] by decide +kernel), ⟨r, hs'⟩, h', rfl,
      rfl, funext fun i => h.filesOf_congr h' rfl fun f hf => ?_⟩
    rcases hspec with ⟨hsome, -⟩ | ⟨-, -, hmap⟩
    · rw [h.table.fsMap_eq, hfind, hslot] at hsome
      exact absurd rfl hsome
    · rw [hmap]
  | some i =>
    rw [hslot] at h' hfind
    obtain ⟨f, hf, hname⟩ := h.table.fsFind_eq_some.1 hfind
    simp only [hf] at h' ⊢
    refine ⟨_, s', _, _, say_eq (show Takes _ [.str] by decide +kernel), ⟨r, hs'⟩, h', rfl,
      rfl, funext fun j => ?_⟩
    by_cases hj : j = i
    · subst hj
      rw [Function.update_self, filesOf, Function.update_self, Option.map_none]
    · rw [Function.update_of_ne hj]
      refine h.filesOf_congr h' (Function.update_of_ne hj _ _) fun g hg => ?_
      have hne : g.name ≠ name := fun heq => hj (h.table.names j i g f hg hf (heq.trans hname.symm))
      rcases hspec with ⟨-, -, hmap⟩ | ⟨-, -, hmap⟩
      · rw [hmap, Function.update_of_ne hne]
      · rw [hmap]

/-- What `fs_create` prints, when there is room for the data. -/
theorem FsInv.fsCreateText (h : FsInv L s bs slots) (name : FileName) {size : ℕ}
    (hmax : size ≤ maxFilesize)
    (hroom : ∀ m', (∀ x, L.heap ≤ x → x < L.heapEnd → m' x = s.heap.mem x) →
      ∃ p s', kmalloc { s.heap with mem := m' } size = some (p, s') ∧ p ≠ 0) :
    Fru1tOs.fsCreateText L s.heap name size = some (
      if (findSlot slots name).isSome then text "File '%s' already exists\n" [.str name]
      else if freeSlot slots = none then text "No free file slots available\n" []
      else text "Created file '%s' (%d bytes)\n" [.str name, intArg size]) := by
  rw [Fru1tOs.fsCreateText, if_neg (not_lt.2 hmax), fsExists, h.table.fsFind_eq_findSlot,
    h.table.find?_isUsed]
  by_cases hfind : (findSlot slots name).isSome = true
  · rw [if_pos hfind, if_pos hfind, if_pos one_ne_zero]
    exact say_eq (show Takes _ [.str] by decide +kernel)
  · rw [if_neg hfind, if_neg hfind, if_neg (not_not.2 rfl)]
    cases hfree : freeSlot slots with
    | none =>
      rw [if_pos rfl]
      exact say_eq (show Takes _ [] by decide +kernel)
    | some i =>
      obtain ⟨p, s', hk, hp⟩ := hroom (strcpy s.heap.mem (L.file i) name) fun x hx hx' =>
        strcpy_of_heap name hx hx'
      have htext : kmallocText { s.heap with mem := strcpy s.heap.mem (L.file i) name } size =
          some [] := by
        rw [kmallocText, hk]
        exact if_neg fun hn => hp hn.2
      rw [if_neg (Option.some_ne_none i)]
      simp only [hk, htext, if_neg hp, Option.bind_eq_bind, Option.bind_some, Option.pure_def,
        List.nil_append]
      rw [say_eq (show Takes _ [.str, .word] by decide +kernel)]
      rfl

/-- `fs_create` prints what happens, and puts the file in the first slot that is free. -/
theorem FsInv.fsCreate (h : FsInv L s bs slots) (name : FileName) {size : UInt32}
    (h0 : size.toNat ≠ 0) (hmax : size.toNat ≤ maxFilesize)
    (hroom : ∀ m', (∀ x, L.heap ≤ x → x < L.heapEnd → m' x = s.heap.mem x) →
      ∃ p s', kmalloc { s.heap with mem := m' } size.toNat = some (p, s') ∧ p ≠ 0) :
    ∃ out s' bs' slots', Fru1tOs.fsCreateText L s.heap name size.toNat = some out ∧
      (∃ r, s.call L (.create name size) = some (r, s')) ∧ FsInv L s' bs' slots' ∧
      (FsShape.step L ⟨bs, slots⟩ (.create name size) = ⟨bs', slots'⟩) ∧
      (filesOf s.heap.mem slots).Creates name size.toNat out (filesOf s'.heap.mem slots') := by
  obtain ⟨r, s', hs', h', hspec⟩ := h.create name size
  have hmapfind : fsMap L s.heap.mem name = none ↔ findSlot slots name = none := by
    rw [h.table.fsMap_eq, h.table.fsFind_eq_findSlot, Option.map_eq_none_iff]
  refine ⟨_, s', _, _, h.fsCreateText name hmax hroom, ⟨r, hs'⟩, h', rfl, ?_⟩
  rw [Files.Creates, filesOf_find, filesOf_free]
  rw [FsShape.step] at h' ⊢
  -- Nothing is created.
  have hself : findSlot slots name ≠ none ∨ freeSlot slots = none →
      filesOf s'.heap.mem (FsShape.create L ⟨bs, slots⟩ name size.toNat).slots =
        filesOf s.heap.mem slots := fun hfail => by
    have hshape : FsShape.create L ⟨bs, slots⟩ name size.toNat = ⟨bs, slots⟩ :=
      FsShape.create_eq_self (.inr (.inr (hfail.imp id .inl)))
    rw [hshape] at h' ⊢
    refine funext fun i => h.filesOf_congr h' rfl fun f hf => ?_
    rcases hspec with ⟨⟨-, -, hnone, hcard, -⟩, -⟩ | ⟨-, -, hmap⟩
    · rcases hfail with hfail | hfail
      · exact absurd (hmapfind.1 hnone) hfail
      · rw [h.card_fsMap, length_dataPtrs_of_full (freeSlot_eq_none hfail)] at hcard
        exact absurd hcard (lt_irrefl _)
    · rw [hmap]
  by_cases hfind : (findSlot slots name).isSome = true
  · rw [if_pos hfind, if_pos hfind]
    exact ⟨rfl, hself (.inl (Option.isSome_iff_ne_none.1 hfind))⟩
  rw [if_neg hfind, if_neg hfind]
  have hnone : findSlot slots name = none := by simpa using hfind
  cases hfree : freeSlot slots with
  | none =>
    rw [if_pos rfl]
    exact ⟨rfl, hself (.inr hfree)⟩
  | some i =>
    rw [if_neg (Option.some_ne_none i)]
    have hi := freeSlot_eq_some hfree
    have hcard : FsMap.card (fsMap L s.heap.mem) < maxFiles := by
      have hle := length_dataPtrs_le (Function.update slots i (some ⟨name, 0, 0⟩))
      rw [(dataPtrs_update hi).length_eq, List.length_cons] at hle
      rw [h.card_fsMap]
      omega
    have halloc : s.Allocates size.toNat := hroom s.heap.mem fun _ _ _ => rfl
    have hmapnone := hmapfind.2 hnone
    -- The call succeeds, and the map has the new file.
    obtain ⟨c, hc, hmap⟩ : ∃ c : List UInt8, c.length = size.toNat ∧
        fsMap L s'.heap.mem = Function.update (fsMap L s.heap.mem) name (some c) := by
      rcases hspec with ⟨-, -, c, hc, hmap⟩ | ⟨hfails, -, -⟩
      · exact ⟨c, hc, hmap⟩
      · exact absurd ⟨by omega, hmax, hmapnone, hcard, halloc⟩ hfails
    refine ⟨c, hc, rfl, ?_⟩
    -- The new slot is the first one that was free.
    obtain ⟨q, hq⟩ : ∃ q, allocBlocks L.heap (roundUp size.toNat) bs = some q := by
      by_contra hno
      have hno := Option.eq_none_iff_forall_not_mem.2 fun q hq => hno ⟨q, hq⟩
      rw [FsShape.create_eq_self (.inr (.inr (.inr (.inr hno))))] at h'
      have hsome : fsMap L s'.heap.mem name = some c := by rw [hmap, Function.update_self]
      obtain ⟨j, f, hf, hfname, -⟩ := h'.table.fsMap_eq_some.1 hsome
      exact findSlot_eq_none hnone hf hfname
    rw [FsShape.create_eq h0 hmax hnone hfree hq] at h' ⊢
    refine funext fun j => ?_
    by_cases hj : j = i
    · subst hj
      have hself : Function.update slots j (some ⟨name, q.1, size.toNat⟩) j =
          some ⟨name, q.1, size.toNat⟩ := Function.update_self _ _ _
      have hnew := h'.fsMap_name hself
      simp only at hnew
      rw [hmap, Function.update_self, Option.some_inj] at hnew
      simp only [filesOf, hself, Option.map_some, Function.update_self, hnew]
    · rw [Function.update_of_ne hj]
      refine h.filesOf_congr h' (Function.update_of_ne hj _ _) fun f hf => ?_
      rw [hmap, Function.update_of_ne (findSlot_eq_none hnone hf)]

end Text

end Fru1tOs
