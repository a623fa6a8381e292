import Fru1tOs.Files.Effects

/-!
# Runs of the file system

What the file system is for: a finite map from names to arrays of bytes, of at most
`MAX_FILES` entries (`FsSpec`). The used blocks of the heap are those of the files and
of the other users, each with its own (`FsInv`), so that an operation on a file
touches neither the data of another file nor the slots of the table but its own.
Every call of every run, with other users of the heap in between, does what the
specification says (`fs_refines_map`).
-/

namespace Fru1tOs

open Lib

/-! ## The specification -/

/-- The files: names, and their contents. -/
abbrev FsMap := FileName → Option (List UInt8)

/-- The number of files. -/
noncomputable def FsMap.card (files : FsMap) : ℕ := Set.ncard {name | files name ≠ none}

/-- When `fs_create` succeeds. -/
def CreateSucceeds (allocated : Prop) (files : FsMap) (name : FileName) (size : ℕ) : Prop :=
  1 ≤ size ∧ size ≤ maxFilesize ∧ files name = none ∧ files.card < maxFiles ∧ allocated

/-- What a call does to the files, and what it returns, given whether the data of a new
    file can be allocated. -/
def FsSpec (allocated : Prop) (files : FsMap) : FsCall → ℤ × List UInt8 → FsMap → Prop
  | .create name size, r, files' =>
    (CreateSucceeds allocated files name size.toNat ∧ 0 ≤ r.1 ∧
        ∃ c : List UInt8, c.length = size.toNat ∧
          files' = Function.update files name (some c)) ∨
      (¬ CreateSucceeds allocated files name size.toNat ∧ r.1 = -1 ∧ files' = files)
  | .write name data, r, files' =>
    (∃ c : List UInt8, files name = some c ∧ data.length ≤ c.length ∧ r.1 = 0 ∧
        files' = Function.update files name (some (data ++ c.drop data.length))) ∨
      ((∀ c : List UInt8, files name = some c → c.length < data.length) ∧ r.1 = -1 ∧
        files' = files)
  | .read name size, r, files' =>
    files' = files ∧
      ((∃ c : List UInt8, files name = some c ∧
          r = (((min size.toNat c.length : ℕ) : ℤ), c.take size.toNat)) ∨
        (files name = none ∧ r = (-1, [])))
  | .delete name, r, files' =>
    (files name ≠ none ∧ r.1 = 0 ∧ files' = Function.update files name none) ∨
      (files name = none ∧ r.1 = -1 ∧ files' = files)
  | .exists name, r, files' => files' = files ∧ r.1 = if files name = none then 0 else 1
  | .other _, _, files' => files' = files

/-- `kmalloc` of the size does not return `NULL`. -/
def FsRun.Allocates (s : FsRun) (size : ℕ) : Prop :=
  ∃ p h', kmalloc s.heap size = some (p, h') ∧ p ≠ 0

/-- Whether the allocation that a call may make succeeds. -/
def FsRun.AllocatesFor (s : FsRun) : FsCall → Prop
  | .create _ size => s.Allocates size.toNat
  | _ => True

/-! ## The invariant -/

/-- The invariant of the runs: the heap, with the blocks of the other users and of the
    files, and the table. -/
structure FsInv (L : FsLayout) (s : FsRun) (bs : List Block) (slots : Fin maxFiles → Option Slot) :
    Prop where
  heap : HeapInv L.toHeapLayout ⟨s.heap, s.live ++ dataPtrs slots⟩ bs
  table : Table L s.heap.mem slots
  size : ∀ i f, slots i = some f → 1 ≤ f.size ∧ f.size ≤ maxFilesize
  block : ∀ i f, slots i = some f → ∃ n, f.size ≤ n ∧ (f.data, n) ∈ usedAt L.heap bs
  count : load32 s.heap.mem L.fileCount = (dataPtrs slots).length

namespace FsInv

variable {L : FsLayout} {s : FsRun} {bs : List Block} {slots : Fin maxFiles → Option Slot}

/-- The number of files is the number of slots in use. -/
theorem card_fsMap (h : FsInv L s bs slots) :
    FsMap.card (fsMap L s.heap.mem) = (dataPtrs slots).length := by
  set names := (List.finRange maxFiles).filterMap fun i => (slots i).map Slot.name with hnames
  have hdom : {name | fsMap L s.heap.mem name ≠ none} = (names.toFinset : Set FileName) := by
    ext name
    have hiff : fsMap L s.heap.mem name = none ↔ _ := h.table.fsMap_eq_none
    simpa [hnames] using not_congr hiff
  have hnd : names.Nodup := by
    refine List.Nodup.filterMap (fun i j name hi hj => ?_) (List.nodup_finRange _)
    simp only [Option.mem_def, Option.map_eq_some_iff] at hi hj
    obtain ⟨f, hf, rfl⟩ := hi
    obtain ⟨g, hg, hfg⟩ := hj
    exact h.table.names i j f g hf hg hfg.symm
  have hlen : names.length = (dataPtrs slots).length := by
    have hcount : ∀ (l : List (Fin maxFiles)),
        (l.filterMap fun i => (slots i).map Slot.name).length =
        (l.filterMap fun i => (slots i).map Slot.data).length := fun l => by
      induction l with
      | nil => rfl
      | cons i l ih =>
        cases hi : slots i with
        | none => simpa [List.filterMap_cons, hi] using ih
        | some f => simpa [List.filterMap_cons, hi] using ih
    exact hcount _
  rw [FsMap.card, hdom, Set.ncard_coe_finset, List.toFinset_card_of_nodup hnd, hlen]

/-- The data of a file are in the heap. -/
theorem data_bounds (h : FsInv L s bs slots) {i : Fin maxFiles} {f : Slot} (hf : slots i = some f) :
    L.heap ≤ f.data ∧ f.data + f.size ≤ L.heapEnd := by
  obtain ⟨n, hn, hmem⟩ := h.block i f hf
  have := h.heap.used_bounds hmem
  omega

/-- The pointers of the other users and of the files are different. -/
theorem nodup_live (h : FsInv L s bs slots) : (s.live ++ dataPtrs slots).Nodup :=
  h.heap.live.nodup_iff.2 (nodup_usedAt L.heap bs)

/-- Two files have different data. -/
theorem data_ne (h : FsInv L s bs slots) {i j : Fin maxFiles} {f g : Slot} (hf : slots i = some f)
    (hg : slots j = some g) (hij : i ≠ j) : f.data ≠ g.data := by
  intro heq
  have hnd : (dataPtrs slots).Nodup := (List.nodup_append.1 h.nodup_live).2.1
  have hperm := dataPtrs_erase hf
  have hg' : g.data ∈ dataPtrs (Function.update slots i none) :=
    mem_dataPtrs.2 ⟨j, g, by rw [Function.update_of_ne hij.symm, hg], rfl⟩
  exact (List.nodup_cons.1 (hperm.nodup_iff.1 hnd)).1 (heq ▸ hg')

/-- A step of other users: the memory out of the heap and the data of the files stay. -/
theorem of_keeps (h : FsInv L s bs slots) (s' : FsRun) {bs' : List Block}
    (hheap : HeapInv L.toHeapLayout ⟨s'.heap, s'.live ++ dataPtrs slots⟩ bs')
    (hout : ∀ x, x < L.heap ∨ L.heapEnd ≤ x → s'.heap.mem x = s.heap.mem x)
    (hfile : ∀ i f, slots i = some f → ∀ n, (f.data, n) ∈ usedAt L.heap bs →
      (f.data, n) ∈ usedAt L.heap bs' ∧
        ∀ x, f.data ≤ x → x < f.data + n → s'.heap.mem x = s.heap.mem x) :
    FsInv L s' bs' slots ∧ fsMap L s'.heap.mem = fsMap L s.heap.mem := by
  have htable : Table L s'.heap.mem slots := h.table.congr fun x hx hx' =>
    hout x (L.out_of_heap hx (by omega))
  refine ⟨⟨hheap, htable, h.size, fun i f hf => ?_, ?_⟩,
    h.table.fsMap_congr htable fun i f hf => ?_⟩
  · obtain ⟨n, hn, hmem⟩ := h.block i f hf
    exact ⟨n, hn, (hfile i f hf n hmem).1⟩
  · rw [load32_congr fun x hx hx' => hout x (L.out_of_heap (by
      rw [FsLayout.fileCount] at hx
      omega) (by omega)), h.count]
  · obtain ⟨n, hn, hmem⟩ := h.block i f hf
    exact loadBytes_congr fun x hx hx' => (hfile i f hf n hmem).2 x hx (by omega)

/-- A slot is written: the other slots and the data of the other files stay. The map changes at
    the name of the file that was or is in the slot. -/
theorem of_update (h : FsInv L s bs slots) (s' : FsRun) (name : FileName) {bs' : List Block}
    {i : Fin maxFiles} {v : Option Slot}
    (hheap : HeapInv L.toHeapLayout ⟨s'.heap, s'.live ++ dataPtrs (Function.update slots i v)⟩ bs')
    (hholds : HoldsSlot L s'.heap.mem i v)
    (hslots : ∀ x, L.fs ≤ x → x < L.fileCount → x < L.file i ∨ L.file i + 76 ≤ x →
      s'.heap.mem x = s.heap.mem x)
    (hfile : ∀ j f, j ≠ i → slots j = some f → ∀ n, (f.data, n) ∈ usedAt L.heap bs →
      (f.data, n) ∈ usedAt L.heap bs' ∧
        ∀ x, f.data ≤ x → x < f.data + n → s'.heap.mem x = s.heap.mem x)
    (hsize : ∀ f, v = some f → (1 ≤ f.size ∧ f.size ≤ maxFilesize) ∧
      ∃ n, f.size ≤ n ∧ (f.data, n) ∈ usedAt L.heap bs')
    (hold : ∀ f, slots i = some f → f.name = name) (hnew : ∀ f, v = some f → f.name = name)
    (hother : ∀ j f, j ≠ i → slots j = some f → f.name ≠ name)
    (hcount : load32 s'.heap.mem L.fileCount = (dataPtrs (Function.update slots i v)).length) :
    FsInv L s' bs' (Function.update slots i v) ∧
      fsMap L s'.heap.mem =
        Function.update (fsMap L s.heap.mem) name (v.map (Slot.contents · s'.heap.mem)) := by
  have htable : Table L s'.heap.mem (Function.update slots i v) :=
    h.table.update hslots hholds fun f hf j g hji hg => by
      rw [hnew f hf]
      exact hother j g hji hg
  -- The files after the call: the new one, or another one as before.
  have hcases : ∀ j f, Function.update slots i v j = some f →
      (j = i ∧ v = some f) ∨ (j ≠ i ∧ slots j = some f) := fun j f hf => by
    by_cases hji : j = i
    · rw [hji, Function.update_self] at hf
      exact .inl ⟨hji, hf⟩
    · rw [Function.update_of_ne hji] at hf
      exact .inr ⟨hji, hf⟩
  refine ⟨⟨hheap, htable, fun j f hf => ?_, fun j f hf => ?_, hcount⟩,
    h.table.fsMap_update htable (fun j f hne => ⟨fun hf => ?_, fun hf => ?_⟩) (fun j f hf hne => ?_)
      ?_⟩
  · exact (hcases j f hf).elim (fun hf => (hsize f hf.2).1) fun hf => h.size j f hf.2
  · rcases hcases j f hf with ⟨-, hf⟩ | ⟨hji, hf⟩
    · exact (hsize f hf).2
    · obtain ⟨n, hn, hmem⟩ := h.block j f hf
      exact ⟨n, hn, (hfile j f hji hf n hmem).1⟩
  · exact (hcases j f hf).elim (fun hf => absurd (hnew f hf.2) hne) And.right
  · have hji : j ≠ i := fun hji => hne (hold f (hji ▸ hf))
    rw [Function.update_of_ne hji, hf]
  · have hji : j ≠ i := fun hji => hne (hold f (hji ▸ hf))
    obtain ⟨n, hn, hmem⟩ := h.block j f hf
    exact loadBytes_congr fun x hx hx' => (hfile j f hji hf n hmem).2 x hx (by omega)
  · cases v with
    | none =>
      refine htable.fsMap_eq_none.2 fun j f hf => ?_
      rcases hcases j f hf with ⟨-, hf⟩ | ⟨hji, hf⟩
      · cases hf
      · exact hother j f hji hf
    | some f =>
      exact htable.fsMap_eq_some.2 ⟨i, f, Function.update_self _ _ _, hnew f rfl, rfl⟩

/-- The pointer of a file is not one of the other users. -/
theorem data_ne_live (h : FsInv L s bs slots) {i : Fin maxFiles} {f : Slot} {p : ℕ}
    (hf : slots i = some f) (hp : p ∈ s.live) : f.data ≠ p := fun heq =>
  (List.nodup_append.1 h.nodup_live).2.2 p hp f.data (mem_dataPtrs.2 ⟨i, f, hf, rfl⟩) heq.symm

/-- `kmalloc` by another user of the heap. -/
theorem otherKmalloc (h : FsInv L s bs slots) (size : UInt32) :
    ∃ r s', s.call L (.other (.kmalloc size)) = some (r, s') ∧
      FsInv L s' (FsShape.step L ⟨bs, slots⟩ (.other (.kmalloc size))).blocks
        (FsShape.step L ⟨bs, slots⟩ (.other (.kmalloc size))).slots ∧
      fsMap L s'.heap.mem = fsMap L s.heap.mem := by
  simp only [FsShape.step, FsShape.other, HeapCall.target, Option.any_none, Bool.false_eq_true,
    if_false, blockStep]
  rcases h.heap.kmalloc size.toNat with
    ⟨hk, hno⟩ | ⟨p, h', bs', n, h0, -, hk, hp0, -, hinv, hkeeps, hused, halloc, -⟩
  · refine ⟨(0, []), s, ?_, ?_, rfl⟩
    · simp only at hk
      simp only [FsRun.call, HeapRun.call, hk, Option.bind_eq_bind, Option.bind_some, if_true,
        Option.pure_def]
    · rcases hno with h0 | hno
      · rwa [if_pos h0]
      · rw [allocBlocks_eq_none hno, Option.map_none, Option.getD_none, ite_self]
        exact h
  · simp only at hk hkeeps
    obtain ⟨hfs, hmap⟩ := h.of_keeps ⟨h', p :: s.live⟩ hinv
      (fun x hx => hkeeps x (hx.imp id .inl)) fun i f hf n' hmem =>
        ⟨(hused _).2 (.inr hmem), fun x hx hx' => hkeeps x (.inr (.inr ⟨_, hmem, hx, hx'⟩))⟩
    refine ⟨(0, []), ⟨h', p :: s.live⟩, ?_, ?_, hmap⟩
    · simp only [FsRun.call, HeapRun.call, hk, Option.bind_eq_bind, Option.bind_some,
        Option.pure_def, if_neg hp0]
    · rwa [if_neg h0, halloc, Option.map_some, Option.getD_some]

/-- `kfree` by another user of the heap, of a pointer of its own or not. -/
theorem otherKfree (h : FsInv L s bs slots) (ptr : ℕ) :
    ∃ r s', s.call L (.other (.kfree ptr)) = some (r, s') ∧
      FsInv L s' (FsShape.step L ⟨bs, slots⟩ (.other (.kfree ptr))).blocks
        (FsShape.step L ⟨bs, slots⟩ (.other (.kfree ptr))).slots ∧
      fsMap L s'.heap.mem = fsMap L s.heap.mem := by
  simp only [FsShape.step, FsShape.other, HeapCall.target, Option.any_some, decide_eq_true_eq,
    blockStep]
  by_cases hp : ptr ∈ s.live
  · have hlive : ptr ∈ s.live ++ dataPtrs slots := List.mem_append_left _ hp
    obtain ⟨h', bs', hk, hinv, hused, hkeeps, rfl, -⟩ := h.heap.kfree hlive
    simp only at hk hkeeps hinv
    rw [List.erase_append_left _ hp] at hinv
    obtain ⟨hfs, hmap⟩ := h.of_keeps ⟨h', s.live.erase ptr⟩ hinv
      (fun x hx => hkeeps x (hx.imp id .inl)) fun i f hf n hmem => by
        have hmem' := (hused (f.data, n)).2 ⟨hmem, h.data_ne_live hf hp⟩
        exact ⟨hmem', fun x hx hx' => hkeeps x (.inr (.inr ⟨_, hmem', hx, hx'⟩))⟩
    have hnot : ptr ∉ dataPtrs slots := fun hd =>
      (List.nodup_append.1 h.nodup_live).2.2 ptr hp ptr hd rfl
    refine ⟨(0, []), ⟨h', s.live.erase ptr⟩, ?_, ?_, hmap⟩
    · simp only [FsRun.call, HeapRun.call, hp, or_true, if_true, hk, Option.bind_eq_bind,
        Option.bind_some, Option.pure_def]
    · rwa [if_neg hnot, if_pos (h.heap.mem_used.2 hlive)]
  · refine ⟨(0, []), s, ?_, ?_, rfl⟩
    · by_cases h0 : ptr = 0
      · simp only [FsRun.call, HeapRun.call, h0, true_or, if_true, Fru1tOs.kfree,
          Option.bind_eq_bind, Option.bind_some, Option.pure_def]
        rw [← h0, List.erase_of_not_mem hp]
      · simp only [FsRun.call, HeapRun.call, h0, hp, or_self, if_false, Option.bind_eq_bind,
          Option.bind_some, Option.pure_def]
    · by_cases hd : ptr ∈ dataPtrs slots
      · rwa [if_pos hd]
      · rw [if_neg hd, if_neg fun hmem => (List.mem_append.1 (h.heap.mem_used.1 hmem)).elim hp hd]
        exact h

/-- A byte is written by another user of the heap, to a block of its own. -/
theorem otherWrite (h : FsInv L s bs slots) (ptr offset : ℕ) (byte : UInt8) :
    ∃ r s', s.call L (.other (.write ptr offset byte)) = some (r, s') ∧
      FsInv L s' (FsShape.step L ⟨bs, slots⟩ (.other (.write ptr offset byte))).blocks
        (FsShape.step L ⟨bs, slots⟩ (.other (.write ptr offset byte))).slots ∧
      fsMap L s'.heap.mem = fsMap L s.heap.mem := by
  simp only [FsShape.step, FsShape.other, blockStep, ite_self]
  by_cases hw : ptr ∈ s.live ∧ offset < HeapRun.payload ⟨s.heap, s.live⟩ ptr
  · have hlive : ptr ∈ s.live ++ dataPtrs slots := List.mem_append_left _ hw.1
    have hmemp := h.heap.mem_usedAt_of_live hlive
    obtain ⟨t, ht, hinv, -⟩ := h.heap.write ptr offset byte
    rw [HeapRun.call, if_pos ⟨hlive, hw.2⟩, Option.some_inj] at ht
    subst ht
    have hbounds := h.heap.used_bounds hmemp
    have hoff : offset < HeapRun.payload ⟨s.heap, s.live ++ dataPtrs slots⟩ ptr := hw.2
    obtain ⟨hfs, hmap⟩ := h.of_keeps ⟨{ s.heap with
        mem := Function.update s.heap.mem (ptr + offset) byte }, s.live⟩ hinv
      (fun x hx => Function.update_of_ne (by omega) _ _) fun i f hf n hmem => by
        refine ⟨hmem, fun x hx hx' => Function.update_of_ne ?_ _ _⟩
        have := usedAt_disjoint hmem hmemp (h.data_ne_live hf hw.1)
        simp only at this
        omega
    refine ⟨(0, []), _, ?_, hfs, hmap⟩
    simp only [FsRun.call, HeapRun.call, if_pos hw, Option.bind_eq_bind, Option.bind_some,
      Option.pure_def]
  · refine ⟨(0, []), s, ?_, h, rfl⟩
    simp only [FsRun.call, HeapRun.call, if_neg hw, Option.bind_eq_bind, Option.bind_some,
      Option.pure_def]

/-- The calls of the other users of the heap. -/
theorem other (h : FsInv L s bs slots) (c : HeapCall) :
    ∃ r s', s.call L (.other c) = some (r, s') ∧
      FsInv L s' (FsShape.step L ⟨bs, slots⟩ (.other c)).blocks
        (FsShape.step L ⟨bs, slots⟩ (.other c)).slots ∧
      fsMap L s'.heap.mem = fsMap L s.heap.mem := by
  cases c with
  | kmalloc size => exact h.otherKmalloc size
  | kfree ptr => exact h.otherKfree ptr
  | write ptr offset byte => exact h.otherWrite ptr offset byte

/-- `fs_write` replaces the first bytes of a file that is large enough. -/
theorem write (h : FsInv L s bs slots) (name : FileName) (data : List UInt8) :
    ∃ r s', s.call L (.write name data) = some (r, s') ∧ FsInv L s' bs slots ∧
      FsSpec True (fsMap L s.heap.mem) (.write name data) r (fsMap L s'.heap.mem) := by
  rcases h.table.fsWrite_cases name data with ⟨hsmall, hw⟩ | ⟨i, f, -, hf, hname, hlen, hw⟩
  · refine ⟨(-1, []), s, by simp only [FsRun.call, hw], h, .inr ⟨fun c hc => ?_, rfl, rfl⟩⟩
    obtain ⟨i, f, hf, hname, rfl⟩ := h.table.fsMap_eq_some.1 hc
    rw [Slot.contents, length_loadBytes]
    exact hsmall i f hf hname
  · have hmap : fsMap L s.heap.mem name = some (f.contents s.heap.mem) :=
      h.table.fsMap_eq_some.2 ⟨i, f, hf, hname, rfl⟩
    obtain ⟨n, hn, hmem⟩ := h.block i f hf
    obtain ⟨hlo, hhi⟩ := h.data_bounds hf
    set m' := storeBytes s.heap.mem f.data data with hm'
    have hframe : ∀ x, x < f.data ∨ f.data + data.length ≤ x → m' x = s.heap.mem x :=
      fun x hx => storeBytes_of_disjoint hx
    have htable : Table L m' slots := h.table.congr fun x hx hx' => by
      have := L.out_of_heap hx (by omega)
      exact hframe x (by omega)
    refine ⟨(0, []), ⟨{ s.heap with mem := m' }, s.live⟩, ?_,
      ⟨h.heap.of_payload hmem fun x hx => ?_, htable, h.size, h.block, ?_⟩,
      .inl ⟨f.contents s.heap.mem, hmap, ?_, rfl, ?_⟩⟩
    · simp only [FsRun.call, hw, hm']
    · simp only at hx
      exact hframe x (by omega)
    · rw [load32_congr fun x hx hx' => ?_, h.count]
      have := L.out_of_heap (x := x) (by rw [FsLayout.fileCount] at hx; omega) hx'
      exact hframe x (by omega)
    · rw [Slot.contents, length_loadBytes]
      omega
    · refine h.table.fsMap_update htable (fun _ _ _ => Iff.rfl) (fun j g hg hne => ?_) ?_
      · -- The data of another file are in another block.
        obtain ⟨k, hk, hmemg⟩ := h.block j g hg
        have hji : j ≠ i := fun hji => hne (by
          rw [hji, hf, Option.some_inj] at hg
          rw [← hg, hname])
        have hdisj := usedAt_disjoint hmemg hmem (h.data_ne hg hf hji)
        simp only at hdisj
        exact loadBytes_congr fun x hx hx' => hframe x (by omega)
      · rw [htable.fsMap_eq_some]
        exact ⟨i, f, hf, hname, loadBytes_storeBytes (by omega)⟩

/-- `fs_read` returns the first bytes of a file. -/
theorem read (h : FsInv L s bs slots) (name : FileName) (size : UInt32) :
    FsSpec True (fsMap L s.heap.mem) (.read name size) (fsRead L s.heap name size.toNat)
      (fsMap L s.heap.mem) := by
  refine ⟨rfl, ?_⟩
  cases hfind : fsFind L s.heap.mem name with
  | none =>
    refine .inr ⟨?_, by simp only [fsRead, hfind]⟩
    rw [h.table.fsMap_eq, hfind, Option.map_none]
  | some i =>
    obtain ⟨f, hf, hname⟩ := h.table.fsFind_eq_some.1 hfind
    have hholds := h.table.holds i
    rw [hf] at hholds
    obtain ⟨-, -, hdata, hsize⟩ := hholds
    refine .inl ⟨f.contents s.heap.mem, h.table.fsMap_eq_some.2 ⟨i, f, hf, hname, rfl⟩, ?_⟩
    have hmin : (if size.toNat < f.size then size.toNat else f.size) = min size.toNat f.size := by
      split_ifs <;> omega
    simp only [fsRead, hfind, hsize, hdata, hmin, Slot.contents, length_loadBytes]
    rw [loadBytes, loadBytes, ← List.map_take, List.take_range]

/-- `fs_exists`. -/
theorem exists_ (h : FsInv L s bs slots) (name : FileName) :
    fsExists L s.heap name = if fsMap L s.heap.mem name = none then 0 else 1 := by
  rw [fsExists, h.table.fsMap_eq]
  cases fsFind L s.heap.mem name <;> simp

/-- `fs_delete` removes a file, and gives its data back. -/
theorem delete (h : FsInv L s bs slots) (name : FileName) :
    ∃ r s', s.call L (.delete name) = some (r, s') ∧
      FsInv L s' (FsShape.step L ⟨bs, slots⟩ (.delete name)).blocks
        (FsShape.step L ⟨bs, slots⟩ (.delete name)).slots ∧
      FsSpec True (fsMap L s.heap.mem) (.delete name) r (fsMap L s'.heap.mem) := by
  rw [FsShape.step, FsShape.delete]
  rcases h.table.fsDelete_cases name with ⟨hnone, hdel⟩ | ⟨i, f, hsome, hf, hname, hdel⟩
  · rw [hnone]
    refine ⟨(-1, []), s, ?_, h, .inr ⟨?_, rfl, rfl⟩⟩
    · simp only [FsRun.call, hdel, Option.bind_eq_bind, Option.bind_some, Option.pure_def]
    · rw [h.table.fsMap_eq, h.table.fsFind_eq_findSlot, hnone, Option.map_none]
  · have hmem : f.data ∈ s.live ++ dataPtrs slots :=
      List.mem_append_right _ (mem_dataPtrs.2 ⟨i, f, hf, rfl⟩)
    obtain ⟨h', bs', hk, hinv, hused, hkeeps, hbs', -⟩ := h.heap.kfree hmem
    simp only at hk hkeeps
    simp only [hsome, hf, ← hbs']
    have hperm := dataPtrs_erase hf
    have hlen : (dataPtrs slots).length = (dataPtrs (Function.update slots i none)).length + 1 :=
      hperm.length_eq
    have hle := length_dataPtrs_le slots
    rw [maxFiles] at hle
    obtain ⟨hlo, hhi⟩ := L.file_bounds i
    have hout : ∀ x, L.fs ≤ x → x < L.fileCount + 4 → h'.mem x = s.heap.mem x := fun x hx hx' =>
      hkeeps x ((L.out_of_heap hx hx').imp id .inl)
    have hlive : (s.live ++ dataPtrs (Function.update slots i none)).Perm
        ((s.live ++ dataPtrs slots).erase f.data) := by
      have := ((hperm.append_left s.live).trans List.perm_middle).erase f.data
      rw [List.erase_cons_head] at this
      exact this.symm
    have hfile : ∀ j g, j ≠ i → slots j = some g → ∀ n, (g.data, n) ∈ usedAt L.heap bs →
        (g.data, n) ∈ usedAt L.heap bs' ∧
          ∀ x, g.data ≤ x → x < g.data + n → clearSlot L h'.mem i x = s.heap.mem x :=
      fun j g hji hg n hmem => by
        have hmem' := (hused (g.data, n)).2 ⟨hmem, h.data_ne hg hf hji⟩
        have hbounds := hinv.used_bounds hmem'
        refine ⟨hmem', fun x hx hx' => ?_⟩
        rw [clearSlot_of_heap (by omega) (by omega)]
        exact hkeeps x (.inr (.inr ⟨_, hmem', hx, hx'⟩))
    have hself : ∀ g, slots i = some g → g.name = name := fun g hg => by
      rw [hf, Option.some_inj] at hg
      rw [← hg, hname]
    have hcount : load32 (clearSlot L h'.mem i) L.fileCount =
        (dataPtrs (Function.update slots i none)).length := by
      rw [load32_fileCount_clearSlot, load32_congr fun x hx hx' => hout x (by omega) hx', h.count]
      omega
    obtain ⟨hfs, hmap⟩ := h.of_update (v := none)
      ⟨{ h' with mem := clearSlot L h'.mem i }, s.live⟩ name
      (hinv.congr (fun x hx hx' => clearSlot_of_heap hx hx') hlive) holdsSlot_clearSlot
      (fun x hx hx' hxi => (clearSlot_of_disjoint (by omega) (by omega)).trans
        (hout x hx (by omega)))
      hfile (by simp) hself (by simp)
      (fun j g hji hg hgname => hji (h.table.names j i g f hg hf (hgname.trans hname.symm))) hcount
    refine ⟨(0, []), _, ?_, hfs, .inl ⟨?_, rfl, hmap⟩⟩
    · simp only [FsRun.call, hdel, hk, Option.bind_eq_bind, Option.bind_some, Option.pure_def]
    · rw [h.table.fsMap_eq_some.2 ⟨i, f, hf, hname, rfl⟩]
      exact Option.some_ne_none _

/-- Writes in a free slot, other than to `is_used`: the files stay. -/
theorem free_slot (h : FsInv L s bs slots) {i : Fin maxFiles} (hi : slots i = none) (m' : Mem)
    (hm : ∀ x, x < L.file i ∨ L.file i + 72 ≤ x → m' x = s.heap.mem x) :
    FsInv L ⟨{ s.heap with mem := m' }, s.live⟩ bs slots ∧ fsMap L m' = fsMap L s.heap.mem := by
  obtain ⟨hlo, hhi⟩ := L.file_bounds i
  have hin : ∀ x, L.heap ≤ x → x < L.heapEnd → m' x = s.heap.mem x := fun x hx hx' => by
    have hout := L.fs_disjoint_heap hx hx'
    exact hm x (by omega)
  have htable : Table L m' slots := by
    rw [← Function.update_eq_self i slots, hi]
    refine h.table.update (fun x _ _ hx => hm x (by omega)) ?_ fun g hg => by cases hg
    · have hused := h.table.holds i
      rw [hi] at hused
      have hisUsed : L.isUsed i = L.file i + 72 := rfl
      show load32 m' (L.isUsed i) = 0
      rw [load32_congr fun x hx hx' => hm x (by omega)]
      exact hused
  refine ⟨⟨h.heap.congr hin (List.Perm.refl _), htable, h.size, h.block, ?_⟩,
    h.table.fsMap_congr htable fun j f hf => ?_⟩
  · rw [load32_congr fun x hx hx' => hm x (by omega), h.count]
  · obtain ⟨h₁, h₂⟩ := h.data_bounds hf
    exact loadBytes_congr fun x hx hx' => hin x (by omega) (by omega)

/-- The allocation of the data of a new file, and the writes that put it in its slot. -/
theorem create_take (h : FsInv L s bs slots) {i : Fin maxFiles} (hi : slots i = none)
    {name : FileName} (hname : StoresStr s.heap.mem (L.file i) name)
    (hnew : ∀ j f, slots j = some f → f.name ≠ name) {size : ℕ} (h1 : 1 ≤ size)
    (hmax : size ≤ maxFilesize) {p : ℕ} {h' : Heap} {bs' : List Block} {n : ℕ} (hn : size ≤ n)
    (hinv : HeapInv L.toHeapLayout ⟨h', p :: (s.live ++ dataPtrs slots)⟩ bs')
    (hkeeps : Keeps L.toHeapLayout (usedAt L.heap bs) s.heap.mem h'.mem)
    (hused : ∀ u, u ∈ usedAt L.heap bs' ↔ u = (p, n) ∨ u ∈ usedAt L.heap bs) :
    FsInv L ⟨{ h' with mem := putSlot L h'.mem i p size }, s.live⟩ bs'
        (Function.update slots i (some ⟨name, p, size⟩)) ∧
      ∃ c : List UInt8, c.length = size ∧
        fsMap L (putSlot L h'.mem i p size) =
          Function.update (fsMap L s.heap.mem) name (some c) := by
  obtain ⟨hlo, hhi⟩ := L.file_bounds i
  have hp : (p, n) ∈ usedAt L.heap bs' := (hused (p, n)).2 (.inl rfl)
  have hend := Tiled.heapEnd_le L.toHeapLayout
  have hple := hinv.used_bounds hp
  have hout : ∀ x, L.fs ≤ x → x < L.fileCount + 4 → h'.mem x = s.heap.mem x := fun x hx hx' =>
    hkeeps x ((L.out_of_heap hx hx').imp id .inl)
  have hperm := dataPtrs_update hi (f := ⟨name, p, size⟩)
  have hle := length_dataPtrs_le slots
  simp only [maxFiles, maxFilesize] at hle hmax
  have hlen : name.1.length < 64 := name.2.2
  have hholds : HoldsSlot L (putSlot L h'.mem i p size) i (some ⟨name, p, size⟩) :=
    holdsSlot_putSlot (hname.congr fun x hx hx' => hout x (by omega) (by omega)) (by omega)
      (by omega)
  have hfile : ∀ j g, j ≠ i → slots j = some g → ∀ k, (g.data, k) ∈ usedAt L.heap bs →
      (g.data, k) ∈ usedAt L.heap bs' ∧
        ∀ x, g.data ≤ x → x < g.data + k → putSlot L h'.mem i p size x = s.heap.mem x :=
    fun j g hji hg k hmem => by
      have hmem' := (hused (g.data, k)).2 (.inr hmem)
      have hbounds := hinv.used_bounds hmem'
      refine ⟨hmem', fun x hx hx' => ?_⟩
      rw [putSlot_of_heap p size (by omega) (by omega)]
      exact hkeeps x (.inr (.inr ⟨_, hmem, hx, hx'⟩))
  have hcount : load32 (putSlot L h'.mem i p size) L.fileCount =
      (dataPtrs (Function.update slots i (some ⟨name, p, size⟩))).length := by
    rw [load32_fileCount_putSlot, load32_congr fun x hx hx' => hout x (by omega) hx', h.count,
      hperm.length_eq, List.length_cons]
    omega
  obtain ⟨hfs, hmap⟩ := h.of_update (v := some ⟨name, p, size⟩)
    ⟨{ h' with mem := putSlot L h'.mem i p size }, s.live⟩ name
    (hinv.congr (fun x hx hx' => putSlot_of_heap p size hx hx')
      ((hperm.append_left s.live).trans List.perm_middle))
    hholds
    (fun x hx hx' hxi => (putSlot_of_disjoint p size (by omega) (by omega)).trans
      (hout x hx (by omega)))
    hfile (fun g hg => by rw [← Option.some.inj hg]; exact ⟨⟨h1, hmax⟩, n, hn, hp⟩)
    (fun g hg => by rw [hi] at hg; cases hg) (fun g hg => by rw [← Option.some.inj hg])
    (fun j g hji hg => hnew j g hg) hcount
  exact ⟨hfs, _, length_loadBytes _ _ _, hmap⟩

/-- Whether an allocation succeeds depends on the blocks only. -/
theorem allocates_iff (h : FsInv L s bs slots) (size : ℕ) : s.Allocates size ↔
    ¬(size = 0 ∨ ∀ b ∈ bs, b.free = true → b.size < roundUp size) := by
  rcases h.heap.kmalloc size with ⟨hk, hno⟩ | ⟨p, h', -, -, h0, ⟨b, hb, hfree, hfit⟩, hk, hp0, -⟩
  · refine iff_of_false ?_ (not_not.2 hno)
    rintro ⟨p, h', hk', hp0⟩
    simp only at hk
    rw [hk, Option.some_inj, Prod.mk.injEq] at hk'
    exact hp0 hk'.1.symm
  · refine iff_of_true ⟨p, h', hk, hp0⟩ ?_
    rintro (hzero | hno)
    · exact h0 hzero
    · exact absurd (hno b hb hfree) (not_lt.2 hfit)

/-- `fs_create` makes a file of the given size, whose contents are what the allocator
    gives. -/
theorem create (h : FsInv L s bs slots) (name : FileName) (size : UInt32) :
    ∃ r s', s.call L (.create name size) = some (r, s') ∧
      FsInv L s' (FsShape.step L ⟨bs, slots⟩ (.create name size)).blocks
        (FsShape.step L ⟨bs, slots⟩ (.create name size)).slots ∧
      FsSpec (s.Allocates size.toNat) (fsMap L s.heap.mem) (.create name size) r
        (fsMap L s'.heap.mem) := by
  rw [FsShape.step]
  -- A failure that leaves the files as they are.
  have hfail : ∀ (s' : FsRun), FsInv L s' bs slots → fsMap L s'.heap.mem = fsMap L s.heap.mem →
      fsCreate L s.heap name size.toNat = some (-1, s'.heap) → s'.live = s.live →
      ¬ CreateSucceeds (s.Allocates size.toNat) (fsMap L s.heap.mem) name size.toNat →
      ∃ r s', s.call L (.create name size) = some (r, s') ∧ FsInv L s' bs slots ∧
        FsSpec (s.Allocates size.toNat) (fsMap L s.heap.mem) (.create name size) r
          (fsMap L s'.heap.mem) := fun s' hinv hmap hs' hlive hn => by
    refine ⟨(-1, []), s', ?_, hinv, .inr ⟨hn, rfl, hmap⟩⟩
    simp only [FsRun.call, hs', Option.bind_eq_bind, Option.bind_some, Option.pure_def, ← hlive]
  have hfind : fsMap L s.heap.mem name = none ↔ findSlot slots name = none := by
    rw [h.table.fsMap_eq, h.table.fsFind_eq_findSlot, Option.map_eq_none_iff]
  rcases h.table.fsCreate_cases name size.toNat with
    ⟨hno, hcreate⟩ | ⟨i, hmax, hnot, hslot, hcreate⟩
  · rw [FsShape.create_eq_self (.inr (hno.imp id fun hno => hno.imp id .inl))]
    refine hfail s h rfl hcreate rfl fun hs => ?_
    rcases hno with hmax | hsome | hfull
    · exact absurd hs.2.1 (not_le.2 hmax)
    · exact hsome (hfind.1 hs.2.2.1)
    · have hcard := hs.2.2.2.1
      rw [h.card_fsMap, length_dataPtrs_of_full (freeSlot_eq_none hfull)] at hcard
      exact absurd hcard (lt_irrefl _)
  · have hnone := hfind.2 hnot
    have hnew := h.table.fsMap_eq_none.1 hnone
    have hi := freeSlot_eq_some hslot
    have hcard : FsMap.card (fsMap L s.heap.mem) < maxFiles := by
      have hle := length_dataPtrs_le (Function.update slots i (some ⟨name, 0, 0⟩))
      rw [(dataPtrs_update hi).length_eq, List.length_cons] at hle
      rw [h.card_fsMap]
      omega
    have hlen : name.1.length < 64 := name.2.2
    have hframe : ∀ x, x < L.file i ∨ L.file i + 64 ≤ x →
        strcpy s.heap.mem (L.file i) name x = s.heap.mem x := fun x hx =>
      storeBytes_of_disjoint (by rw [List.length_append, List.length_singleton]; omega)
    have hname := storesStr_strcpy s.heap.mem (L.file i) name
    obtain ⟨h₁, hmap₁⟩ := h.free_slot hi (strcpy s.heap.mem (L.file i) name) fun x hx =>
      hframe x (by omega)
    rw [fsCreateAt] at hcreate
    -- The strings are not in the heap: the allocation is the one of the state before.
    rcases h₁.heap.kmalloc size.toNat with
      ⟨hk, hno⟩ | ⟨p, h', bs', n, h0, -, hk, hp0, hround, hinv, hkeeps, hused, halloc', -⟩
    · have hfails : size.toNat = 0 ∨ allocBlocks L.heap (roundUp size.toNat) bs = none :=
        hno.imp id allocBlocks_eq_none
      rw [FsShape.create_eq_self (hfails.imp id fun hno => .inr (.inr (.inr hno)))]
      simp only at hk
      rw [hk, Option.bind_some, if_pos rfl] at hcreate
      have hdataAt : L.data i = L.file i + 64 := rfl
      obtain ⟨h₂, hmap₂⟩ := h.free_slot hi
        (store32 (strcpy s.heap.mem (L.file i) name) (L.data i) 0) fun x hx => by
          rw [store32_of_disjoint (by omega), hframe x (by omega)]
      exact hfail _ h₂ hmap₂ hcreate rfl fun hs => (h.allocates_iff _).1 hs.2.2.2.2 hno
    · simp only at hk hkeeps hinv
      rw [hk, Option.bind_some, if_neg hp0] at hcreate
      have hsize : size.toNat ≤ n := by
        simp only [maxFilesize] at hmax
        rw [roundUp] at hround
        omega
      obtain ⟨hfs, c, hc, hmap⟩ := h₁.create_take hi hname hnew (by omega) hmax hsize hinv hkeeps
        hused
      have halloc : s.Allocates size.toNat :=
        (h.allocates_iff _).2 ((h₁.allocates_iff _).1 ⟨p, h', hk, hp0⟩)
      rw [hmap₁] at hmap
      rw [FsShape.create_eq h0 hmax hnot hslot halloc']
      refine ⟨((i : ℕ), []), _, ?_, hfs,
        .inl ⟨⟨by omega, hmax, hnone, hcard, halloc⟩, by simp, c, hc, hmap⟩⟩
      simp only [FsRun.call, hcreate, Option.bind_eq_bind, Option.bind_some, Option.pure_def]

/-- Every call returns, does to the blocks and the slots what `FsShape.step` says, and to the
    files what the specification says. -/
theorem call (h : FsInv L s bs slots) (c : FsCall) :
    ∃ r s', s.call L c = some (r, s') ∧
      FsInv L s' (FsShape.step L ⟨bs, slots⟩ c).blocks (FsShape.step L ⟨bs, slots⟩ c).slots ∧
      FsSpec (s.AllocatesFor c) (fsMap L s.heap.mem) c r (fsMap L s'.heap.mem) := by
  cases c with
  | create name size => exact h.create name size
  | write name data => exact h.write name data
  | read name size => exact ⟨_, s, rfl, h, h.read name size⟩
  | delete name => exact h.delete name
  | «exists» name => exact ⟨_, s, rfl, h, rfl, h.exists_ name⟩
  | other c => exact h.other c

end FsInv

/-! ## Runs -/

/-- The loop of `fs_init` writes in the slots. -/
theorem foldl_fsClear (L : FsLayout) (l : List (Fin maxFiles)) (m : Mem) {x : ℕ}
    (hx : x < L.fs ∨ L.fileCount ≤ x) : l.foldl (fsClear L) m x = m x := by
  induction l generalizing m with
  | nil => rfl
  | cons i l ih =>
    obtain ⟨hlo, hhi⟩ := L.file_bounds i
    rw [List.foldl_cons, ih, fsClear]
    rw [FsLayout.isUsed, FsLayout.data, FsLayout.size, store32_of_disjoint (by omega),
      store32_of_disjoint (by omega), store32_of_disjoint (by omega)]

/-- The loop of `fs_init` frees the slots. -/
theorem isUsed_foldl_fsClear (L : FsLayout) (l : List (Fin maxFiles)) (m : Mem) (i : Fin maxFiles)
    (hi : i ∈ l ∨ load32 m (L.isUsed i) = 0) :
    load32 (l.foldl (fsClear L) m) (L.isUsed i) = 0 := by
  induction l generalizing m with
  | nil => exact hi.resolve_left List.not_mem_nil
  | cons j l ih =>
    refine ih (fsClear L m j) ?_
    by_cases hij : i = j
    · subst hij
      refine .inr ?_
      rw [fsClear, FsLayout.data, FsLayout.size, FsLayout.isUsed,
        load32_store32_of_disjoint (by omega), load32_store32_of_disjoint (by omega),
        load32_store32 (by decide)]
    · refine hi.imp (fun hi => (List.mem_cons.1 hi).resolve_left hij) fun hi => ?_
      have hdisj := L.file_disjoint hij
      rw [fsClear, FsLayout.data, FsLayout.size, FsLayout.isUsed, FsLayout.isUsed,
        load32_store32_of_disjoint (by omega), load32_store32_of_disjoint (by omega),
        load32_store32_of_disjoint (by omega)]
      exact hi

/-- The invariant after `memory_init` and `fs_init`. -/
theorem fsInv_init (L : FsLayout) (s₀ : Heap) :
    FsInv L (FsRun.init L s₀) [⟨heapSize - 12, true⟩] fun _ => none := by
  have hheap := heapInv_init L.toHeapLayout s₀
  have hcountAt : L.fileCount = L.fs + 76 * 32 := rfl
  have hnil : dataPtrs (fun _ => none) = [] := by simp [dataPtrs]
  refine ⟨?_, ⟨fun i => ?_, by simp⟩, by simp, by simp, ?_⟩
  · rw [hnil]
    refine hheap.congr (fun x hx hx' => ?_) (List.Perm.refl _)
    have hout := L.fs_disjoint_heap hx hx'
    exact (store32_of_disjoint (by omega)).trans (foldl_fsClear L _ _ (by omega))
  · obtain ⟨hlo, hhi⟩ := L.file_bounds i
    have hisUsed : L.isUsed i = L.file i + 72 := rfl
    show load32 (store32 _ L.fileCount 0) (L.isUsed i) = 0
    rw [load32_store32_of_disjoint (by omega)]
    exact isUsed_foldl_fsClear L _ _ i (.inl (List.mem_finRange i))
  · rw [hnil]
    exact load32_store32 (by decide)

/-- In every run of the file system with other users of the heap, after `memory_init` and
    `fs_init`, `file_count` is the number of files, which is at most `MAX_FILES`, and
    every call returns and does what the specification of a map says. -/
theorem fs_refines_map (L : FsLayout) (s₀ : Heap) (calls : List FsCall) :
    ∃ s, run (fun s c => (FsRun.call L s c).map Prod.snd) (FsRun.init L s₀) calls = some s ∧
      load32 s.heap.mem L.fileCount = FsMap.card (fsMap L s.heap.mem) ∧
      FsMap.card (fsMap L s.heap.mem) ≤ maxFiles ∧
      ∀ c, ∃ r s', s.call L c = some (r, s') ∧
        FsSpec (s.AllocatesFor c) (fsMap L s.heap.mem) c r (fsMap L s'.heap.mem) := by
  have hstep : ∀ s c, (∃ bs slots, FsInv L s bs slots) →
      ∃ s', (s.call L c).map Prod.snd = some s' ∧ ∃ bs slots, FsInv L s' bs slots :=
    fun s c ⟨bs, slots, h⟩ => by
      obtain ⟨r, s', hs', h', -⟩ := h.call c
      exact ⟨s', by rw [hs', Option.map_some], _, _, h'⟩
  obtain ⟨s, hs, bs, slots, h⟩ := run_of_invariant hstep ⟨_, _, fsInv_init L s₀⟩ calls
  refine ⟨s, hs, ?_, ?_, fun c => ?_⟩
  · rw [h.card_fsMap, h.count]
  · rw [h.card_fsMap]
    exact length_dataPtrs_le slots
  · obtain ⟨r, s', hs', -, hspec⟩ := h.call c
    exact ⟨r, s', hs', hspec⟩

end Fru1tOs
