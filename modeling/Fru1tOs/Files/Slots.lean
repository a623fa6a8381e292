import Fru1tOs.Files.Basic

/-!
# Slots

The table of the file system as a function from slots to files (`Slot`), which the
memory holds (`Table`): names are terminated strings within their fields, and
different for different slots. The scan of the source finds the slot of a name
(`Table.fsFind_eq_some`).

The file system as a map from names to bytes (`fsMap`) is read off the memory: it
changes at one name when the slots and the data of the other names stay
(`Table.fsMap_update`).
-/

namespace Fru1tOs

open Lib

/-! ## Addresses -/

namespace FsLayout

variable (L : FsLayout)

theorem file_bounds (i : Fin maxFiles) : L.fs ≤ L.file i ∧ L.file i + 76 ≤ L.fileCount := by
  have hi : (i : ℕ) < 32 := i.isLt
  rw [file, fileCount]
  omega

theorem file_disjoint {i j : Fin maxFiles} (h : j ≠ i) :
    L.file j + 76 ≤ L.file i ∨ L.file i + 76 ≤ L.file j := by
  have hij : (j : ℕ) ≠ i := fun hij => h (Fin.ext hij)
  rw [file, file]
  omega

/-- The table is not in the heap. -/
theorem out_of_heap {x : ℕ} (h₁ : L.fs ≤ x) (h₂ : x < L.fileCount + 4) :
    x < L.heap ∨ L.heapEnd ≤ x := by
  have hdisj : L.fs + (76 * 32 + 4) ≤ L.heap ∨ L.heap + heapSize ≤ L.fs := L.fs_disjoint
  have hcount : L.fileCount = L.fs + 76 * 32 := rfl
  rw [HeapLayout.heapEnd]
  omega

end FsLayout

/-! ## Strings -/

/-- The string at `a` is `l`, terminated by a zero. -/
def StoresStr (m : Mem) : ℕ → List UInt8 → Prop
  | a, [] => m a = 0
  | a, c :: l => m a = c ∧ StoresStr m (a + 1) l

theorem StoresStr.congr {m m' : Mem} {a : ℕ} {l : List UInt8} (h : StoresStr m a l)
    (hm : ∀ x, a ≤ x → x < a + l.length + 1 → m' x = m x) : StoresStr m' a l := by
  induction l generalizing a with
  | nil => exact (hm a le_rfl (by simp)).trans h
  | cons c l ih =>
    rw [List.length_cons] at hm
    exact ⟨(hm a le_rfl (by omega)).trans h.1, ih h.2 fun x hx hx' => hm x (by omega) (by omega)⟩

/-- `strcmp` is zero when the strings are the same. -/
theorem StoresStr.strcmp_eq_zero {m : Mem} {a : ℕ} {l k : List UInt8} (h : StoresStr m a l)
    (hl : ∀ c ∈ l, c ≠ 0) (hk : ∀ c ∈ k, c ≠ 0) : strcmp m a k = 0 ↔ l = k := by
  induction k generalizing a l with
  | nil =>
    cases l with
    | nil =>
      have h0 : m a = 0 := h
      simp [strcmp, h0]
    | cons c l =>
      have hc : c.toNat ≠ 0 := fun hc => hl c List.mem_cons_self (UInt8.toNat_inj.1 hc)
      simp [strcmp, h.1, hc]
  | cons d k ih =>
    have hd : d.toNat ≠ 0 := fun hd => hk d List.mem_cons_self (UInt8.toNat_inj.1 hd)
    cases l with
    | nil =>
      have h0 : m a = 0 := h
      rw [strcmp, h0, if_neg (by simp)]
      simp [hd]
    | cons c l =>
      have hc := hl c List.mem_cons_self
      rw [strcmp, h.1]
      by_cases hcd : c = d
      · subst hcd
        rw [if_pos ⟨hc, rfl⟩, ih h.2 (fun x hx => hl x (List.mem_cons_of_mem _ hx))
          fun x hx => hk x (List.mem_cons_of_mem _ hx)]
        simp
      · rw [if_neg fun hn => hcd hn.2]
        have : c.toNat ≠ d.toNat := fun hn => hcd (UInt8.toNat_inj.1 hn)
        simp only [List.cons.injEq, hcd, false_and, iff_false]
        omega

theorem storesStr_strcpy (m : Mem) (a : ℕ) (l : List UInt8) : StoresStr (strcpy m a l) a l := by
  rw [strcpy]
  induction l generalizing m a with
  | nil => exact Function.update_self _ _ _
  | cons c l ih =>
    refine ⟨?_, ih _ _⟩
    rw [List.cons_append, storeBytes, storeBytes_of_disjoint (by omega), Function.update_self]

/-- A terminated string is what is before the first zero. -/
theorem StoresStr.takeWhile {m : Mem} {a n : ℕ} {l : List UInt8} (h : StoresStr m a l)
    (hl : ∀ c ∈ l, c ≠ 0) (hn : l.length < n) : (loadBytes m a n).takeWhile (· ≠ 0) = l := by
  induction l generalizing a n with
  | nil =>
    obtain ⟨n, rfl⟩ : ∃ k, n = k + 1 := ⟨n - 1, by simp at hn; omega⟩
    have h0 : m a = 0 := h
    simp [loadBytes, List.range_succ_eq_map, h0]
  | cons c l ih =>
    obtain ⟨n, rfl⟩ : ∃ k, n = k + 1 := ⟨n - 1, by simp at hn; omega⟩
    have hrest := ih h.2 (fun x hx => hl x (List.mem_cons_of_mem _ hx)) (n := n) (by simpa using hn)
    have hload : loadBytes m a (n + 1) = m a :: loadBytes m (a + 1) n := by
      simp only [loadBytes, List.range_succ_eq_map, List.map_cons, List.map_map, Nat.add_zero]
      congr 1
      refine List.map_congr_left fun j _ => ?_
      simp only [Function.comp_apply, Nat.succ_eq_add_one]
      congr 1
      omega
    rw [hload, h.1, List.takeWhile_cons_of_pos (by simpa using hl c List.mem_cons_self), hrest]

/-! ## The table -/

/-- A file: its name, and its data with their size. -/
structure Slot where
  name : FileName
  data : ℕ
  size : ℕ

/-- The memory of the slot `i`. -/
def HoldsSlot (L : FsLayout) (m : Mem) (i : Fin maxFiles) : Option Slot → Prop
  | none => load32 m (L.isUsed i) = 0
  | some f => load32 m (L.isUsed i) = 1 ∧ StoresStr m (L.file i) f.name ∧
      load32 m (L.data i) = f.data ∧ load32 m (L.size i) = f.size

theorem HoldsSlot.congr {L : FsLayout} {m m' : Mem} {i : Fin maxFiles} {f : Option Slot}
    (h : HoldsSlot L m i f) (hm : ∀ x, L.file i ≤ x → x < L.file i + 76 → m' x = m x) :
    HoldsSlot L m' i f := by
  have hused : load32 m' (L.isUsed i) = load32 m (L.isUsed i) :=
    load32_congr fun x hx hx' => by rw [FsLayout.isUsed] at hx hx'; exact hm x (by omega) (by omega)
  cases f with
  | none => exact hused.trans h
  | some f =>
    obtain ⟨h₁, h₂, h₃, h₄⟩ := h
    refine ⟨hused.trans h₁, h₂.congr fun x hx hx' => ?_, ?_, ?_⟩
    · have hlen : f.name.1.length < 64 := f.name.2.2
      exact hm x hx (by omega)
    · rw [load32_congr fun x hx hx' => ?_, h₃]
      rw [FsLayout.data] at hx hx'
      exact hm x (by omega) (by omega)
    · rw [load32_congr fun x hx hx' => ?_, h₄]
      rw [FsLayout.size] at hx hx'
      exact hm x (by omega) (by omega)

/-- The memory holds the slots, whose names are different. -/
structure Table (L : FsLayout) (m : Mem) (slots : Fin maxFiles → Option Slot) : Prop where
  holds : ∀ i, HoldsSlot L m i (slots i)
  names : ∀ i j f g, slots i = some f → slots j = some g → f.name = g.name → i = j

/-- The contents of a file. -/
def Slot.contents (f : Slot) (m : Mem) : List UInt8 := loadBytes m f.data f.size

/-- The name in the slot `i`. -/
def slotName (L : FsLayout) (m : Mem) (i : Fin maxFiles) : List UInt8 :=
  (loadBytes m (L.file i) maxFilename).takeWhile (· ≠ 0)

/-- The file system as a map from names: the data of the slot in use of that name. -/
def fsMap (L : FsLayout) (m : Mem) : FileName → Option (List UInt8) := fun name =>
  ((List.finRange maxFiles).find? fun i =>
    load32 m (L.isUsed i) ≠ 0 ∧ slotName L m i = name.1).map fun i =>
      loadBytes m (load32 m (L.data i)) (load32 m (L.size i))

/-- The first slot of the name. -/
def findSlot (slots : Fin maxFiles → Option Slot) (name : FileName) : Option (Fin maxFiles) :=
  (List.finRange maxFiles).find? fun i => (slots i).map Slot.name = some name

/-- The first slot that is free. -/
def freeSlot (slots : Fin maxFiles → Option Slot) : Option (Fin maxFiles) :=
  (List.finRange maxFiles).find? fun i => (slots i).isNone

namespace Table

variable {L : FsLayout} {m m' : Mem} {slots slots' : Fin maxFiles → Option Slot}

theorem isUsed_ne_zero (h : Table L m slots) (i : Fin maxFiles) :
    load32 m (L.isUsed i) ≠ 0 ↔ ∃ f, slots i = some f := by
  have hi := h.holds i
  cases hs : slots i with
  | none =>
    rw [hs] at hi
    have h0 : load32 m (L.isUsed i) = 0 := hi
    simp [h0]
  | some f =>
    rw [hs] at hi
    simp [hi.1]

/-- The test of the scan. -/
theorem match_iff (h : Table L m slots) (i : Fin maxFiles) (name : FileName) :
    (load32 m (L.isUsed i) ≠ 0 ∧ strcmp m (L.file i) name = 0) ↔
      ∃ f, slots i = some f ∧ f.name = name := by
  rw [h.isUsed_ne_zero i]
  have hi := h.holds i
  constructor
  · rintro ⟨⟨f, hf⟩, hcmp⟩
    rw [hf] at hi
    exact ⟨f, hf, Subtype.ext ((hi.2.1.strcmp_eq_zero f.name.2.1 name.2.1).1 hcmp)⟩
  · rintro ⟨f, hf, rfl⟩
    rw [hf] at hi
    exact ⟨⟨f, hf⟩, (hi.2.1.strcmp_eq_zero f.name.2.1 f.name.2.1).2 rfl⟩

/-- The scan, on the slots. -/
theorem fsFind_eq_findSlot (h : Table L m slots) (name : FileName) :
    fsFind L m name = findSlot slots name := by
  rw [fsFind, findSlot]
  congr 1
  funext i
  rw [decide_eq_decide, h.match_iff i name, Option.map_eq_some_iff]

/-- The search of `fs_create`, on the slots. -/
theorem find?_isUsed (h : Table L m slots) :
    ((List.finRange maxFiles).find? fun i => load32 m (L.isUsed i) = 0) = freeSlot slots := by
  rw [freeSlot]
  congr 1
  funext i
  have hused := not_congr (h.isUsed_ne_zero i)
  rw [not_not] at hused
  rw [Bool.eq_iff_iff, decide_eq_true_iff, hused, Option.isNone_iff_eq_none,
    Option.eq_none_iff_forall_ne_some, not_exists]

/-- The scan finds the slot of the name. -/
theorem fsFind_eq_some (h : Table L m slots) {i : Fin maxFiles} {name : FileName} :
    fsFind L m name = some i ↔ ∃ f, slots i = some f ∧ f.name = name := by
  constructor
  · intro hfind
    exact (h.match_iff i name).1 (by simpa using List.find?_some hfind)
  · rintro ⟨f, hf, hname⟩
    cases hfind : fsFind L m name with
    | none =>
      have := List.find?_eq_none.1 hfind i (List.mem_finRange i)
      exact absurd ((h.match_iff i name).2 ⟨f, hf, hname⟩) (by simpa using this)
    | some j =>
      obtain ⟨g, hg, hname'⟩ := (h.match_iff j name).1 (by simpa using List.find?_some hfind)
      rw [h.names j i g f hg hf (hname'.trans hname.symm)]

theorem fsMap_eq (h : Table L m slots) (name : FileName) :
    fsMap L m name = (fsFind L m name).map fun i =>
      loadBytes m (load32 m (L.data i)) (load32 m (L.size i)) := by
  rw [fsMap, fsFind]
  congr 2
  funext i
  rw [decide_eq_decide, h.match_iff i name, h.isUsed_ne_zero i]
  have hi := h.holds i
  constructor
  · rintro ⟨⟨f, hf⟩, hname⟩
    rw [hf] at hi
    exact ⟨f, hf, Subtype.ext ((hi.2.1.takeWhile f.name.2.1 f.name.2.2).symm.trans hname)⟩
  · rintro ⟨f, hf, rfl⟩
    rw [hf] at hi
    exact ⟨⟨f, hf⟩, hi.2.1.takeWhile f.name.2.1 f.name.2.2⟩

/-- What the map holds at a name. -/
theorem fsMap_eq_some (h : Table L m slots) {name : FileName} {c : List UInt8} :
    fsMap L m name = some c ↔ ∃ i f, slots i = some f ∧ f.name = name ∧ f.contents m = c := by
  rw [h.fsMap_eq, Option.map_eq_some_iff]
  have hload : ∀ i f, slots i = some f →
      loadBytes m (load32 m (L.data i)) (load32 m (L.size i)) = f.contents m := fun i f hf => by
    have hi := h.holds i
    rw [hf] at hi
    rw [hi.2.2.1, hi.2.2.2, Slot.contents]
  constructor
  · rintro ⟨i, hi, rfl⟩
    obtain ⟨f, hf, hname⟩ := h.fsFind_eq_some.1 hi
    exact ⟨i, f, hf, hname, (hload i f hf).symm⟩
  · rintro ⟨i, f, hf, hname, rfl⟩
    exact ⟨i, h.fsFind_eq_some.2 ⟨f, hf, hname⟩, hload i f hf⟩

theorem fsMap_eq_none (h : Table L m slots) {name : FileName} :
    fsMap L m name = none ↔ ∀ i f, slots i = some f → f.name ≠ name := by
  constructor
  · intro hnone i f hf hname
    rw [h.fsMap_eq_some.2 ⟨i, f, hf, hname, rfl⟩] at hnone
    cases hnone
  · intro hall
    rw [Option.eq_none_iff_forall_ne_some]
    intro c hc
    obtain ⟨i, f, hf, hname, -⟩ := h.fsMap_eq_some.1 hc
    exact hall i f hf hname

/-- When the slots and the contents of the other names stay, the map changes at one
    name. -/
theorem fsMap_update (h : Table L m slots) (h' : Table L m' slots') {name : FileName}
    {v : Option (List UInt8)}
    (hother : ∀ i f, f.name ≠ name → (slots' i = some f ↔ slots i = some f))
    (hcontents : ∀ i f, slots i = some f → f.name ≠ name → f.contents m' = f.contents m)
    (hv : fsMap L m' name = v) : fsMap L m' = Function.update (fsMap L m) name v := by
  funext k
  by_cases hk : k = name
  · rw [hk, Function.update_self, hv]
  · rw [Function.update_of_ne hk]
    refine Option.ext fun c => ?_
    rw [h.fsMap_eq_some, h'.fsMap_eq_some]
    constructor
    · rintro ⟨i, f, hf, rfl, rfl⟩
      have hf' := (hother i f hk).1 hf
      exact ⟨i, f, hf', rfl, (hcontents i f hf' hk).symm⟩
    · rintro ⟨i, f, hf, rfl, rfl⟩
      exact ⟨i, f, (hother i f hk).2 hf, rfl, hcontents i f hf hk⟩

/-- With the same slots and the same contents, the map is the same. -/
theorem fsMap_congr (h : Table L m slots) (h' : Table L m' slots)
    (hcontents : ∀ i f, slots i = some f → f.contents m' = f.contents m) :
    fsMap L m' = fsMap L m := by
  funext name
  refine Option.ext fun c => ?_
  rw [h.fsMap_eq_some, h'.fsMap_eq_some]
  constructor
  · rintro ⟨i, f, hf, hname, rfl⟩
    exact ⟨i, f, hf, hname, (hcontents i f hf).symm⟩
  · rintro ⟨i, f, hf, hname, rfl⟩
    exact ⟨i, f, hf, hname, hcontents i f hf⟩

/-- The table depends on the memory of the slots. -/
theorem congr (h : Table L m slots) (hm : ∀ x, L.fs ≤ x → x < L.fileCount → m' x = m x) :
    Table L m' slots where
  holds i := (h.holds i).congr fun x hx hx' => by
    obtain ⟨h₁, h₂⟩ := L.file_bounds i
    exact hm x (by omega) (by omega)
  names := h.names

/-- A slot is written, with a name that no other slot has. -/
theorem update (h : Table L m slots) {i : Fin maxFiles} {f : Option Slot}
    (hm : ∀ x, L.fs ≤ x → x < L.fileCount → x < L.file i ∨ L.file i + 76 ≤ x → m' x = m x)
    (hf : HoldsSlot L m' i f)
    (hname : ∀ g, f = some g → ∀ j g', j ≠ i → slots j = some g' → g'.name ≠ g.name) :
    Table L m' (Function.update slots i f) where
  holds j := by
    by_cases hji : j = i
    · rw [hji, Function.update_self]
      exact hf
    · rw [Function.update_of_ne hji]
      refine (h.holds j).congr fun x hx hx' => ?_
      obtain ⟨h₁, h₂⟩ := L.file_bounds j
      have hdisj := L.file_disjoint hji
      exact hm x (by omega) (by omega) (by omega)
  names j k g g' hg hg' hgg := by
    by_contra hjk
    by_cases hji : j = i
    · have hki : k ≠ i := fun hki => hjk (hji.trans hki.symm)
      rw [hji, Function.update_self] at hg
      rw [Function.update_of_ne hki] at hg'
      exact hname g hg k g' hki hg' hgg.symm
    · rw [Function.update_of_ne hji] at hg
      by_cases hki : k = i
      · rw [hki, Function.update_self] at hg'
        exact hname g' hg' j g hji hg hgg
      · rw [Function.update_of_ne hki] at hg'
        exact hjk (h.names j k g g' hg hg' hgg)

end Table

end Fru1tOs
