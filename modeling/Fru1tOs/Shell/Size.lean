import Fru1tOs.Files.LongNames
import Fru1tOs.Lib.Decimal
import Fru1tOs.Shell.Run

/-!
# The size of a new file

`cmd_create` reads the size with `str_to_int`, in arithmetic of 32 bits that wraps, and compares
what comes out with `MAX_FILESIZE`: it sees the number modulo `2 ^ 32` (`strToInt_eq_bmod`). A
number that is much too large may come back into the range, and then a file of another size is
created.

* `cmdCreate_size_iff`: `cmd_create` does what the number says exactly if it is below `2 ^ 32`, or
  does not come back into the range.
-/

namespace Fru1tOs

open Lib

/-- `cmd_create` calls `fs_create` with the number that the digits stand for, if a file may have
    that size, and changes nothing otherwise. -/
def CreatesSize (filename sizeStr : List UInt8) : Prop :=
  ∀ (L : FsLayout) (s : Shell), cmdCreate L s filename sizeStr =
    if 1 ≤ readNat sizeStr ∧ readNat sizeStr ≤ maxFilesize then
      (fsCreate L s.heap filename (readNat sizeStr)).map fun r => { s with heap := r.2 }
    else some s

/-- The loop of `str_to_int`, from a number on that is known modulo `2 ^ 32`. -/
theorem strToIntFrom_bmod {str : List UInt8} (h : ∀ c ∈ str, IsDigit c) (n : ℕ) :
    strToIntFrom ((n : ℤ).bmod (2 ^ 32)) str =
      ((str.foldl (fun n c => n * 10 + digitValue c) n : ℕ) : ℤ).bmod (2 ^ 32) := by
  induction str generalizing n with
  | nil => rfl
  | cons c str ih =>
    have hc : 48 ≤ c ∧ c ≤ 57 := h c List.mem_cons_self
    have hvalue : (c.toNat : ℤ) - 48 = (digitValue c : ℕ) := by
      have := UInt8.le_iff_toNat_le.1 hc.1
      rw [digitValue]
      simp only [UInt8.toNat_ofNat] at this
      omega
    have hstep : ((n : ℤ).bmod (2 ^ 32) * 10 + (c.toNat - 48)).bmod (2 ^ 32) =
        ((n * 10 + digitValue c : ℕ) : ℤ).bmod (2 ^ 32) := by
      rw [hvalue, Int.add_bmod, Int.bmod_mul_bmod, ← Int.add_bmod]
      push_cast
      rfl
    rw [strToIntFrom, if_pos hc, hstep, List.foldl_cons]
    exact ih (fun d hd => h d (List.mem_cons_of_mem _ hd)) _

/-- `str_to_int` returns the number modulo `2 ^ 32`. -/
theorem strToInt_eq_bmod {str : List UInt8} (h : ∀ c ∈ str, IsDigit c) :
    strToInt str = (readNat str : ℤ).bmod (2 ^ 32) :=
  strToIntFrom_bmod h 0

/-- What `cmd_create` does: the size is the number modulo `2 ^ 32`. -/
theorem cmdCreate_eq {sizeStr : List UInt8} (h : ∀ c ∈ sizeStr, IsDigit c) (L : FsLayout)
    (s : Shell) (filename : List UInt8) :
    cmdCreate L s filename sizeStr =
      if 1 ≤ readNat sizeStr % 2 ^ 32 ∧ readNat sizeStr % 2 ^ 32 ≤ maxFilesize then
        (fsCreate L s.heap filename (readNat sizeStr % 2 ^ 32)).map fun r => { s with heap := r.2 }
      else some s := by
  have hbmod := Int.bmod_eq_emod (readNat sizeStr : ℤ) (2 ^ 32)
  rw [cmdCreate, strToInt_eq_bmod h]
  by_cases hrange : 1 ≤ readNat sizeStr % 2 ^ 32 ∧ readNat sizeStr % 2 ^ 32 ≤ maxFilesize
  · simp only [maxFilesize] at hrange
    have hsize : (readNat sizeStr : ℤ).bmod (2 ^ 32) = (readNat sizeStr % 2 ^ 32 : ℕ) := by
      rw [hbmod, if_neg (by omega)]
      omega
    rw [if_pos hrange, hsize, if_neg (by simp only [maxFilesize]; omega), Int.toNat_natCast]
    cases fsCreate L s.heap filename (readNat sizeStr % 2 ^ 32) <;> rfl
  · rw [if_neg hrange, if_pos]
    simp only [maxFilesize] at hrange ⊢
    rw [hbmod]
    split_ifs <;> omega

/-- A layout with the table behind the heap. -/
def tableBehind : FsLayout := ⟨default, 0x80610000, by decide, by decide⟩

/-- The shell that has just started, in memory that is zero elsewhere. -/
def booted : Shell := Shell.init tableBehind ⟨fun _ => 0, 0⟩

/-- Nothing is used after `fs_init`: whatever the name is, `fs_create` makes a file of the given
    size, in the first slot. -/
theorem fsCreate_init (filename : List UInt8) {size : ℕ} (hpos : 1 ≤ size)
    (hmax : size ≤ maxFilesize) : ∃ s',
      fsCreate tableBehind booted.heap filename size = some (0, s') ∧
        load32 booted.heap.mem (tableBehind.isUsed 0) = 0 ∧
        load32 s'.mem (tableBehind.isUsed 0) = 1 ∧ load32 s'.mem (tableBehind.size 0) = size := by
  have h := shellInv_init tableBehind ⟨fun _ => 0, 0⟩
  rw [← booted] at h
  set s := booted.heap
  have hunused : ∀ i, load32 s.mem (tableBehind.isUsed i) = 0 := h.fs.table.holds
  have hexists : fsExists tableBehind s filename = 0 := by
    rw [fsExists, fsFind, List.find?_eq_none.2 fun i _ => by simp [hunused i]]
    rfl
  have hslot : createSlot tableBehind s filename size = some 0 := by
    rw [createSlot, if_neg (not_or_intro (not_lt.2 hmax) (not_not.2 hexists)),
      h.fs.table.find?_isUsed]
    rfl
  -- The name is copied behind the heap.
  have hcopy : ∀ x, tableBehind.heap ≤ x → x < tableBehind.heapEnd →
      strcpy s.mem (tableBehind.file 0) filename x = s.mem x := fun x _ hx =>
    storeBytes_of_disjoint (.inl (hx.trans_le (by decide)))
  obtain ⟨p, s₁, hk, hp⟩ := h.kmalloc_ne_null (Nat.zero_le _) hcopy (by omega) hmax
  refine ⟨{ s₁ with mem := putSlot tableBehind s₁.mem 0 p size }, ?_, hunused 0,
    load32_isUsed_putSlot _ _, ?_⟩
  · rw [(fsCreate_of_createSlot hslot).2.2, fsCreateAt, hk, Option.bind_some, if_neg hp]
    rfl
  · rw [putSlot_eq, load32_store32_of_disjoint (by decide), load32_store32_of_disjoint (by decide),
      load32_store32 (by simp only [maxFilesize] at hmax; omega)]

/-- A number that comes back into the range is not what is created. -/
theorem not_createsSize (filename : List UInt8) {sizeStr : List UInt8}
    (h : ∀ c ∈ sizeStr, IsDigit c) (hmax : maxFilesize < readNat sizeStr)
    (hback : 1 ≤ readNat sizeStr % 2 ^ 32 ∧ readNat sizeStr % 2 ^ 32 ≤ maxFilesize) :
    ¬ CreatesSize filename sizeStr := by
  intro hcreates
  obtain ⟨s', hs', hfree, hused, -⟩ := fsCreate_init filename hback.1 hback.2
  have hstate := hcreates tableBehind booted
  rw [cmdCreate_eq h, if_pos hback, hs', if_neg fun hn => (not_le.2 hmax) hn.2, Option.map_some,
    Option.some_inj] at hstate
  rw [← hstate] at hfree
  exact absurd (hused.symm.trans hfree) (by decide)

/-- `cmd_create` creates a file of the size that the digits stand for, if that is in the range, and
    nothing otherwise, exactly if the number does not come back into the range modulo `2 ^ 32`. -/
theorem cmdCreate_size_iff (filename : List UInt8) {sizeStr : List UInt8}
    (h : ∀ c ∈ sizeStr, IsDigit c) : CreatesSize filename sizeStr ↔
      readNat sizeStr < 2 ^ 32 ∨ readNat sizeStr % 2 ^ 32 = 0 ∨
        maxFilesize < readNat sizeStr % 2 ^ 32 := by
  constructor
  · intro hcreates
    by_contra hn
    simp only [not_or, not_lt] at hn
    obtain ⟨hlarge, hpos, hback⟩ := hn
    have hmax : maxFilesize < readNat sizeStr := by
      simp only [maxFilesize]
      omega
    exact not_createsSize filename h hmax ⟨Nat.one_le_iff_ne_zero.2 hpos, hback⟩ hcreates
  · intro hcond L s
    rw [cmdCreate_eq h]
    by_cases hlt : readNat sizeStr < 2 ^ 32
    · rw [Nat.mod_eq_of_lt hlt]
    · have hcond := hcond.resolve_left hlt
      rw [if_neg, if_neg] <;> simp only [maxFilesize] at hcond ⊢ <;> omega

/-- A thousand bytes, and a number of eleven digits that does not come back into the range. -/
theorem cmdCreate_size_iff_digits :
    CreatesSize (chars "notes") (chars "1000") ∧
      CreatesSize (chars "notes") (chars "98765432109") :=
  ⟨(cmdCreate_size_iff (chars "notes") (by decide +kernel)).2 (by decide +kernel),
    (cmdCreate_size_iff (chars "notes") (by decide +kernel)).2 (by decide +kernel)⟩

/-- The number is `2 ^ 32 + 1`, and a file of one byte is created. -/
theorem cmdCreate_wraps : ¬ CreatesSize (chars "a") (chars "4294967297") ∧
    ∃ s', cmdCreate tableBehind booted (chars "a") (chars "4294967297") =
        some s' ∧ load32 s'.heap.mem (tableBehind.isUsed 0) = 1 ∧
      load32 s'.heap.mem (tableBehind.size 0) = 1 := by
  have hread : readNat (chars "4294967297") = 4294967297 := by decide +kernel
  have hdigits : ∀ c ∈ chars "4294967297", IsDigit c := by decide +kernel
  refine ⟨not_createsSize _ hdigits (by rw [hread]; decide) (by rw [hread]; decide), ?_⟩
  obtain ⟨s', hs', -, hused, hsize⟩ := fsCreate_init (chars "a") (le_refl 1) (by decide)
  have hmod : 4294967297 % 2 ^ 32 = 1 := by decide
  refine ⟨{ booted with heap := s' }, ?_, hused, hsize⟩
  rw [cmdCreate_eq hdigits, hread, hmod, if_pos (by decide), hs']
  rfl

end Fru1tOs
