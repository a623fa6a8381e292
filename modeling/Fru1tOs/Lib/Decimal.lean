import Mathlib

/-!
# Decimal numerals

Numbers as strings of decimal digits, the most significant one first. `readNat` is the number that a
string of digits stands for, and a string is *the* numeral of a number (`IsNumeral`) if it is not
empty, has only digits, reads as the number, and starts with a zero only if it is `0`. The numeral
of an integer has a minus sign in front exactly if the number is negative (`IsIntNumeral`).

A number is written from both ends: a first digit is put in front of the rest, which is padded with
zeros to a given length (`readNat_cons`), or a last digit behind it (`readNat_concat`). It has one
numeral, which can be computed (`IsNumeral.eq_numeral`).
-/

namespace Lib

/-- The digit of a number below ten. -/
def digit (d : ℕ) : UInt8 := .ofNat (48 + d)

/-- A character is a decimal digit. -/
def IsDigit (c : UInt8) : Prop := 48 ≤ c ∧ c ≤ 57

instance (c : UInt8) : Decidable (IsDigit c) := inferInstanceAs (Decidable (_ ∧ _))

/-- The number of a digit. -/
def digitValue (c : UInt8) : ℕ := c.toNat - 48

/-- The number that a string of digits stands for. -/
def readNat (l : List UInt8) : ℕ := l.foldl (fun n c => n * 10 + digitValue c) 0

/-- The numeral of a number. -/
structure IsNumeral (l : List UInt8) (n : ℕ) : Prop where
  ne_nil : l ≠ []
  digits : ∀ c ∈ l, IsDigit c
  no_zero : l.head? = some (digit 0) → l = [digit 0]
  reads : readNat l = n

/-- The numeral of an integer. -/
def IsIntNumeral (l : List UInt8) (z : ℤ) : Prop :=
  if z < 0 then ∃ l', l = 45 :: l' ∧ IsNumeral l' z.natAbs else IsNumeral l z.natAbs

theorem toNat_digit {d : ℕ} (h : d < 10) : (digit d).toNat = 48 + d := by
  rw [digit, UInt8.toNat_ofNat']
  omega

theorem isDigit_digit {d : ℕ} (h : d < 10) : IsDigit (digit d) := by
  rw [IsDigit, UInt8.le_iff_toNat_le, UInt8.le_iff_toNat_le, toNat_digit h]
  exact ⟨Nat.le_add_right _ _, by simp only [UInt8.toNat_ofNat]; omega⟩

@[simp] theorem digitValue_digit {d : ℕ} (h : d < 10) : digitValue (digit d) = d := by
  rw [digitValue, toNat_digit h, Nat.add_sub_cancel_left]

theorem digit_eq_zero_iff {d : ℕ} (h : d < 10) : digit d = digit 0 ↔ d = 0 := by
  rw [← UInt8.toNat_inj, toNat_digit h, toNat_digit (by decide), Nat.add_left_cancel_iff]

@[simp] theorem readNat_nil : readNat [] = 0 := rfl

/-- A last digit. -/
theorem readNat_concat (l : List UInt8) (c : UInt8) :
    readNat (l ++ [c]) = readNat l * 10 + digitValue c := by
  rw [readNat, List.foldl_append]
  rfl

theorem readNat_append (l₁ l₂ : List UInt8) :
    readNat (l₁ ++ l₂) = readNat l₁ * 10 ^ l₂.length + readNat l₂ := by
  induction l₂ using List.reverseRecOn with
  | nil => simp
  | append_singleton l₂ c ih =>
    rw [← List.append_assoc, readNat_concat, readNat_concat, ih, List.length_append,
      List.length_singleton, Nat.pow_succ]
    ring

/-- A first digit. -/
theorem readNat_cons (c : UInt8) (l : List UInt8) :
    readNat (c :: l) = digitValue c * 10 ^ l.length + readNat l := by
  rw [← List.singleton_append, readNat_append]
  simp [readNat]

/-- The numeral of a natural number, as an integer. -/
theorem IsNumeral.int {l : List UInt8} {n : ℕ} (h : IsNumeral l n) : IsIntNumeral l n := by
  rw [IsIntNumeral, if_neg (by omega), Int.natAbs_natCast]
  exact h

/-! ## The numeral, computed -/

/-- The numeral of a number, from its digits in base ten. -/
def numeral (n : ℕ) : List UInt8 :=
  if n = 0 then [digit 0] else (Nat.digits 10 n).reverse.map digit

/-- The numeral of an integer. -/
def intNumeral (z : ℤ) : List UInt8 :=
  if z < 0 then 45 :: numeral z.natAbs else numeral z.natAbs

theorem digitValue_lt {c : UInt8} (h : IsDigit c) : digitValue c < 10 := by
  have := UInt8.le_iff_toNat_le.1 h.2
  simp only [UInt8.toNat_ofNat] at this
  rw [digitValue]
  omega

theorem digit_digitValue {c : UInt8} (h : IsDigit c) : digit (digitValue c) = c := by
  have := UInt8.le_iff_toNat_le.1 h.1
  simp only [UInt8.toNat_ofNat] at this
  rw [← UInt8.toNat_inj, toNat_digit (digitValue_lt h), digitValue, Nat.add_sub_cancel' this]

/-- A string of digits reads as the number with these digits. -/
theorem readNat_eq_ofDigits (l : List UInt8) :
    readNat l = Nat.ofDigits 10 (l.map digitValue).reverse := by
  induction l using List.reverseRecOn with
  | nil => rfl
  | append_singleton l c ih =>
    rw [readNat_concat, ih, List.map_append, List.reverse_append, List.map_singleton,
      List.reverse_singleton, List.singleton_append, Nat.ofDigits_cons]
    ring

/-- A number has one numeral. -/
theorem IsNumeral.eq_numeral {l : List UInt8} {n : ℕ} (h : IsNumeral l n) : l = numeral n := by
  obtain ⟨c, t, rfl⟩ := List.exists_cons_of_ne_nil h.ne_nil
  have hc := h.digits c List.mem_cons_self
  have hzero : digitValue c = 0 → c :: t = [digit 0] := fun hc' => h.no_zero <| by
    rw [List.head?_cons, ← digit_digitValue hc, hc']
  have hreads := h.reads
  rw [numeral]
  split_ifs with hn
  · rw [readNat_cons, hn, Nat.add_eq_zero_iff, Nat.mul_eq_zero] at hreads
    exact hzero (hreads.1.resolve_right (by positivity))
  · -- The digits of the number are those of the string.
    rw [← hreads, readNat_eq_ofDigits, Nat.digits_ofDigits 10 (by decide) _ ?_ ?_,
      List.reverse_reverse, List.map_map]
    · exact ((List.map_congr_left fun d hd => digit_digitValue (h.digits d hd)).trans
        (List.map_id' _)).symm
    · intro d hd
      rw [List.mem_reverse, List.mem_map] at hd
      obtain ⟨c', hc', rfl⟩ := hd
      exact digitValue_lt (h.digits c' hc')
    · intro hne hlast
      have hone := hzero (by rw [← hlast]; simp)
      rw [hone] at hreads
      exact hn hreads.symm

/-- An integer has one numeral. -/
theorem IsIntNumeral.eq_intNumeral {l : List UInt8} {z : ℤ} (h : IsIntNumeral l z) :
    l = intNumeral z := by
  rw [IsIntNumeral] at h
  rw [intNumeral]
  split_ifs at h ⊢ with hz
  · obtain ⟨l', rfl, hl'⟩ := h
    rw [hl'.eq_numeral]
  · exact h.eq_numeral

example : intNumeral (-105) = [45, 49, 48, 53] := by decide +kernel

end Lib
