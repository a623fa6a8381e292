import Mathlib

/-!
# Bitmaps

Sets of numbers as bits of words of 32 bits: a bit is tested, set and cleared with masks. What
a test says after the others is what one expects of sets (`test_set`, `test_clear`).
-/

namespace Lib

/-- A bitmap: the word `i` has the bits from `32 * i` on. -/
abbrev Bitmap := ℕ → BitVec 32

namespace Bitmap

/-- The mask of a bit in its word. -/
def mask (bit : ℕ) : BitVec 32 := 1#32 <<< (bit % 32)

/-- The bitmap with the bit set. -/
def set (m : Bitmap) (bit : ℕ) : Bitmap :=
  Function.update m (bit / 32) (m (bit / 32) ||| mask bit)

/-- The bitmap with the bit cleared. -/
def clear (m : Bitmap) (bit : ℕ) : Bitmap :=
  Function.update m (bit / 32) (m (bit / 32) &&& ~~~mask bit)

/-- Whether the bit is set. -/
def test (m : Bitmap) (bit : ℕ) : Bool := m (bit / 32) &&& mask bit ≠ 0#32

theorem getLsbD_mask (bit i : ℕ) : (mask bit).getLsbD i = decide (i = bit % 32) := by
  have h := Nat.mod_lt bit (show 32 > 0 by decide)
  rw [mask, BitVec.getLsbD_shiftLeft, BitVec.getLsbD_one]
  by_cases hi : i = bit % 32
  · subst hi
    simp [h]
  · simp only [hi, decide_false]
    by_cases hlt : i < bit % 32
    · simp [hlt]
    · have : i - bit % 32 ≠ 0 := by omega
      simp [this]

/-- A test looks at one bit of one word. -/
theorem test_eq (m : Bitmap) (bit : ℕ) : m.test bit = (m (bit / 32)).getLsbD (bit % 32) := by
  have hlt := Nat.mod_lt bit (show 32 > 0 by decide)
  rw [test, Bool.eq_iff_iff, decide_eq_true_iff]
  constructor
  · intro h
    by_contra hbit
    refine h (BitVec.eq_of_getLsbD_eq fun i hi => ?_)
    rw [BitVec.getLsbD_and, getLsbD_mask, BitVec.getLsbD_zero]
    by_cases heq : i = bit % 32
    · simpa [heq] using hbit
    · simp [heq]
  · intro h hzero
    have := congrArg (·.getLsbD (bit % 32)) hzero
    simp [getLsbD_mask, h] at this

theorem test_set (m : Bitmap) (bit bit' : ℕ) :
    (m.set bit).test bit' = (m.test bit' || decide (bit' = bit)) := by
  rw [test_eq, test_eq, set, Function.update_apply]
  by_cases hword : bit' / 32 = bit / 32
  · have hiff : bit' % 32 = bit % 32 ↔ bit' = bit := by omega
    rw [if_pos hword, BitVec.getLsbD_or, getLsbD_mask, hword]
    simp only [hiff]
  · have hne : bit' ≠ bit := fun h => hword (h ▸ rfl)
    rw [if_neg hword]
    simp [hne]

theorem test_clear (m : Bitmap) (bit bit' : ℕ) :
    (m.clear bit).test bit' = (m.test bit' && decide (bit' ≠ bit)) := by
  rw [test_eq, test_eq, clear, Function.update_apply]
  by_cases hword : bit' / 32 = bit / 32
  · have hlt := Nat.mod_lt bit' (show 32 > 0 by decide)
    have hiff : bit' % 32 = bit % 32 ↔ bit' = bit := by omega
    rw [if_pos hword, BitVec.getLsbD_and, BitVec.getLsbD_not, getLsbD_mask, hword]
    simp [hiff, hlt]
  · have hne : bit' ≠ bit := fun h => hword (h ▸ rfl)
    rw [if_neg hword]
    simp [hne]

end Bitmap

end Lib
