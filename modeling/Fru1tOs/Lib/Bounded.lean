import Mathlib

/-!
# Arrays of a fixed size

A store in an array of `n` cells has no result out of bounds (`store`). Often only the first `k`
cells are in use (`front`), and a store at `k` adds an element behind them (`front_set_succ`). The
string in an array of characters is what is before its first zero, which has to be in the array
(`cString`).
-/

namespace Lib

variable {α : Type*} {n : ℕ}

/-- A store, within bounds. -/
def store (a : Vector α n) (i : ℕ) (x : α) : Option (Vector α n) :=
  if h : i < n then some (a.set i x h) else none

/-- The first `k` cells. -/
def front (a : Vector α n) (k : ℕ) : List α := a.toList.take k

/-- The string in an array. -/
def cString (a : Vector UInt8 n) : Option (List UInt8) :=
  if 0 ∈ a.toList then some (a.toList.takeWhile (· ≠ 0)) else none

variable {a : Vector α n} {i k : ℕ} {x : α}

theorem store_of_lt (a : Vector α n) (h : i < n) (x : α) : store a i x = some (a.set i x h) :=
  dif_pos h

theorem store_of_le (a : Vector α n) (h : n ≤ i) (x : α) : store a i x = none :=
  dif_neg (not_lt.2 h)

@[simp] theorem front_zero (a : Vector α n) : front a 0 = [] := List.take_zero

theorem length_front (a : Vector α n) (h : k ≤ n) : (front a k).length = k := by
  rw [front, List.length_take, Vector.length_toList, min_eq_left h]

/-- The first one of the cells in use. -/
theorem of_front_eq_cons {l : List α} (h : front a k = x :: l) : 0 < k ∧ a[0]? = some x := by
  have hk : 0 < k := Nat.pos_of_ne_zero fun h0 => by
    rw [h0, front_zero] at h
    cases h
  have hx := congrArg (·[0]?) h
  simp only [front, List.getElem?_take_of_lt hk, List.getElem?_cons_zero] at hx
  exact ⟨hk, by simpa using hx⟩

/-- The last one of the first cells. -/
theorem front_succ (a : Vector α n) (h : k < n) : front a (k + 1) = front a k ++ [a[k]] := by
  rw [front, List.take_succ_eq_append_getElem (by rwa [Vector.length_toList])]
  rfl

/-- The last of the first cells is left out. -/
theorem front_pred (a : Vector α n) (h : k ≤ n) : front a (k - 1) = (front a k).dropLast := by
  rw [List.dropLast_eq_take, length_front a h, front, front, List.take_take,
    min_eq_left (Nat.sub_le _ _)]

/-- A store behind the first cells leaves them as they are. -/
theorem front_set_of_le (a : Vector α n) (h : i < n) (x : α) (hk : k ≤ i) :
    front (a.set i x h) k = front a k := by
  rw [front, Vector.toList_set, List.take_set_of_le hk]
  rfl

/-- A store right behind the first cells adds an element. -/
theorem front_set_succ (a : Vector α n) (h : i < n) (x : α) :
    front (a.set i x h) (i + 1) = front a i ++ [x] := by
  rw [front_succ _ h, front_set_of_le _ h x le_rfl, Vector.getElem_set_self]

/-- A string that has been terminated. -/
theorem cString_set_zero {a : Vector UInt8 n} (h : i < n) (h0 : ∀ c ∈ front a i, c ≠ 0) :
    cString (a.set i 0 h) = some (front a i) := by
  have hsplit : (a.set i 0 h).toList = front a i ++ 0 :: (a.set i 0 h).toList.drop (i + 1) := by
    have := List.take_append_drop (i + 1) (a.set i 0 h).toList
    rw [← front, front_set_succ, List.append_assoc] at this
    exact this.symm
  rw [cString, hsplit, if_pos (by simp),
    List.takeWhile_append_of_pos fun c hc => by simpa using h0 c hc,
    List.takeWhile_cons_of_neg (by simp), List.append_nil]

end Lib
