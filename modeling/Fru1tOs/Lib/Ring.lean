import Mathlib

/-!
# Circular buffers

An array of `n` cells in which a queue is stored, from a position on and past the end back to the
start (`ring`): the cell of the `j`-th element is the one of the position `r + j` modulo `n`. A
value stored behind the last element is the new last one (`ring_update`), as long as there are fewer
than `n` elements, and the queue without its first element starts a position later
(`ring_succ_left`).
-/

namespace Lib

variable {α : Type*} {n : ℕ} [NeZero n]

/-- The `k` elements from the position `r` on. -/
def ring (buf : Fin n → α) (r k : ℕ) : List α :=
  (List.range k).map fun j => buf (Fin.ofNat n (r + j))

variable {buf : Fin n → α} {r k : ℕ}

@[simp] theorem ring_zero (buf : Fin n → α) (r : ℕ) : ring buf r 0 = [] := rfl

@[simp] theorem length_ring (buf : Fin n → α) (r k : ℕ) : (ring buf r k).length = k := by
  simp [ring]

/-- The positions count modulo the size. -/
theorem ring_mod (buf : Fin n → α) (r k : ℕ) : ring buf (r % n) k = ring buf r k := by
  refine List.map_congr_left fun j _ => congrArg buf (Fin.ext ?_)
  simp [Nat.add_mod]

/-- The first element, and the others. -/
theorem ring_succ_left (buf : Fin n → α) (r k : ℕ) :
    ring buf r (k + 1) = buf (Fin.ofNat n r) :: ring buf (r + 1) k := by
  rw [ring, List.range_succ_eq_map, List.map_cons, List.map_map]
  refine congrArg₂ List.cons rfl (List.map_congr_left fun j _ => ?_)
  rw [Function.comp_apply, Nat.succ_eq_add_one, Nat.add_assoc, Nat.add_comm 1 j]

/-- The last element, and the others. -/
theorem ring_succ_right (buf : Fin n → α) (r k : ℕ) :
    ring buf r (k + 1) = ring buf r k ++ [buf (Fin.ofNat n (r + k))] := by
  rw [ring, List.range_succ, List.map_append, List.map_singleton]
  rfl

/-- A value stored behind the last element. -/
theorem ring_update (buf : Fin n → α) (r : ℕ) (hk : k < n) (c : α) :
    ring (Function.update buf (Fin.ofNat n (r + k)) c) r (k + 1) = ring buf r k ++ [c] := by
  rw [ring_succ_right, Function.update_self]
  refine congrArg (· ++ [c]) (List.map_congr_left fun j hj => Function.update_of_ne ?_ _ _)
  -- Two positions that are less than `n` apart are of different cells.
  have hjk : j < k := List.mem_range.1 hj
  intro heq
  have hmod : j ≡ k [MOD n] := Nat.ModEq.add_left_cancel' r (congrArg Fin.val heq)
  exact hjk.ne (hmod.eq_of_lt_of_lt (hjk.trans hk) hk)

end Lib
