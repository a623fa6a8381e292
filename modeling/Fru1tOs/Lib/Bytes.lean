import Mathlib

/-!
# Byte memory

A memory of bytes with little-endian words of 32 bits. A word is a natural number;
a store keeps its last 32 bits. A word read where another one was written
(`load32_store32`), or elsewhere (`load32_store32_of_disjoint`), and sequences of
bytes.
-/

namespace Lib

/-- A memory of bytes. -/
abbrev Mem := ℕ → UInt8

/-- The word at the address `a`. -/
def load32 (m : Mem) (a : ℕ) : ℕ :=
  (m a).toNat + 256 * ((m (a + 1)).toNat + 256 * ((m (a + 2)).toNat + 256 * (m (a + 3)).toNat))

/-- The memory with the word `v` at the address `a`. -/
def store32 (m : Mem) (a v : ℕ) : Mem := fun x =>
  if x = a then .ofNat v
  else if x = a + 1 then .ofNat (v / 256)
  else if x = a + 2 then .ofNat (v / 65536)
  else if x = a + 3 then .ofNat (v / 16777216)
  else m x

/-- The memory with the bytes of `l` from the address `a` on. -/
def storeBytes (m : Mem) (a : ℕ) : List UInt8 → Mem
  | [] => m
  | b :: l => storeBytes (Function.update m a b) (a + 1) l

/-- The `n` bytes from the address `a` on. -/
def loadBytes (m : Mem) (a n : ℕ) : List UInt8 := (List.range n).map fun j => m (a + j)

variable {m m' : Mem} {a b v x : ℕ}

/-! ## Words -/

theorem load32_congr (h : ∀ x, a ≤ x → x < a + 4 → m' x = m x) : load32 m' a = load32 m a := by
  rw [load32, load32, h a (by omega) (by omega), h (a + 1) (by omega) (by omega),
    h (a + 2) (by omega) (by omega), h (a + 3) (by omega) (by omega)]

/-- A store changes the four bytes of its word. -/
theorem store32_of_disjoint (h : x < a ∨ a + 4 ≤ x) : store32 m a v x = m x := by
  rw [store32, if_neg (by omega), if_neg (by omega), if_neg (by omega), if_neg (by omega)]

theorem load32_store32 (hv : v < 2 ^ 32) : load32 (store32 m a v) a = v := by
  have h0 : store32 m a v a = .ofNat v := if_pos rfl
  have h1 : store32 m a v (a + 1) = .ofNat (v / 256) := by simp [store32]
  have h2 : store32 m a v (a + 2) = .ofNat (v / 65536) := by simp [store32]
  have h3 : store32 m a v (a + 3) = .ofNat (v / 16777216) := by simp [store32]
  rw [load32, h0, h1, h2, h3]
  simp only [UInt8.toNat_ofNat']
  omega

theorem load32_store32_of_disjoint (h : b + 4 ≤ a ∨ a + 4 ≤ b) :
    load32 (store32 m a v) b = load32 m b :=
  load32_congr fun x hx hx' => store32_of_disjoint (by omega)

/-- A word is a number of 32 bits. -/
theorem load32_lt (m : Mem) (a : ℕ) : load32 m a < 2 ^ 32 := by
  have h0 := (m a).toNat_lt
  have h1 := (m (a + 1)).toNat_lt
  have h2 := (m (a + 2)).toNat_lt
  have h3 := (m (a + 3)).toNat_lt
  rw [load32]
  omega

/-- A word determines its bytes. -/
theorem eq_of_load32_eq (h : load32 m' a = load32 m a) (hx : a ≤ x) (hx' : x < a + 4) :
    m' x = m x := by
  have h0 := (m a).toNat_lt
  have h1 := (m (a + 1)).toNat_lt
  have h2 := (m (a + 2)).toNat_lt
  have h0' := (m' a).toNat_lt
  have h1' := (m' (a + 1)).toNat_lt
  have h2' := (m' (a + 2)).toNat_lt
  rw [load32, load32] at h
  refine UInt8.toNat_inj.1 ?_
  obtain rfl | rfl | rfl | rfl : x = a ∨ x = a + 1 ∨ x = a + 2 ∨ x = a + 3 := by omega
  all_goals omega

/-- Two memories that hold the same byte still do after the same store. -/
theorem store32_congr (h : m' x = m x) : store32 m' a v x = store32 m a v x := by
  simp only [store32, h]

/-! ## Sequences of bytes -/

theorem storeBytes_of_disjoint {l : List UInt8} (h : x < a ∨ a + l.length ≤ x) :
    storeBytes m a l x = m x := by
  induction l generalizing m a with
  | nil => rfl
  | cons b l ih =>
    rw [List.length_cons] at h
    rw [storeBytes, ih (by omega), Function.update_of_ne (by omega)]

theorem storeBytes_congr {l : List UInt8} (h : m' x = m x) :
    storeBytes m' a l x = storeBytes m a l x := by
  induction l generalizing m m' a with
  | nil => exact h
  | cons b l ih =>
    refine ih ?_
    simp only [Function.update_apply, h]

theorem storeBytes_at {l : List UInt8} {j : ℕ} (hj : j < l.length) :
    storeBytes m a l (a + j) = l[j] := by
  induction l generalizing m a j with
  | nil => exact absurd hj (Nat.not_lt_zero j)
  | cons b l ih =>
    rw [storeBytes]
    cases j with
    | zero => rw [storeBytes_of_disjoint (by omega), Nat.add_zero, Function.update_self]; rfl
    | succ j =>
      have := ih (m := Function.update m a b) (a := a + 1) (j := j) (by simpa using hj)
      rw [show a + (j + 1) = a + 1 + j by omega, this]
      rfl

@[simp] theorem length_loadBytes (m : Mem) (a n : ℕ) : (loadBytes m a n).length = n := by
  simp [loadBytes]

theorem loadBytes_congr {n : ℕ} (h : ∀ x, a ≤ x → x < a + n → m' x = m x) :
    loadBytes m' a n = loadBytes m a n :=
  List.map_congr_left fun j hj => h (a + j) (by omega) (by
    have := List.mem_range.1 hj
    omega)

/-- A sequence of bytes written at the start of a longer one. -/
theorem loadBytes_storeBytes {l : List UInt8} {n : ℕ} (hn : l.length ≤ n) :
    loadBytes (storeBytes m a l) a n = l ++ (loadBytes m a n).drop l.length := by
  refine List.ext_getElem (by simp; omega) fun j h₁ h₂ => ?_
  rw [List.getElem_append]
  simp only [loadBytes, List.getElem_map, List.getElem_range, List.getElem_drop]
  split_ifs with hj
  · exact storeBytes_at hj
  · rw [storeBytes_of_disjoint (by omega)]
    congr 2
    omega

end Lib
