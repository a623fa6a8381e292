import Fru1tOs.Lib.Bytes

/-!
# Registers

A processor that stores registers to memory and loads them back, at offsets from a base register
(`Instr`). A list of registers is saved to the words from the base on (`saves`), and loaded from
them (`loads`).

Saving changes no register (`exec_saves`). A load changes its register, so that the loads use the
base they start with as long as they do not load the base itself, in whatever order (`exec_loads`,
`exec_loads_reverse`). If they do, those that follow use what was loaded (`exec_loads_base`).
-/

namespace Lib

variable {R : Type*} [DecidableEq R]

/-- The registers and the memory. -/
structure Cpu (R : Type*) where
  regs : R → BitVec 32
  mem : Mem

/-- A store, or a load, of a register at an offset from a base. -/
inductive Instr (R : Type*)
  | sw (rs : R) (off : ℕ) (base : R)
  | lw (rd : R) (off : ℕ) (base : R)
  deriving DecidableEq, Repr

namespace Cpu

variable {s : Cpu R}

/-- The address at an offset from a base. -/
def address (s : Cpu R) (off : ℕ) (base : R) : ℕ := ((s.regs base).toNat + off) % 2 ^ 32

/-- The effect of an instruction. -/
def step (s : Cpu R) : Instr R → Cpu R
  | .sw rs off base => { s with mem := store32 s.mem (s.address off base) (s.regs rs).toNat }
  | .lw rd off base =>
    { s with regs := Function.update s.regs rd (.ofNat 32 (load32 s.mem (s.address off base))) }

/-- The effect of a sequence of instructions. -/
def exec (s : Cpu R) (is : List (Instr R)) : Cpu R := is.foldl step s

@[simp] theorem exec_nil (s : Cpu R) : s.exec [] = s := rfl

@[simp] theorem exec_cons (s : Cpu R) (i : Instr R) (is : List (Instr R)) :
    s.exec (i :: is) = (s.step i).exec is := rfl

theorem exec_append (s : Cpu R) (is js : List (Instr R)) :
    s.exec (is ++ js) = (s.exec is).exec js := List.foldl_append

/-- A store changes no register. -/
theorem step_sw_regs (s : Cpu R) (rs : R) (off : ℕ) (base : R) :
    (s.step (.sw rs off base)).regs = s.regs := rfl

/-- A store writes the word. -/
theorem step_sw_mem (s : Cpu R) (rs : R) (off : ℕ) (base : R) :
    (s.step (.sw rs off base)).mem =
      store32 s.mem (s.address off base) (s.regs rs).toNat := rfl

/-- A load changes its register. -/
theorem step_lw_self (s : Cpu R) (rd : R) (off : ℕ) (base : R) :
    (s.step (.lw rd off base)).regs rd = .ofNat 32 (load32 s.mem (s.address off base)) :=
  Function.update_self _ _ _

/-- A load changes no other register. -/
theorem step_lw_of_ne {rd r : R} (h : r ≠ rd) (off : ℕ) (base : R) :
    (s.step (.lw rd off base)).regs r = s.regs r := Function.update_of_ne h _ _

end Cpu

/-- The stores of the registers to the words from the one numbered `k` on. -/
def saves (base : R) : ℕ → List R → List (Instr R)
  | _, [] => []
  | k, r :: rs => .sw r (4 * k) base :: saves base (k + 1) rs

/-- The loads of the registers from the words from the one numbered `k` on. -/
def loads (base : R) : ℕ → List R → List (Instr R)
  | _, [] => []
  | k, r :: rs => .lw r (4 * k) base :: loads base (k + 1) rs

omit [DecidableEq R] in
theorem loads_append (base : R) (k : ℕ) (rs ts : List R) :
    loads base k (rs ++ ts) = loads base k rs ++ loads base (k + rs.length) ts := by
  induction rs generalizing k with
  | nil => rfl
  | cons r rs ih =>
    rw [List.cons_append, loads, ih, loads, List.cons_append, List.length_cons, Nat.add_assoc,
      Nat.add_comm 1]

@[simp] theorem toNat_ofNat_load32 (m : Mem) (a : ℕ) :
    (BitVec.ofNat 32 (load32 m a)).toNat = load32 m a := by
  rw [BitVec.toNat_ofNat, Nat.mod_eq_of_lt (load32_lt m a)]

variable {s : Cpu R} {base : R} {k : ℕ} {rs : List R}

/-- Saving writes the words, and nothing else. -/
theorem exec_saves (hfit : (s.regs base).toNat + 4 * (k + rs.length) ≤ 2 ^ 32) :
    (s.exec (saves base k rs)).regs = s.regs ∧
      (∀ x, x < (s.regs base).toNat + 4 * k ∨ (s.regs base).toNat + 4 * (k + rs.length) ≤ x →
        (s.exec (saves base k rs)).mem x = s.mem x) ∧
      ∀ i (hi : i < rs.length),
        load32 (s.exec (saves base k rs)).mem ((s.regs base).toNat + 4 * (k + i)) =
          (s.regs rs[i]).toNat := by
  induction rs generalizing s k with
  | nil => exact ⟨rfl, fun x _ => rfl, fun i hi => absurd hi (Nat.not_lt_zero i)⟩
  | cons r rs ih =>
    rw [List.length_cons] at hfit
    set s₁ := s.step (.sw r (4 * k) base) with hs₁
    have hregs : s₁.regs = s.regs := rfl
    have haddr : s.address (4 * k) base = (s.regs base).toNat + 4 * k :=
      Nat.mod_eq_of_lt (by omega)
    have hmem : s₁.mem = store32 s.mem ((s.regs base).toNat + 4 * k) (s.regs r).toNat := by
      rw [← haddr]
      rfl
    obtain ⟨hregs', hrest, hwords⟩ := ih (s := s₁) (k := k + 1) (by rw [hregs]; omega)
    rw [hregs] at hregs' hrest hwords
    rw [saves, Cpu.exec_cons, ← hs₁]
    refine ⟨hregs', fun x hx => ?_, fun i hi => ?_⟩
    · rw [List.length_cons] at hx
      rw [hrest x (by omega), hmem, store32_of_disjoint (by omega)]
    · cases i with
      | zero =>
        -- The first word is not written again.
        rw [load32_congr fun x hx hx' => hrest x (.inl (by omega)), hmem]
        exact load32_store32 (s.regs r).isLt
      | succ i =>
        have := hwords i (by simpa using hi)
        rwa [show k + 1 + i = k + (i + 1) by omega] at this

/-- Loading other registers than the base. -/
theorem exec_loads (hnodup : rs.Nodup) (hbase : base ∉ rs) :
    (s.exec (loads base k rs)).mem = s.mem ∧
      (∀ r ∉ rs, (s.exec (loads base k rs)).regs r = s.regs r) ∧
      ∀ i (hi : i < rs.length), (s.exec (loads base k rs)).regs rs[i] =
        .ofNat 32 (load32 s.mem (s.address (4 * (k + i)) base)) := by
  induction rs generalizing s k with
  | nil => exact ⟨rfl, fun r _ => rfl, fun i hi => absurd hi (Nat.not_lt_zero i)⟩
  | cons r rs ih =>
    obtain ⟨hr, hnodup⟩ := List.nodup_cons.1 hnodup
    rw [List.mem_cons, not_or] at hbase
    set s₁ := s.step (.lw r (4 * k) base) with hs₁
    have hmem : s₁.mem = s.mem := rfl
    have haddr : ∀ off, s₁.address off base = s.address off base := fun off => by
      rw [Cpu.address, Cpu.address, hs₁, Cpu.step_lw_of_ne hbase.1]
    obtain ⟨hmem', hrest, hwords⟩ := ih (s := s₁) (k := k + 1) hnodup hbase.2
    rw [loads, Cpu.exec_cons, ← hs₁]
    refine ⟨hmem'.trans hmem, fun t ht => ?_, fun i hi => ?_⟩
    · rw [List.mem_cons, not_or] at ht
      rw [hrest t ht.2, hs₁, Cpu.step_lw_of_ne ht.1]
    · cases i with
      | zero =>
        rw [List.getElem_cons_zero, hrest r hr]
        exact Cpu.step_lw_self s r _ base
      | succ i =>
        rw [List.getElem_cons_succ, hwords i (by simpa using hi), haddr, hmem,
          show k + 1 + i = k + (i + 1) by omega]

/-- Loading other registers than the base, from the last one on. -/
theorem exec_loads_reverse (hnodup : rs.Nodup) (hbase : base ∉ rs) :
    (s.exec (loads base k rs).reverse).mem = s.mem ∧
      (∀ r ∉ rs, (s.exec (loads base k rs).reverse).regs r = s.regs r) ∧
      ∀ i (hi : i < rs.length), (s.exec (loads base k rs).reverse).regs rs[i] =
        .ofNat 32 (load32 s.mem (s.address (4 * (k + i)) base)) := by
  induction rs generalizing k with
  | nil => exact ⟨rfl, fun r _ => rfl, fun i hi => absurd hi (Nat.not_lt_zero i)⟩
  | cons r rs ih =>
    obtain ⟨hr, hnodup⟩ := List.nodup_cons.1 hnodup
    rw [List.mem_cons, not_or] at hbase
    obtain ⟨hmem, hrest, hwords⟩ := ih (k := k + 1) hnodup hbase.2
    rw [loads, List.reverse_cons, Cpu.exec_append, Cpu.exec_cons, Cpu.exec_nil]
    set s₁ := s.exec (loads base (k + 1) rs).reverse
    refine ⟨hmem, fun t ht => ?_, fun i hi => ?_⟩
    · rw [List.mem_cons, not_or] at ht
      rw [Cpu.step_lw_of_ne ht.1, hrest t ht.2]
    · cases i with
      | zero =>
        rw [List.getElem_cons_zero, Cpu.step_lw_self, Cpu.address, hrest base hbase.2, hmem]
        rfl
      | succ i =>
        have hi' : i < rs.length := by simpa using hi
        have hne : rs[i] ≠ r := fun heq => hr (heq ▸ List.getElem_mem hi')
        rw [List.getElem_cons_succ, Cpu.step_lw_of_ne hne, hwords i hi',
          show k + 1 + i = k + (i + 1) by omega]

/-- Loading a list in which the base is: what follows it is loaded from where the loaded base
    points. -/
theorem exec_loads_base {l₁ l₂ : List R} (hnodup : (l₁ ++ base :: l₂).Nodup) :
    let v := load32 s.mem (s.address (4 * (k + l₁.length)) base)
    let s' := s.exec (loads base k (l₁ ++ base :: l₂))
    s'.mem = s.mem ∧ s'.regs base = .ofNat 32 v ∧
      (∀ i (hi : i < l₁.length),
        s'.regs l₁[i] = .ofNat 32 (load32 s.mem (s.address (4 * (k + i)) base))) ∧
      ∀ i (hi : i < l₂.length), s'.regs l₂[i] =
        .ofNat 32 (load32 s.mem ((v + 4 * (k + l₁.length + 1 + i)) % 2 ^ 32)) := by
  intro v s'
  have hnodup' := hnodup
  rw [List.nodup_middle, List.nodup_cons, List.mem_append, not_or] at hnodup'
  obtain ⟨⟨hbase₁, hbase₂⟩, hnodup'⟩ := hnodup'
  obtain ⟨hl₁, hl₂, hdisj⟩ := List.nodup_append.1 hnodup'
  -- Up to the base, and the base.
  obtain ⟨hmem₁, hrest₁, hwords₁⟩ := exec_loads (s := s) (k := k) hl₁ hbase₁
  set s₁ := s.exec (loads base k l₁) with hs₁
  set s₂ := s₁.step (.lw base (4 * (k + l₁.length)) base) with hs₂
  have haddr : s₁.address (4 * (k + l₁.length)) base = s.address (4 * (k + l₁.length)) base := by
    rw [Cpu.address, Cpu.address, hrest₁ base hbase₁]
  have hmem₂ : s₂.mem = s.mem := hmem₁
  have hv : s₂.regs base = .ofNat 32 v := by
    rw [hs₂, Cpu.step_lw_self, haddr, hmem₁]
  have hs' : s' = s₂.exec (loads base (k + l₁.length + 1) l₂) := by
    rw [hs₂, hs₁, ← Cpu.exec_cons, ← Cpu.exec_append]
    exact congrArg s.exec (loads_append base k l₁ (base :: l₂))
  obtain ⟨hmem', hrest', hwords'⟩ := exec_loads (s := s₂) (k := k + l₁.length + 1) hl₂ hbase₂
  rw [← hs'] at hmem' hrest' hwords'
  refine ⟨hmem'.trans hmem₂, (hrest' base hbase₂).trans hv, fun i hi => ?_, fun i hi => ?_⟩
  · have hne : l₁[i] ≠ base := fun heq => hbase₁ (heq ▸ List.getElem_mem hi)
    rw [hrest' _ fun hmem => hdisj _ (List.getElem_mem hi) _ hmem rfl, hs₂,
      Cpu.step_lw_of_ne hne, hwords₁ i hi]
  · rw [hwords' i hi, hmem₂, Cpu.address, hv, toNat_ofNat_load32]

end Lib
