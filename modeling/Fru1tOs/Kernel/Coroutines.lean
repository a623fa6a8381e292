import Fru1tOs.Kernel.Switch

/-!
# Coroutines

`switch_context` of `asm_functions.s`: it pushes `ra` and the registers `s0` to `s11` on the stack,
stores the stack pointer at `*old_sp`, takes `new_sp` for the stack pointer, and pops the registers
from there. The other registers are those that a call may change.

Threads, each with a stack of its own and a variable for its stack pointer, hand the processor over
to each other with it, in any order, and compute in between. What a thread has (`Context`) is these
registers, its stack pointer and what is on its stack above it. A switch changes none of this, not
for the thread that calls it, not for the one that it returns to, and not for the others
(`ThreadsInv.switch`): so the processor is that of an abstract machine on which each thread has a
context of its own, and a switch only changes who is current (`coroutines_refine`).
-/

namespace Fru1tOs

open Lib

/-- The registers that `switch_context` saves, in the order of their words. -/
def Reg.saved : List Reg := [ra, s0, s1, s2, s3, s4, s5, s6, s7, s8, s9, s10, s11]

theorem Reg.nodup_saved : Reg.saved.Nodup := by decide

/-- A register is set. -/
def Cpu.set (s : Cpu Reg) (r : Reg) (v : BitVec 32) : Cpu Reg :=
  { s with regs := Function.update s.regs r v }

@[simp] theorem Cpu.set_self (s : Cpu Reg) (r : Reg) (v : BitVec 32) : (Cpu.set s r v).regs r = v :=
  Function.update_self _ _ _

theorem Cpu.set_of_ne (s : Cpu Reg) {r t : Reg} (h : t ≠ r) (v : BitVec 32) :
    (Cpu.set s r v).regs t = s.regs t := Function.update_of_ne h _ _

@[simp] theorem Cpu.set_mem (s : Cpu Reg) (r : Reg) (v : BitVec 32) :
    (Cpu.set s r v).mem = s.mem := rfl

/-- The registers are pushed on the stack. -/
def pushSaved (s : Cpu Reg) : Cpu Reg :=
  (Cpu.set s .sp (s.regs .sp - 64)).exec (saves .sp 0 Reg.saved)

/-- The registers are popped from the stack. -/
def popSaved (s : Cpu Reg) : Cpu Reg :=
  let s := s.exec (loads .sp 0 Reg.saved).reverse
  Cpu.set s .sp (s.regs .sp + 64)

/-- `switch_context`, up to the return to `ra`. -/
def switchContext (s : Cpu Reg) : Cpu Reg :=
  let s := pushSaved s
  let s := s.step (.sw .sp 0 .a0)
  popSaved (Cpu.set s .sp (s.regs .a1))

section Stack

variable {s : Cpu Reg}

theorem Reg.idxOf_lt {r : Reg} (h : r ∈ Reg.saved) : Reg.saved.idxOf r < 13 :=
  List.idxOf_lt_length_iff.2 h

/-- Pushing writes the words below the stack pointer, and nothing else. -/
theorem pushSaved_spec (h : 64 ≤ (s.regs .sp).toNat) :
    ((pushSaved s).regs .sp).toNat = (s.regs .sp).toNat - 64 ∧
      (∀ r, r ≠ .sp → (pushSaved s).regs r = s.regs r) ∧
      (∀ x, x < (s.regs .sp).toNat - 64 ∨ (s.regs .sp).toNat ≤ x →
        (pushSaved s).mem x = s.mem x) ∧
      ∀ r ∈ Reg.saved, load32 (pushSaved s).mem
        ((s.regs .sp).toNat - 64 + 4 * Reg.saved.idxOf r) = (s.regs r).toNat := by
  have hlen : Reg.saved.length = 13 := rfl
  have hlt := (s.regs .sp).isLt
  have hsp : ((Cpu.set s .sp (s.regs .sp - 64)).regs .sp).toNat = (s.regs .sp).toNat - 64 := by
    rw [Cpu.set_self, BitVec.toNat_sub]
    change (2 ^ 32 - 64 + (s.regs .sp).toNat) % 2 ^ 32 = _
    omega
  have hfit : ((Cpu.set s .sp (s.regs .sp - 64)).regs .sp).toNat + 4 * (0 + Reg.saved.length) ≤
      2 ^ 32 := by
    rw [hsp, hlen]
    omega
  obtain ⟨hregs, hmem, hwords⟩ := exec_saves hfit
  rw [← pushSaved, hsp] at hmem hwords
  rw [← pushSaved] at hregs
  refine ⟨by rw [hregs, hsp], fun r hr => by rw [hregs, Cpu.set_of_ne s hr], fun x hx => ?_,
    fun r hr => ?_⟩
  · rw [hmem x (by rw [hlen]; omega), Cpu.set_mem]
  · have hne : r ≠ .sp := fun heq => absurd (heq ▸ hr) (by decide)
    have := hwords _ (List.idxOf_lt_length_iff.2 hr)
    rwa [List.getElem_idxOf, Nat.zero_add, Cpu.set_of_ne s hne] at this

/-- Popping reads the words above the stack pointer. -/
theorem popSaved_spec (h : (s.regs .sp).toNat + 64 < 2 ^ 32) :
    (popSaved s).mem = s.mem ∧ ((popSaved s).regs .sp).toNat = (s.regs .sp).toNat + 64 ∧
      ∀ r ∈ Reg.saved, (popSaved s).regs r =
        .ofNat 32 (load32 s.mem ((s.regs .sp).toNat + 4 * Reg.saved.idxOf r)) := by
  have hbase : Reg.sp ∉ Reg.saved := by decide
  obtain ⟨hmem, hrest, hwords⟩ := exec_loads_reverse (s := s) (k := 0) Reg.nodup_saved hbase
  refine ⟨hmem, ?_, fun r hr => ?_⟩
  · have h64 : (64 : BitVec 32).toNat = 64 := rfl
    rw [popSaved, Cpu.set_self, hrest _ (by decide), BitVec.toNat_add, h64, Nat.mod_eq_of_lt h]
  · have hne : r ≠ .sp := fun heq => absurd (heq ▸ hr) (by decide)
    have hidx := Reg.idxOf_lt hr
    have := hwords _ (List.idxOf_lt_length_iff.2 hr)
    rw [List.getElem_idxOf, Nat.zero_add, Cpu.address, Nat.mod_eq_of_lt (by omega)] at this
    rw [popSaved, Cpu.set_of_ne _ hne, this]

/-- What `switch_context` does, if the variable is not where the registers are pushed: they are
    there, the variable points to them, nothing else is changed, and the new ones are popped. -/
theorem switchContext_spec (hpush : 64 ≤ (s.regs .sp).toNat)
    (hvar : (s.regs .a0).toNat + 4 ≤ 2 ^ 32)
    (hapart : (s.regs .a0).toNat + 4 ≤ (s.regs .sp).toNat - 64 ∨
      (s.regs .sp).toNat ≤ (s.regs .a0).toNat)
    (hpop : (s.regs .a1).toNat + 64 < 2 ^ 32) :
    (∀ x, x < (s.regs .sp).toNat - 64 ∨ (s.regs .sp).toNat ≤ x →
      x < (s.regs .a0).toNat ∨ (s.regs .a0).toNat + 4 ≤ x →
      (switchContext s).mem x = s.mem x) ∧
    load32 (switchContext s).mem (s.regs .a0).toNat = (s.regs .sp).toNat - 64 ∧
    (∀ r ∈ Reg.saved, load32 (switchContext s).mem
      ((s.regs .sp).toNat - 64 + 4 * Reg.saved.idxOf r) = (s.regs r).toNat) ∧
    ((switchContext s).regs .sp).toNat = (s.regs .a1).toNat + 64 ∧
    ∀ r ∈ Reg.saved, (switchContext s).regs r = .ofNat 32
      (load32 (switchContext s).mem ((s.regs .a1).toNat + 4 * Reg.saved.idxOf r)) := by
  have hlt := (s.regs .sp).isLt
  obtain ⟨hsp, hregs, hmem, hwords⟩ := pushSaved_spec hpush
  have haddr : (pushSaved s).address 0 .a0 = (s.regs .a0).toNat := by
    rw [Cpu.address, hregs _ (by decide), Nat.add_zero, Nat.mod_eq_of_lt (by omega)]
  -- The variable points to the registers.
  obtain ⟨t, ht, hregs', hmem'⟩ : ∃ t, (pushSaved s).step (.sw .sp 0 .a0) = t ∧
      t.regs .a1 = s.regs .a1 ∧
      t.mem = store32 (pushSaved s).mem (s.regs .a0).toNat ((s.regs .sp).toNat - 64) := by
    refine ⟨_, rfl, ?_, ?_⟩
    · rw [Cpu.step_sw_regs, hregs .a1 (by decide)]
    · rw [Cpu.step_sw_mem, haddr, hsp]
  have hswitch : switchContext s = popSaved (Cpu.set t .sp (s.regs .a1)) := by
    rw [switchContext, ht, hregs']
  obtain ⟨hmem₁, hsp₁, hwords₁⟩ := popSaved_spec (s := Cpu.set t .sp (s.regs .a1))
    (by rwa [Cpu.set_self])
  rw [Cpu.set_self, Cpu.set_mem] at hwords₁
  rw [Cpu.set_self] at hsp₁
  rw [Cpu.set_mem] at hmem₁
  rw [hswitch, hmem₁, hmem']
  refine ⟨fun x hx hx' => ?_, ?_, fun r hr => ?_, hsp₁, fun r hr => ?_⟩
  · rw [store32_of_disjoint hx', hmem x hx]
  · exact load32_store32 (lt_of_le_of_lt (Nat.sub_le _ _) hlt)
  · have := Reg.idxOf_lt hr
    rw [load32_store32_of_disjoint (by omega), hwords r hr]
  · rw [hwords₁ r hr, hmem']

end Stack

/-! ## Threads -/


/-- The stacks of threads, from the bottom up to the top, and the variables for the stack
    pointers. -/
structure Threads (T : Type*) where
  bottom : T → ℕ
  top : T → ℕ
  var : T → ℕ
  top_lt : ∀ t, top t < 2 ^ 32
  var_lt : ∀ t, var t + 4 ≤ 2 ^ 32
  stacks_disjoint : ∀ t u, t ≠ u → top t ≤ bottom u ∨ top u ≤ bottom t
  vars_disjoint : ∀ t u, t ≠ u → var t + 4 ≤ var u ∨ var u + 4 ≤ var t
  vars_apart : ∀ t u, var t + 4 ≤ bottom u ∨ top u ≤ var t

/-- The processor, and the thread that executes. -/
structure Machine (T : Type*) where
  cpu : Cpu Reg
  current : T

/-- What happens: the current thread computes, which leaves the given registers and memory, or it
    switches to another one. -/
inductive ThreadStep (T : Type*)
  | compute (cpu : Cpu Reg)
  | switch (next : T)

/-- What a thread has: the registers that are saved, the stack pointer and what is on the stack. -/
@[ext] structure Context where
  regs : Reg → BitVec 32
  sp : ℕ
  stack : Mem

section Threads

variable {T : Type*} [DecidableEq T] (L : Threads T)

/-- The address belongs to the stack of another thread, or to a variable. -/
def Threads.Foreign (c : T) (x : ℕ) : Prop :=
  ∃ t, (t ≠ c ∧ L.bottom t ≤ x ∧ x < L.top t) ∨ (L.var t ≤ x ∧ x < L.var t + 4)

/-- There is room on the stack of a thread below the stack pointer. -/
def Threads.HasRoom (t : T) (sp : ℕ) : Prop := L.bottom t + 64 ≤ sp ∧ sp ≤ L.top t

instance (t : T) (sp : ℕ) : Decidable (L.HasRoom t sp) := inferInstanceAs (Decidable (_ ∧ _))

/-- The effect of a step. A thread switches by a call of `switch_context` with the address of its
    own variable and the contents of the other one. -/
def Machine.step (m : Machine T) : ThreadStep T → Machine T
  | .compute cpu => { m with cpu := cpu }
  | .switch next =>
    let cpu := Cpu.set m.cpu .a0 (.ofNat 32 (L.var m.current))
    let cpu := Cpu.set cpu .a1 (.ofNat 32 (load32 m.cpu.mem (L.var next)))
    ⟨switchContext cpu, next⟩

/-- The current thread leaves what belongs to the others as it is, and room on its own stack, and it
    does not switch to itself. -/
def Machine.Allows (m : Machine T) : ThreadStep T → Prop
  | .compute cpu => (∀ x, L.Foreign m.current x → cpu.mem x = m.cpu.mem x) ∧
      L.HasRoom m.current (cpu.regs .sp).toNat
  | .switch next => next ≠ m.current

/-- The effect of several steps. -/
def Machine.run (m : Machine T) (as : List (ThreadStep T)) : Machine T :=
  as.foldl (Machine.step L) m

/-- Every step is allowed when it is taken. -/
def Machine.AllowsAll (m : Machine T) : List (ThreadStep T) → Prop
  | [] => True
  | a :: as => m.Allows L a ∧ (m.step L a).AllowsAll as

/-- What is on a stack above the stack pointer. -/
def stackAbove (m : Mem) (sp top : ℕ) : Mem := fun x => if sp ≤ x ∧ x < top then m x else 0

/-- The context of a thread that executes. -/
def Cpu.context (s : Cpu Reg) (top : ℕ) : Context where
  regs r := if r ∈ Reg.saved then s.regs r else 0
  sp := (s.regs .sp).toNat
  stack := stackAbove s.mem (s.regs .sp).toNat top

/-- The context that is saved on a stack, the last word pushed being at `sp`. -/
def savedContext (m : Mem) (sp top : ℕ) : Context where
  regs r := if r ∈ Reg.saved then .ofNat 32 (load32 m (sp + 4 * Reg.saved.idxOf r)) else 0
  sp := sp + 64
  stack := stackAbove m (sp + 64) top

/-- The context of a thread. -/
def Machine.context (m : Machine T) (t : T) : Context :=
  if t = m.current then Cpu.context m.cpu (L.top t)
  else savedContext m.cpu.mem (load32 m.cpu.mem (L.var t)) (L.top t)

/-! ## The abstract machine -/

/-- The threads with a context each, and the one that executes. -/
structure Coroutines (T : Type*) where
  context : T → Context
  current : T

/-- The effect of a step: a thread that computes changes its own context, and a switch changes
    none. -/
def Coroutines.step (s : Coroutines T) : ThreadStep T → Coroutines T
  | .compute cpu =>
    { s with context := Function.update s.context s.current (Cpu.context cpu (L.top s.current)) }
  | .switch next => { s with current := next }

/-- The contexts on a machine, and the thread that executes. -/
def Machine.coroutines (m : Machine T) : Coroutines T := ⟨m.context L, m.current⟩

/-- The invariant: there is room on every stack. -/
structure ThreadsInv (m : Machine T) : Prop where
  current : L.HasRoom m.current (m.cpu.regs .sp).toNat
  others : ∀ t, t ≠ m.current → L.HasRoom t (load32 m.cpu.mem (L.var t) + 64)

/-! ## Steps -/

variable {L}

theorem stackAbove_congr {m m' : Mem} {sp top : ℕ} (h : ∀ x, sp ≤ x → x < top → m' x = m x) :
    stackAbove m' sp top = stackAbove m sp top := by
  funext x
  rw [stackAbove, stackAbove]
  split_ifs with hx
  · exact h x hx.1 hx.2
  · rfl

theorem savedContext_congr {m m' : Mem} {sp top : ℕ} (htop : sp + 64 ≤ top)
    (h : ∀ x, sp ≤ x → x < top → m' x = m x) :
    savedContext m' sp top = savedContext m sp top := by
  refine Context.ext (funext fun r => ?_) rfl
    (stackAbove_congr fun x hx hx' => h x (by omega) hx')
  simp only [savedContext]
  split_ifs with hr
  · have := Reg.idxOf_lt hr
    rw [load32_congr fun x hx hx' => h x (by omega) (by omega)]
  · rfl

/-- The thread that executes has its context in the processor. -/
theorem Machine.context_current (m : Machine T) :
    m.context L m.current = Cpu.context m.cpu (L.top m.current) := if_pos rfl

/-- Another one has it on its stack. -/
theorem Machine.context_of_ne (m : Machine T) {t : T} (h : t ≠ m.current) :
    m.context L t = savedContext m.cpu.mem (load32 m.cpu.mem (L.var t)) (L.top t) := if_neg h

/-- What a thread other than the current one has depends on its variable and its stack. -/
theorem ThreadsInv.context_congr {m : Machine T} (h : ThreadsInv L m) {t : T} (ht : t ≠ m.current)
    {mem : Mem} (hvar : ∀ x, L.var t ≤ x → x < L.var t + 4 → mem x = m.cpu.mem x)
    (hstack : ∀ x, L.bottom t ≤ x → x < L.top t → mem x = m.cpu.mem x) :
    load32 mem (L.var t) = load32 m.cpu.mem (L.var t) ∧
      savedContext mem (load32 mem (L.var t)) (L.top t) = m.context L t := by
  have hload : load32 mem (L.var t) = load32 m.cpu.mem (L.var t) := load32_congr hvar
  obtain ⟨hbottom, htop⟩ := h.others t ht
  rw [hload, m.context_of_ne ht]
  exact ⟨rfl, savedContext_congr htop fun x hx hx' => hstack x (by omega) hx'⟩

variable {m : Machine T}

/-- A computation changes the context of the thread that makes it. -/
theorem ThreadsInv.compute (h : ThreadsInv L m) {cpu : Cpu Reg}
    (ha : m.Allows L (.compute cpu)) : ThreadsInv L (m.step L (.compute cpu)) ∧
      (m.step L (.compute cpu)).coroutines L = (m.coroutines L).step L (.compute cpu) := by
  obtain ⟨hforeign, hroom⟩ := ha
  have hothers := fun t (ht : t ≠ m.current) => h.context_congr ht
    (fun x hx hx' => hforeign x ⟨t, .inr ⟨hx, hx'⟩⟩)
    fun x hx hx' => hforeign x ⟨t, .inl ⟨ht, hx, hx'⟩⟩
  refine ⟨⟨hroom, fun t ht => ?_⟩, ?_⟩
  · rw [Machine.step, (hothers t ht).1]
    exact h.others t ht
  · simp only [Machine.coroutines, Coroutines.step, Machine.step, Coroutines.mk.injEq, and_true]
    funext t
    by_cases ht : t = m.current
    · subst ht
      rw [Function.update_self]
      exact Machine.context_current ⟨cpu, m.current⟩
    · rw [Function.update_of_ne ht, ← (hothers t ht).2]
      exact Machine.context_of_ne ⟨cpu, m.current⟩ ht

/-- A switch leaves the contexts of all threads as they are. -/
theorem ThreadsInv.switch (h : ThreadsInv L m) {next : T} (hnext : next ≠ m.current) :
    ThreadsInv L (m.step L (.switch next)) ∧
      (m.step L (.switch next)).coroutines L = (m.coroutines L).step L (.switch next) := by
  obtain ⟨hbottom, htop⟩ := h.current
  obtain ⟨hbottom', htop'⟩ := h.others next hnext
  have hlt := L.top_lt next
  have hvar := L.var_lt m.current
  set c := m.current
  obtain ⟨cpu, hcpu⟩ : ∃ cpu, Cpu.set (Cpu.set m.cpu .a0 (.ofNat 32 (L.var c))) .a1
      (.ofNat 32 (load32 m.cpu.mem (L.var next))) = cpu := ⟨_, rfl⟩
  have ha0 : (cpu.regs .a0).toNat = L.var c := by
    rw [← hcpu, Cpu.set_of_ne _ (by decide), Cpu.set_self, BitVec.toNat_ofNat,
      Nat.mod_eq_of_lt (by omega)]
  have ha1 : (cpu.regs .a1).toNat = load32 m.cpu.mem (L.var next) := by
    rw [← hcpu, Cpu.set_self, toNat_ofNat_load32]
  have hregs : ∀ r, r ≠ .a0 → r ≠ .a1 → cpu.regs r = m.cpu.regs r := fun r h₀ h₁ => by
    rw [← hcpu, Cpu.set_of_ne _ h₁, Cpu.set_of_ne _ h₀]
  have hmem₀ : cpu.mem = m.cpu.mem := by rw [← hcpu, Cpu.set_mem, Cpu.set_mem]
  have hsp := hregs .sp (by decide) (by decide)
  have hapart := L.vars_apart c c
  obtain ⟨hmem, hload, hpushed, hsp', hpopped⟩ := switchContext_spec (s := cpu)
    (by rw [hsp]; omega) (by omega) (by rw [ha0, hsp]; omega) (by rw [ha1]; omega)
  have hstep : m.step L (.switch next) = ⟨switchContext cpu, next⟩ := by rw [← hcpu]; rfl
  rw [hstep]
  generalize switchContext cpu = cpu' at hmem hload hpushed hsp' hpopped ⊢
  rw [ha0, hsp] at hmem hload
  rw [hsp] at hpushed
  rw [ha1] at hsp' hpopped
  rw [hmem₀] at hmem
  -- The stacks and the variables of the other threads are not written.
  have hothers : ∀ t, t ≠ c → load32 cpu'.mem (L.var t) = load32 m.cpu.mem (L.var t) ∧
      savedContext cpu'.mem (load32 cpu'.mem (L.var t)) (L.top t) = m.context L t := fun t ht => by
    have hstacks := L.stacks_disjoint t c ht
    have hvars := L.vars_disjoint t c ht
    have hapart₁ := L.vars_apart c t
    have hapart₂ := L.vars_apart t c
    exact h.context_congr ht (fun x hx hx' => hmem x (by omega) (by omega))
      fun x hx hx' => hmem x (by omega) (by omega)
  refine ⟨⟨?_, fun t ht => ?_⟩, ?_⟩
  · rw [hsp']
    exact h.others next hnext
  · simp only at ht ⊢
    by_cases htc : t = c
    · subst htc
      rw [hload, Nat.sub_add_cancel (by omega)]
      exact h.current
    · rw [(hothers t htc).1]
      exact h.others t htc
  · simp only [Machine.coroutines, Coroutines.step, Coroutines.mk.injEq, and_true]
    funext t
    by_cases ht : t = next
    · -- What was popped is what was on the stack.
      subst ht
      rw [← (hothers t hnext).2, (hothers t hnext).1]
      refine (Machine.context_current ⟨cpu', t⟩).trans (Context.ext (funext fun r => ?_) hsp' ?_)
      · simp only [Cpu.context, savedContext]
        split_ifs with hr
        · exact hpopped r hr
        · rfl
      · simp only [Cpu.context, savedContext, hsp']
    · rw [Machine.context_of_ne ⟨cpu', next⟩ ht]
      by_cases htc : t = c
      · -- What was pushed is what was in the processor.
        subst htc
        rw [m.context_current]
        simp only [hload]
        refine Context.ext (funext fun r => ?_) (Nat.sub_add_cancel (by omega)) ?_
        · simp only [Cpu.context, savedContext]
          split_ifs with hr
          · rw [hpushed r hr, BitVec.ofNat_toNat, BitVec.setWidth_eq]
            exact hregs r (fun heq => absurd (heq ▸ hr) (by decide))
              fun heq => absurd (heq ▸ hr) (by decide)
          · rfl
        · have hcancel : (m.cpu.regs .sp).toNat - 64 + 64 = (m.cpu.regs .sp).toNat := by omega
          simp only [Cpu.context, savedContext, hcancel]
          exact stackAbove_congr fun x hx hx' => hmem x (by omega) (by omega)
      · exact (hothers t htc).2

/-- Steps that do not make a thread the current one leave its context as it is. -/
theorem Coroutines.context_of_not_switched {as : List (ThreadStep T)} {t : T}
    {s : Coroutines T} (ht : t ≠ s.current) (has : ∀ a ∈ as, a ≠ .switch t) :
    (as.foldl (Coroutines.step L) s).context t = s.context t := by
  induction as generalizing s with
  | nil => rfl
  | cons a as ih =>
    have ha := has a List.mem_cons_self
    have has' : ∀ b ∈ as, b ≠ .switch t := fun b hb => has b (List.mem_cons_of_mem a hb)
    rw [List.foldl_cons]
    cases a with
    | compute cpu =>
      rw [ih (s := s.step L (.compute cpu)) ht has']
      exact Function.update_of_ne ht _ _
    | switch next =>
      exact ih (s := s.step L (.switch next)) (fun heq => ha (heq ▸ rfl)) has'

/-- On any run of threads that leave to each other what is theirs, each one has its context to
    itself: what the steps do to the contexts on the machine is what they do to those of the
    abstract one, and a thread goes on with the context that it had when it switched. -/
theorem coroutines_refine {as : List (ThreadStep T)} (h : ThreadsInv L m)
    (has : m.AllowsAll L as) :
    (m.run L as).coroutines L = as.foldl (Coroutines.step L) (m.coroutines L) ∧
      ∀ t, t ≠ m.current → (∀ a ∈ as, a ≠ .switch t) →
        (m.run L as).context L t = m.context L t := by
  have hrefine : (m.run L as).coroutines L = as.foldl (Coroutines.step L) (m.coroutines L) := by
    induction as generalizing m with
    | nil => rfl
    | cons a as ih =>
      obtain ⟨ha, has⟩ := has
      have hstep : ThreadsInv L (m.step L a) ∧
          (m.step L a).coroutines L = (m.coroutines L).step L a := by
        cases a with
        | compute cpu => exact h.compute ha
        | switch next => exact h.switch ha
      rw [List.foldl_cons, ← hstep.2]
      exact ih hstep.1 has
  refine ⟨hrefine, fun t ht hswitch => ?_⟩
  exact (congrFun (congrArg Coroutines.context hrefine) t).trans
    (Coroutines.context_of_not_switched (s := m.coroutines L) ht hswitch)

end Threads

/-- Two stacks. -/
def twoThreads : Threads Bool where
  bottom t := if t then 0x3000 else 0x1000
  top t := if t then 0x4000 else 0x2000
  var t := if t then 0x104 else 0x100
  top_lt := by decide
  var_lt := by decide
  stacks_disjoint := by decide
  vars_disjoint := by decide
  vars_apart := by decide

/-- One thread executes, and the other one has its registers on its stack. -/
def twoThreadsStart : Machine Bool :=
  ⟨⟨fun _ => 0x1800, store32 (fun _ => 0) 0x104 0x3800⟩, false⟩

/-- A computation, a switch and a switch back. -/
theorem coroutines_refine_two :
    let as := [.compute twoThreadsStart.cpu, .switch true, .switch false]
    (twoThreadsStart.run twoThreads as).coroutines twoThreads =
        as.foldl (Coroutines.step twoThreads) (twoThreadsStart.coroutines twoThreads) ∧
      ∀ t, t ≠ twoThreadsStart.current → (∀ a ∈ as, a ≠ .switch t) →
        (twoThreadsStart.run twoThreads as).context twoThreads t =
          twoThreadsStart.context twoThreads t := by
  refine coroutines_refine ⟨by decide, fun t ht => ?_⟩
    ⟨⟨fun _ _ => rfl, by decide⟩, ?_, ?_, trivial⟩
  · cases t with
    | false => exact absurd rfl ht
    | true =>
      rw [show load32 twoThreadsStart.cpu.mem (twoThreads.var true) = 0x3800 from
        load32_store32 (by decide)]
      decide
  · exact fun heq => Bool.noConfusion heq
  · exact fun heq => Bool.noConfusion heq

end Fru1tOs
