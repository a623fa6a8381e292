import Fru1tOs.Kernel.Coroutines
import Fru1tOs.Kernel.Input

/-!
# Traps

A trap that is taken to `kernel_entry` of `asm_functions.s`: the registers are pushed on the stack
of the code that was interrupted, `handle_trap` of `kernel.c` is called, the registers are popped,
and `sret` goes on at `sepc`. `handle_trap` moves a character of the UART to the input buffer on an
external interrupt, and on a system call, for which `handle_syscall` does nothing, it sets `sepc`
behind the instruction; on any other trap it does not return. What it prints then is left out.

The compiled code of `handle_trap` may change registers, and memory in its frame below the stack
pointer, as the calling convention lets it (`KeepsStack`), depending on all that it can see. The
variables of the console are not in this memory. No trap is taken before `sret`: the interrupts are
masked until then.

A trap leaves all registers as they are, and all memory that is not in the frames below the stack
pointer (`popFrame_spec`). After an external interrupt the same instruction is next
(`trap_external`), and after a system call the next one (`trap_ecall`).
-/

namespace Fru1tOs

open Lib

/-- The processor with the registers for traps, and the console. -/
structure Hart where
  cpu : Cpu Reg
  pc : BitVec 32
  scause : BitVec 32
  sepc : BitVec 32
  sscratch : BitVec 32
  console : Console

/-- `SCAUSE_ECALL`. -/
abbrev scauseEcall : BitVec 32 := 8

/-- `SCAUSE_INTERRUPT`. -/
abbrev scauseInterrupt : BitVec 32 := 0x80000000

/-- `SCAUSE_EXTERNAL_INTERRUPT`. -/
abbrev scauseExternalInterrupt : BitVec 32 := 9

/-- `handle_syscall`. -/
def handleSyscall (s : Hart) : Hart := s

/-- `handle_trap`, if it returns. -/
def handleTrap (s : Hart) : Option Hart :=
  let userPc := s.sepc
  if s.scause &&& scauseInterrupt ≠ 0 then
    let interruptType := s.scause &&& 0x7fffffff
    if interruptType = scauseExternalInterrupt then
      some { s with console := handleUartInterrupt s.console, sepc := userPc }
    else none
  else if s.scause = scauseEcall then
    let s := handleSyscall s
    some { s with sepc := userPc + 4 }
  else none

/-- The first part of `kernel_entry`: the registers are pushed on the stack, `t0` passing on the
    stack pointer. -/
def pushFrame (s : Cpu Reg) : Cpu Reg :=
  let sscratch := s.regs .sp
  let s := Cpu.set s .sp (s.regs .sp - 124)
  let s := s.exec (saves .sp 0 Reg.all.dropLast)
  let s := Cpu.set s .t0 sscratch
  s.step (.sw .t0 (4 * 30) .sp)

/-- `kernel_entry` up to the call of `handle_trap`. -/
def beforeHandler (s : Hart) : Hart :=
  let s := { s with sscratch := s.cpu.regs .sp, cpu := pushFrame s.cpu }
  { s with cpu := Cpu.set s.cpu .a0 (s.cpu.regs .sp) }

/-- `kernel_entry`, with the registers and the memory that the compiled code of `handle_trap`
    leaves. -/
def kernelEntry (compiled : Hart → Cpu Reg) (s : Hart) : Option Hart := do
  let s := beforeHandler s
  let s ← handleTrap { s with cpu := compiled s }
  return { s with cpu := s.cpu.exec (loads .sp 0 Reg.all), pc := s.sepc }

/-- A trap is taken. -/
def Hart.trap (compiled : Hart → Cpu Reg) (s : Hart) (cause : BitVec 32) : Option Hart :=
  kernelEntry compiled { s with scause := cause, sepc := s.pc }

/-- Where there is room for its frame, the code keeps the stack pointer, and the memory but for the
    frame. -/
structure KeepsStack (depth : ℕ) (compiled : Hart → Cpu Reg) : Prop where
  sp : ∀ s, depth ≤ (s.cpu.regs .sp).toNat → (compiled s).regs .sp = s.cpu.regs .sp
  mem : ∀ s, depth ≤ (s.cpu.regs .sp).toNat → ∀ x,
    x < (s.cpu.regs .sp).toNat - depth ∨ (s.cpu.regs .sp).toNat ≤ x →
      (compiled s).mem x = s.cpu.mem x

/-- The registers are as they were, and the memory but for a window below the stack pointer. -/
structure Restores (window : ℕ) (s s' : Cpu Reg) : Prop where
  regs : s'.regs = s.regs
  mem : ∀ x, x < (s.regs .sp).toNat - window ∨ (s.regs .sp).toNat ≤ x → s'.mem x = s.mem x

/-! ## One trap -/

section Trap

variable {s : Cpu Reg}

/-- Pushing the registers writes them below the stack pointer, and nothing else. -/
theorem pushFrame_spec (h : 124 ≤ (s.regs .sp).toNat) :
    ((pushFrame s).regs .sp).toNat = (s.regs .sp).toNat - 124 ∧
      (∀ x, x < (s.regs .sp).toNat - 124 ∨ (s.regs .sp).toNat ≤ x →
        (pushFrame s).mem x = s.mem x) ∧
      ∀ r, load32 (pushFrame s).mem ((s.regs .sp).toNat - 124 + 4 * r.slot) =
        (s.regs r).toNat := by
  have hlen : Reg.all.dropLast.length = 30 := rfl
  have hlt := (s.regs .sp).isLt
  obtain ⟨p, hp⟩ : ∃ p, Cpu.set s .sp (s.regs .sp - 124) = p := ⟨_, rfl⟩
  have hsp : (p.regs .sp).toNat = (s.regs .sp).toNat - 124 := by
    rw [← hp, Cpu.set_self, BitVec.toNat_sub]
    change (2 ^ 32 - 124 + (s.regs .sp).toNat) % 2 ^ 32 = _
    omega
  have hmem₀ : p.mem = s.mem := by rw [← hp, Cpu.set_mem]
  have hfit : (p.regs .sp).toNat + 4 * (0 + Reg.all.dropLast.length) ≤ 2 ^ 32 := by
    rw [hsp, hlen]
    omega
  obtain ⟨hregs, hmem, hwords⟩ := exec_saves hfit
  rw [hsp, hmem₀] at hmem
  rw [hsp] at hwords
  obtain ⟨q, hq⟩ : ∃ q, p.exec (saves .sp 0 Reg.all.dropLast) = q := ⟨_, rfl⟩
  rw [hq] at hregs hmem hwords
  have hpush : pushFrame s = (Cpu.set q .t0 (s.regs .sp)).step (.sw .t0 (4 * 30) .sp) := by
    rw [pushFrame, hp, hq]
  have hspq : ((Cpu.set q .t0 (s.regs .sp)).regs .sp).toNat = (s.regs .sp).toNat - 124 := by
    rw [Cpu.set_of_ne _ (by decide), hregs, hsp]
  have haddr : (Cpu.set q .t0 (s.regs .sp)).address (4 * 30) .sp =
      (s.regs .sp).toNat - 124 + 4 * 30 := by
    rw [Cpu.address, hspq, Nat.mod_eq_of_lt (by omega)]
  have hmem' : (pushFrame s).mem =
      store32 q.mem ((s.regs .sp).toNat - 124 + 4 * 30) (s.regs .sp).toNat := by
    rw [hpush, Cpu.step_sw_mem, haddr, Cpu.set_self, Cpu.set_mem]
  refine ⟨by rw [hpush, Cpu.step_sw_regs, hspq], fun x hx => ?_, fun r => ?_⟩
  · rw [hmem', store32_of_disjoint (by omega), hmem x (by rw [hlen]; omega)]
  · rw [hmem']
    by_cases hr : r = .sp
    · subst hr
      exact load32_store32 hlt
    · have hslot : r.slot < 30 := Reg.slot_lt_sp hr
      have hword := hwords r.slot (hlen ▸ hslot)
      rw [List.getElem_dropLast, Reg.getElem_of_slot _ rfl, Nat.zero_add, ← hp,
        Cpu.set_of_ne _ hr] at hword
      rw [load32_store32_of_disjoint (by omega), hword]

/-- The registers are popped as they were pushed, whatever the handler does. -/
theorem popFrame_spec {depth : ℕ} {compiled : Hart → Cpu Reg} (hc : KeepsStack depth compiled)
    (s : Hart) (h : 124 + depth ≤ (s.cpu.regs .sp).toNat) :
    Restores (124 + depth) s.cpu
      ((compiled (beforeHandler s)).exec (loads .sp 0 Reg.all)) := by
  obtain ⟨hsp, hmem, hwords⟩ := pushFrame_spec (s := s.cpu) (by omega)
  have hlt := (s.cpu.regs .sp).isLt
  obtain ⟨a, ha⟩ : ∃ a, beforeHandler s = a := ⟨_, rfl⟩
  have hcpu : a.cpu = Cpu.set (pushFrame s.cpu) .a0 ((pushFrame s.cpu).regs .sp) := by
    rw [← ha]
    rfl
  have hspa : (a.cpu.regs .sp).toNat = (s.cpu.regs .sp).toNat - 124 := by
    rw [hcpu, Cpu.set_of_ne _ (by decide), hsp]
  have hmema : a.cpu.mem = (pushFrame s.cpu).mem := by rw [hcpu, Cpu.set_mem]
  have hroom : depth ≤ (a.cpu.regs .sp).toNat := by omega
  have hkeeps := hc.mem a hroom
  rw [hspa, hmema] at hkeeps
  rw [ha]
  refine ⟨funext fun r => BitVec.eq_of_toNat_eq ?_, fun x hx => ?_⟩
  · have hslot := r.slot_lt
    have hlen : Reg.all.length = 31 := rfl
    rw [kernelEntry_restores, Cpu.address, hc.sp a hroom, hspa, Nat.mod_eq_of_lt (by omega),
      load32_congr fun x hx _ => hkeeps x (.inr (by omega)), hwords r]
  · rw [(Cpu.exec_loads_all _ .sp).1, hkeeps x (by omega), hmem x (by omega)]

/-- The interrupt bit is the highest one. -/
theorem and_scauseInterrupt (cause : BitVec 32) :
    cause &&& scauseInterrupt ≠ 0 ↔ 2 ^ 31 ≤ cause.toNat := by
  have hlt := cause.isLt
  have hand : (cause &&& scauseInterrupt).toNat = cause.toNat / 2 ^ 31 * 2 ^ 31 := by
    rw [BitVec.toNat_and]
    refine (Nat.and_two_pow cause.toNat 31).trans ?_
    rw [Nat.testBit_eq_decide_div_mod_eq, Nat.mod_eq_of_lt (by omega)]
    have : cause.toNat / 2 ^ 31 = 0 ∨ cause.toNat / 2 ^ 31 = 1 := by omega
    rcases this with h | h <;> rw [h] <;> rfl
  have hzero : (0 : BitVec 32).toNat = 0 := rfl
  rw [Ne, ← BitVec.toNat_inj, hand, hzero]
  omega

/-- The cause of an external interrupt, by its bits. -/
theorem eq_externalInterrupt_iff (cause : BitVec 32) :
    (cause &&& scauseInterrupt ≠ 0 ∧ cause &&& 0x7fffffff = scauseExternalInterrupt) ↔
      cause = scauseInterrupt ||| scauseExternalInterrupt := by
  have hlt := cause.isLt
  have hand : (cause &&& 0x7fffffff).toNat = cause.toNat % 2 ^ 31 := by
    rw [BitVec.toNat_and]
    exact Nat.and_two_pow_sub_one_eq_mod _ 31
  have hor : (scauseInterrupt ||| scauseExternalInterrupt).toNat = 2 ^ 31 + 9 := by decide
  have hnine : scauseExternalInterrupt.toNat = 9 := rfl
  rw [and_scauseInterrupt, ← BitVec.toNat_inj, hand, ← BitVec.toNat_inj, hor, hnine]
  omega

theorem handleTrap_external {s : Hart}
    (h : s.scause = scauseInterrupt ||| scauseExternalInterrupt) :
    handleTrap s = some { s with console := handleUartInterrupt s.console } := by
  obtain ⟨hbit, htype⟩ := (eq_externalInterrupt_iff _).2 h
  rw [handleTrap, if_pos hbit, if_pos htype]

theorem handleTrap_ecall {s : Hart} (h : s.scause = scauseEcall) :
    handleTrap s = some { s with sepc := s.sepc + 4 } := by
  rw [handleTrap, if_neg (by rw [h]; decide), if_pos h, handleSyscall]

theorem handleTrap_other {s : Hart} (hext : s.scause ≠ scauseInterrupt ||| scauseExternalInterrupt)
    (hecall : s.scause ≠ scauseEcall) : handleTrap s = none := by
  have hbits := fun hn => hext ((eq_externalInterrupt_iff _).1 hn)
  rw [handleTrap]
  by_cases hbit : s.scause &&& scauseInterrupt ≠ 0
  · rw [if_pos hbit, if_neg fun htype => hbits ⟨hbit, htype⟩]
  · rw [if_neg hbit, if_neg hecall]

/-- After an external interrupt the same instruction is next, and the interrupt of the UART was
    handled. -/
theorem trap_external {depth : ℕ} {compiled : Hart → Cpu Reg} (hc : KeepsStack depth compiled)
    (s : Hart) (h : 124 + depth ≤ (s.cpu.regs .sp).toNat) :
    ∃ cpu, Restores (124 + depth) s.cpu cpu ∧
      s.trap compiled (scauseInterrupt ||| scauseExternalInterrupt) =
        some ⟨cpu, s.pc, scauseInterrupt ||| scauseExternalInterrupt, s.pc, s.cpu.regs .sp,
          handleUartInterrupt s.console⟩ := by
  refine ⟨_, popFrame_spec hc { s with
    scause := scauseInterrupt ||| scauseExternalInterrupt, sepc := s.pc } h, ?_⟩
  rw [Hart.trap, kernelEntry, handleTrap_external rfl]
  rfl

/-- After a system call the next instruction is. -/
theorem trap_ecall {depth : ℕ} {compiled : Hart → Cpu Reg} (hc : KeepsStack depth compiled)
    (s : Hart) (h : 124 + depth ≤ (s.cpu.regs .sp).toNat) :
    ∃ cpu, Restores (124 + depth) s.cpu cpu ∧ s.trap compiled scauseEcall =
      some ⟨cpu, s.pc + 4, scauseEcall, s.pc + 4, s.cpu.regs .sp, s.console⟩ := by
  refine ⟨_, popFrame_spec hc { s with scause := scauseEcall, sepc := s.pc } h, ?_⟩
  rw [Hart.trap, kernelEntry, handleTrap_ecall rfl]
  rfl

/-- No other trap is returned from. -/
theorem trap_other (compiled : Hart → Cpu Reg) (s : Hart) {cause : BitVec 32}
    (hext : cause ≠ scauseInterrupt ||| scauseExternalInterrupt) (hecall : cause ≠ scauseEcall) :
    s.trap compiled cause = none := by
  rw [Hart.trap, kernelEntry, handleTrap_other hext hecall]
  rfl

end Trap

end Fru1tOs
