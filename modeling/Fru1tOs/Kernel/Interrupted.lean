import Fru1tOs.Kernel.Trap
import Fru1tOs.Lib.Footprint
import Fru1tOs.Lib.Guarded

/-!
# Interrupted programs

A program that runs on the processor, with system calls, while characters arrive and the UART
interrupts it (`Hart.act`), is compared with the same program that is not interrupted (`Alone`).

A trap writes its frames below the stack pointer of the program. What is there is lost, and a
program that moves its stack pointer down finds something else than what would be there otherwise.
So a program may not read a byte that was below its stack pointer before it has written it
(`Alone.Ok`), as it may not by the calling convention. Then its registers, its program counter and
all other bytes are at the end what they would be without the interrupts, and every trap is returned
from (`traps_transparent`).

Machine code of loads, stores, computations in registers and jumps is such a program
(`machineCode`).
-/

namespace Fru1tOs

open Lib

/-- The registers and the program counter. -/
structure Control where
  regs : Reg → BitVec 32
  pc : BitVec 32

/-- What a program is at. -/
abbrev Task := Control × Mem

/-- The next instruction is passed over. -/
def Task.skip (t : Task) : Task := ({ t.1 with pc := t.1.pc + 4 }, t.2)

/-- The bytes of a window below the stack pointer. -/
def below (window : ℕ) (t : Task) : Set ℕ :=
  Set.Ico ((t.1.regs .sp).toNat - window) (t.1.regs .sp).toNat

/-- What the program is at. -/
def Hart.task (s : Hart) : Task := (⟨s.cpu.regs, s.pc⟩, s.cpu.mem)

/-- What happens: an instruction, or a system call, of the program, an external interrupt, or a
    character that arrives in the UART. -/
inductive HartAction
  | instruction
  | ecall
  | interrupt
  | arrive (c : BitVec 8)

/-- A program that is not interrupted, with the bytes in which it may differ from one that is. -/
structure Alone where
  task : Task
  scratch : Set ℕ

/-- Where a program starts. -/
def Alone.start (window : ℕ) (t : Task) : Alone := ⟨t, below window t⟩

section Actions

variable (p : Program Control ℕ UInt8) (compiled : Hart → Cpu Reg) (window : ℕ)

/-- The effect on the processor. -/
def Hart.act (s : Hart) : HartAction → Option Hart
  | .instruction =>
    let t := p.step s.task
    some { s with cpu := ⟨t.1.regs, t.2⟩, pc := t.1.pc }
  | .ecall => s.trap compiled scauseEcall
  | .interrupt => s.trap compiled (scauseInterrupt ||| scauseExternalInterrupt)
  | .arrive c => some { s with console := { s.console with uart := s.console.uart ++ [c] } }

/-- The effect on the program that is not interrupted. What it writes is not scratch any more, and
    what is below its stack pointer is. -/
def Alone.act (u : Alone) : HartAction → Alone
  | .instruction => ⟨p.step u.task, u.scratch \ p.writes u.task ∪ below window (p.step u.task)⟩
  | .ecall => { u with task := u.task.skip }
  | _ => u

/-- An instruction reads no scratch, and there is room for the frames of a trap. -/
def Alone.Ok (u : Alone) : HartAction → Prop
  | .instruction => Disjoint (p.reads u.task) u.scratch
  | .arrive _ => True
  | _ => window ≤ (u.task.1.regs .sp).toNat

/-- The effect on the console. -/
def consoleAct (s : Console) : HartAction → Console
  | .interrupt => handleUartInterrupt s
  | .arrive c => { s with uart := s.uart ++ [c] }
  | _ => s

end Actions

section Run

variable {p : Program Control ℕ UInt8} {compiled : Hart → Cpu Reg} {window depth : ℕ}

/-- After a trap, the program has something else in the window below its stack pointer. -/
theorem Restores.agree {s : Hart} {cpu : Cpu Reg} {u : Alone}
    (h : Agree u.scratch u.task s.task) (hbelow : below window u.task ⊆ u.scratch)
    (hrestores : Restores window s.cpu cpu) :
    Agree u.scratch u.task (⟨cpu.regs, s.pc⟩, cpu.mem) := by
  have hregs : s.cpu.regs = u.task.1.regs := congrArg Control.regs h.control
  refine h.trans ⟨?_, fun x hx => hrestores.mem x ?_⟩
  · rw [hrestores.regs]
    rfl
  · have hx' : x ∉ below window u.task := fun hx' => hx (hbelow hx')
    rw [below, Set.mem_Ico, ← hregs] at hx'
    omega

/-- An action, on a processor on which the program is where it would be but for the scratch. -/
theorem Hart.act_agree (hc : KeepsStack depth compiled) {s : Hart} {u : Alone}
    (h : Agree u.scratch u.task s.task) (hbelow : below (124 + depth) u.task ⊆ u.scratch)
    {a : HartAction} (hok : u.Ok p (124 + depth) a) :
    ∃ s', s.act p compiled a = some s' ∧
      Agree (u.act p (124 + depth) a).scratch (u.act p (124 + depth) a).task s'.task ∧
      below (124 + depth) (u.act p (124 + depth) a).task ⊆ (u.act p (124 + depth) a).scratch ∧
      s'.console = consoleAct s.console a := by
  have hregs : s.cpu.regs = u.task.1.regs := congrArg Control.regs h.control
  cases a with
  | instruction =>
    refine ⟨_, rfl, ?_, Set.subset_union_right, rfl⟩
    exact (p.agree_step h hok).mono Set.subset_union_left
  | ecall =>
    obtain ⟨cpu, hrestores, htrap⟩ := trap_ecall hc s (hregs ▸ hok)
    refine ⟨_, htrap, ?_, hbelow, rfl⟩
    exact (hrestores.agree h hbelow).map_control fun c => { c with pc := c.pc + 4 }
  | interrupt =>
    obtain ⟨cpu, hrestores, htrap⟩ := trap_external hc s (hregs ▸ hok)
    have hagree := hrestores.agree h hbelow
    exact ⟨_, htrap, hagree, hbelow, rfl⟩
  | arrive c => exact ⟨_, rfl, h, hbelow, rfl⟩

/-- A program that reads no scratch, in any order of its instructions and system calls, of
    interrupts and of arriving characters: every trap is returned from, and at the end the
    registers, the program counter and the memory but for the scratch are what they are without the
    interrupts. The console is what the arrivals and the interrupts make it. -/
theorem traps_transparent (hc : KeepsStack depth compiled) (s : Hart) {as : List HartAction}
    (hok : Guarded (Alone.act p (124 + depth)) (Alone.Ok p (124 + depth))
      (.start (124 + depth) s.task) as) :
    let u := as.foldl (Alone.act p (124 + depth)) (.start (124 + depth) s.task)
    ∃ s', run (fun s a => Hart.act p compiled s a) s as = some s' ∧
      s'.cpu.regs = u.task.1.regs ∧ s'.pc = u.task.1.pc ∧
      (∀ x ∉ u.scratch, s'.cpu.mem x = u.task.2 x) ∧
      s'.console = as.foldl consoleAct s.console := by
  suffices hrun : ∀ u : Alone, Agree u.scratch u.task s.task →
      below (124 + depth) u.task ⊆ u.scratch →
      Guarded (Alone.act p (124 + depth)) (Alone.Ok p (124 + depth)) u as →
      ∃ s', run (fun s a => Hart.act p compiled s a) s as = some s' ∧
        Agree (as.foldl (Alone.act p (124 + depth)) u).scratch
          (as.foldl (Alone.act p (124 + depth)) u).task s'.task ∧
        s'.console = as.foldl consoleAct s.console by
    obtain ⟨s', hs', hagree, hconsole⟩ := hrun _ (.refl _ _) (Set.Subset.refl _) hok
    exact ⟨s', hs', congrArg Control.regs hagree.control, congrArg Control.pc hagree.control,
      hagree.mem, hconsole⟩
  clear hok
  induction as generalizing s with
  | nil => exact fun u h _ _ => ⟨s, rfl, h, rfl⟩
  | cons a as ih =>
    intro u h hbelow hok
    obtain ⟨s₁, hs₁, h₁, hbelow₁, hconsole⟩ := Hart.act_agree hc h hbelow hok.1
    obtain ⟨s', hs', h', hconsole'⟩ := ih s₁ _ h₁ hbelow₁ hok.2
    refine ⟨s', ?_, h', ?_⟩
    · rw [run_cons, hs₁]
      exact hs'
    · rw [hconsole', hconsole, List.foldl_cons]

end Run

/-! ## Machine code -/

/-- An instruction: a load or a store, or one that works on registers and the program counter. -/
inductive Op
  | access (i : Instr Reg)
  | compute (f : Control → Control)

/-- The registers and the memory. -/
def Task.cpu (t : Task) : Cpu Reg := ⟨t.1.regs, t.2⟩

/-- The word at an address. -/
def word (a : ℕ) : Set ℕ := Set.Ico a (a + 4)

/-- The word that an instruction reads. -/
def Op.reads (t : Task) : Op → Set ℕ
  | .access (.lw _ off base) => word (t.cpu.address off base)
  | _ => ∅

/-- The word that an instruction writes. -/
def Op.writes (t : Task) : Op → Set ℕ
  | .access (.sw _ off base) => word (t.cpu.address off base)
  | _ => ∅

/-- The effect of an instruction. -/
def Op.step (t : Task) : Op → Task
  | .access i => (⟨(t.cpu.step i).regs, t.1.pc + 4⟩, (t.cpu.step i).mem)
  | .compute f => (f t.1, t.2)

theorem Op.frame (o : Op) (t : Task) {x : ℕ} (hx : x ∉ o.writes t) : (o.step t).2 x = t.2 x := by
  cases o with
  | compute f => rfl
  | access i =>
    cases i with
    | lw rd off base => rfl
    | sw rs off base =>
      rw [writes, word, Set.mem_Ico] at hx
      exact store32_of_disjoint (by omega)

theorem Op.writes_congr (o : Op) {s t : Task} (h : t.1 = s.1) : o.writes t = o.writes s := by
  have hregs : t.1.regs = s.1.regs := congrArg Control.regs h
  cases o with
  | compute f => rfl
  | access i =>
    cases i with
    | lw rd off base => rfl
    | sw rs off base => simp only [writes, Task.cpu, Cpu.address, hregs]

/-- An instruction depends on the registers, the program counter and what it reads. -/
theorem Op.step_congr (o : Op) {s t : Task} (h : t.1 = s.1)
    (hread : ∀ x ∈ o.reads s, t.2 x = s.2 x) :
    (o.step t).1 = (o.step s).1 ∧ ∀ x ∈ o.writes s, (o.step t).2 x = (o.step s).2 x := by
  have hregs : t.1.regs = s.1.regs := congrArg Control.regs h
  cases o with
  | compute f => exact ⟨congrArg f h, fun x hx => hx.elim⟩
  | access i =>
    cases i with
    | lw rd off base =>
      have haddr : t.cpu.address off base = s.cpu.address off base := by
        simp only [Task.cpu, Cpu.address, hregs]
      have hload : load32 t.2 (t.cpu.address off base) = load32 s.2 (s.cpu.address off base) := by
        rw [haddr]
        exact load32_congr fun x hx hx' => hread x ⟨hx, hx'⟩
      refine ⟨?_, fun x hx => hx.elim⟩
      change (⟨Function.update t.1.regs rd (.ofNat 32 (load32 t.2 (t.cpu.address off base))),
        t.1.pc + 4⟩ : Control) = _
      rw [hload, h]
      rfl
    | sw rs off base =>
      refine ⟨?_, fun x hx => ?_⟩
      · simp only [step, Cpu.step, Task.cpu, h]
      · simp only [step, Cpu.step, Task.cpu, Cpu.address, hregs]
        -- The bytes of a word that is stored do not depend on what was there.
        rw [writes, word, Set.mem_Ico] at hx
        refine eq_of_load32_eq ?_ hx.1 hx.2
        simp only [Task.cpu, Cpu.address]
        rw [load32_store32 (s.1.regs rs).isLt, load32_store32 (s.1.regs rs).isLt]

/-- Machine code, by the addresses of its instructions. -/
def machineCode (code : BitVec 32 → Op) : Program Control ℕ UInt8 where
  step t := (code t.1.pc).step t
  reads t := (code t.1.pc).reads t
  writes t := (code t.1.pc).writes t
  frame t _ hx := (code t.1.pc).frame t hx
  local_writes s t h _ := by rw [h, (code s.1.pc).writes_congr h]
  local_step s t h hread := by
    rw [h]
    exact (code s.1.pc).step_congr h hread

/-! ## An interrupted run -/

/-- A register is stored on the stack, and loaded to another one; after a system call, this one is
    stored above the stack pointer that there was at first. -/
def pushPop : BitVec 32 → Op
  | 0 => .compute fun c => ⟨Function.update c.regs .sp (c.regs .sp - 16), c.pc + 4⟩
  | 4 => .access (.sw .t0 12 .sp)
  | 8 => .access (.lw .t1 12 .sp)
  | 16 => .access (.sw .t1 20 .sp)
  | _ => .compute fun c => ⟨Function.update c.regs .sp (c.regs .sp + 16), c.pc + 4⟩

/-- A handler that uses two registers for what it finds, and its frame for two more. -/
def frameHandler (s : Hart) : Cpu Reg :=
  let frame := (s.cpu.regs .sp).toNat - 16
  { regs := Function.update (Function.update s.cpu.regs .t0 s.scause) .t1
      (.ofNat 32 s.console.inputBuf.count)
    mem := store32 (store32 s.cpu.mem (frame + 12) (s.cpu.regs .ra).toNat) (frame + 8)
      s.sepc.toNat }

theorem keepsStack_frameHandler : KeepsStack 16 frameHandler where
  sp s _ := by
    simp only [frameHandler]
    rw [Function.update_of_ne (by decide), Function.update_of_ne (by decide)]
  mem s _ x hx := by
    simp only [frameHandler]
    rw [store32_of_disjoint (by omega), store32_of_disjoint (by omega)]

/-- A processor before this code, with a character in the UART. -/
def hartStart : Hart where
  cpu := ⟨fun r => if r = .sp then 0x1000 else 7, fun _ => 0⟩
  pc := 0
  scause := 0
  sepc := 0
  sscratch := 0
  console := ⟨[65], ⟨fun _ => 0, 0, 0, 0⟩⟩

/-- The code is interrupted before and after each of its instructions. -/
theorem traps_transparent_pushPop :
    let as : List HartAction := [.interrupt, .instruction, .arrive 66, .interrupt, .instruction,
      .interrupt, .instruction, .interrupt, .ecall, .interrupt, .instruction, .interrupt,
      .instruction, .interrupt]
    ∃ s', run (fun s a => Hart.act (machineCode pushPop) frameHandler s a) hartStart as = some s' ∧
      s'.cpu.regs .t1 = 7 ∧ s'.cpu.regs .sp = 0x1000 ∧ s'.pc = 24 ∧
      load32 s'.cpu.mem 0x1004 = 7 ∧ s'.console.inputBuf.count = 2 := by
  intro as
  have hfirst : 140 ≤ 0x1000 := by decide
  have hroom : 140 ≤ 0xff0 := by decide
  have hok : Guarded (Alone.act (machineCode pushPop) 140) (Alone.Ok (machineCode pushPop) 140)
      (.start 140 hartStart.task) as := by
    refine ⟨hfirst, Set.empty_disjoint _, trivial, hroom, Set.empty_disjoint _, hroom,
      Set.disjoint_left.2 fun x hx hscratch => ?_, hroom, hroom, hroom, Set.empty_disjoint _, hroom,
      Set.empty_disjoint _, hfirst, trivial⟩
    -- What is loaded was stored.
    have hx' : 0xffc ≤ x := hx.1
    rcases hscratch with ⟨-, hnot⟩ | hbelow
    · exact hnot hx
    · exact absurd (show x < 0xff0 from hbelow.2) (by omega)
  obtain ⟨s', hs', hregs, hpc, hmem, hconsole⟩ :=
    traps_transparent keepsStack_frameHandler hartStart hok
  have hscratch : ∀ x ∈ (as.foldl (Alone.act (machineCode pushPop) 140)
      (.start 140 hartStart.task)).scratch, x < 0x1000 := by
    rintro x (⟨⟨⟨⟨⟨h, -⟩ | h, -⟩ | h, -⟩ | h, -⟩ | h, -⟩ | h)
    all_goals exact h.2.trans_le (by decide +kernel)
  refine ⟨s', hs', ?_, ?_, ?_, ?_, ?_⟩
  · rw [hregs]
    decide +kernel
  · rw [hregs]
    decide +kernel
  · rw [hpc]
    decide +kernel
  · rw [load32_congr fun x hx _ => hmem x fun hx' => by have := hscratch x hx'; omega]
    decide +kernel
  · rw [hconsole]
    decide +kernel

end Fru1tOs
