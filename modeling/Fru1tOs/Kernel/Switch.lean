import Fru1tOs.Kernel.Sched
import Fru1tOs.Lib.Registers

/-!
# The registers of a switch

The assembly of `context_switch`: 31 stores, from the register `%0` on which the compiler has put
`prev_frame`, and 31 loads, from the register `%1` with `next_frame`. It is not said that the block
changes registers, so that the compiler may choose any two of them.

The stores save all registers. But `%1` is loaded as the others are, from its own word, and those
that come after it are then loaded from where this word points (`Cpu.exec_switchBlock`). So the
block switches for all contents of registers and memory only if `%1` is `sp`, which is loaded last
(`switchBlock_iff`), as it is in `kernel_entry` (`kernelEntry_restores`). Then it is the switch that
the scheduler relies on (`contextSwitch_of_switched`).
-/

namespace Fru1tOs

open Lib

/-- The registers, in the order of `struct trap_frame`. -/
inductive Reg
  | ra | gp | tp | t0 | t1 | t2 | t3 | t4 | t5 | t6
  | a0 | a1 | a2 | a3 | a4 | a5 | a6 | a7
  | s0 | s1 | s2 | s3 | s4 | s5 | s6 | s7 | s8 | s9 | s10 | s11
  | sp
  deriving DecidableEq, Repr

namespace Reg

/-- The registers, in the order in which they are stored and loaded. -/
def all : List Reg :=
  [ra, gp, tp, t0, t1, t2, t3, t4, t5, t6, a0, a1, a2, a3, a4, a5, a6, a7,
    s0, s1, s2, s3, s4, s5, s6, s7, s8, s9, s10, s11, sp]

/-- The number of the word of a register in `struct trap_frame`. -/
def slot (r : Reg) : ℕ := all.idxOf r

theorem mem_all (r : Reg) : r ∈ all := by cases r <;> decide

theorem nodup_all : all.Nodup := by decide

theorem slot_lt (r : Reg) : r.slot < all.length := List.idxOf_lt_length_iff.2 r.mem_all

theorem getElem_of_slot {r : Reg} {i : ℕ} (hi : i < all.length) (h : i = r.slot) : all[i] = r := by
  subst h
  exact List.getElem_idxOf hi

theorem slot_inj {r t : Reg} (h : r.slot = t.slot) : r = t := by
  rw [← getElem_of_slot r.slot_lt rfl, getElem_of_slot r.slot_lt h]

/-- `sp` is the last one. -/
theorem slot_lt_sp {r : Reg} (h : r ≠ sp) : r.slot < sp.slot := by
  cases r <;> first | decide | exact absurd rfl h

/-- The registers before one and after it. -/
theorem all_eq (r : Reg) : all = all.take r.slot ++ r :: all.drop (r.slot + 1) := by
  conv_lhs => rw [← List.take_append_drop r.slot all, List.drop_eq_getElem_cons r.slot_lt,
    getElem_of_slot _ rfl]

end Reg

/-- The assembly of `context_switch`, `%0` being `prev` and `%1` being `next`. -/
def switchBlock (prev next : Reg) : List (Instr Reg) := saves prev 0 Reg.all ++ loads next 0 Reg.all

/-- The word of a register in the trap frame at an address. -/
def frameWord (m : Mem) (frame : ℕ) (r : Reg) : ℕ := load32 m (frame + 4 * r.slot)

/-- The registers `prev` and `next` point to two trap frames. -/
structure PointToFrames (s : Cpu Reg) (prev next : Reg) : Prop where
  prev_fits : (s.regs prev).toNat + 124 ≤ 2 ^ 32
  next_fits : (s.regs next).toNat + 124 ≤ 2 ^ 32
  disjoint : (s.regs prev).toNat + 124 ≤ (s.regs next).toNat ∨
    (s.regs next).toNat + 124 ≤ (s.regs prev).toNat

/-- The one frame holds the registers on entry, and the registers are what the other one holds. -/
structure Switches (s s' : Cpu Reg) (prev next : Reg) : Prop where
  saved : ∀ r, frameWord s'.mem (s.regs prev).toNat r = (s.regs r).toNat
  loaded : ∀ r, (s'.regs r).toNat = frameWord s.mem (s.regs next).toNat r

/-- The block switches, whatever the registers and the memory hold; and a switch back, from what
    was `next` to what was `prev`, restores all registers when the frame of `prev` was left as it
    is. -/
structure SwitchesRight (prev next : Reg) : Prop where
  switches : ∀ s, PointToFrames s prev next → Switches s (s.exec (switchBlock prev next)) prev next
  back : ∀ s s₁ : Cpu Reg, PointToFrames s prev next → s₁.regs prev = s.regs next →
    s₁.regs next = s.regs prev →
    (∀ r, frameWord s₁.mem (s.regs prev).toNat r =
      frameWord (s.exec (switchBlock prev next)).mem (s.regs prev).toNat r) →
    (s₁.exec (switchBlock prev next)).regs = s.regs

variable {s : Cpu Reg} {prev next : Reg}

/-- The loads: those up to the base are from where it points at first, and the others from where it
    points when it is loaded. -/
theorem Cpu.exec_loads_all (s : Cpu Reg) (base : Reg) :
    (s.exec (loads base 0 Reg.all)).mem = s.mem ∧
      ∀ r, ((s.exec (loads base 0 Reg.all)).regs r).toNat =
        if r.slot ≤ base.slot then load32 s.mem (s.address (4 * r.slot) base)
        else load32 s.mem
          ((load32 s.mem (s.address (4 * base.slot) base) + 4 * r.slot) % 2 ^ 32) := by
  have hnodup : (Reg.all.take base.slot ++ base :: Reg.all.drop (base.slot + 1)).Nodup :=
    Reg.all_eq base ▸ Reg.nodup_all
  obtain ⟨hmem, hbase, hfirst, hlast⟩ := exec_loads_base (s := s) (k := 0) hnodup
  have hlen : (Reg.all.take base.slot).length = base.slot := List.length_take_of_le base.slot_lt.le
  rw [← Reg.all_eq] at hmem hbase hfirst hlast
  simp only [hlen, Nat.zero_add] at hbase hfirst hlast
  refine ⟨hmem, fun r => ?_⟩
  have hslot := r.slot_lt
  rcases lt_trichotomy r.slot base.slot with hlt | heq | hgt
  · have hreg := hfirst r.slot hlt
    rw [List.getElem_take, Reg.getElem_of_slot _ rfl] at hreg
    rw [if_pos hlt.le, hreg, toNat_ofNat_load32]
  · obtain rfl := Reg.slot_inj heq
    rw [if_pos le_rfl, hbase, toNat_ofNat_load32]
  · obtain ⟨j, hj⟩ := Nat.exists_eq_add_of_lt hgt
    have hreg := hlast j (by rw [List.length_drop]; omega)
    rw [List.getElem_drop, Reg.getElem_of_slot (r := r) _ (by omega)] at hreg
    rw [if_neg (by omega), hreg, toNat_ofNat_load32, hj, Nat.add_right_comm]

/-- The loads of `kernel_entry`, from `sp`: every register gets its word. -/
theorem kernelEntry_restores (s : Cpu Reg) (r : Reg) :
    ((s.exec (loads .sp 0 Reg.all)).regs r).toNat = load32 s.mem (s.address (4 * r.slot) .sp) := by
  have hslot : r.slot ≤ Reg.sp.slot := Nat.lt_succ_iff.1 r.slot_lt
  rw [(Cpu.exec_loads_all s .sp).2 r, if_pos hslot]

/-- What the block does: the registers are saved; those up to `%1` are loaded from its frame, and
    the others from where the word of `%1` points. -/
theorem Cpu.exec_switchBlock (h : PointToFrames s prev next) :
    let s' := s.exec (switchBlock prev next)
    let v := frameWord s.mem (s.regs next).toNat next
    (∀ r, frameWord s'.mem (s.regs prev).toNat r = (s.regs r).toNat) ∧
      (∀ x, x < (s.regs prev).toNat ∨ (s.regs prev).toNat + 124 ≤ x → s'.mem x = s.mem x) ∧
      ∀ r, (s'.regs r).toNat =
        if r.slot ≤ next.slot then frameWord s.mem (s.regs next).toNat r
        else load32 s'.mem ((v + 4 * r.slot) % 2 ^ 32) := by
  intro s' v
  have hlen : Reg.all.length = 31 := rfl
  have hfit : (s.regs prev).toNat + 4 * (0 + Reg.all.length) ≤ 2 ^ 32 := by
    have := h.prev_fits
    omega
  obtain ⟨hregs, hrest, hwords⟩ := exec_saves hfit
  set s₁ := s.exec (saves prev 0 Reg.all) with hs₁
  have hs' : s' = s₁.exec (loads next 0 Reg.all) := Cpu.exec_append _ _ _
  obtain ⟨hmem, hloads⟩ := Cpu.exec_loads_all s₁ next
  rw [← hs'] at hmem hloads
  -- The frame of `next` is not written.
  have hframe : ∀ r : Reg, load32 s₁.mem (s₁.address (4 * r.slot) next) =
      frameWord s.mem (s.regs next).toNat r := fun r => by
    have hslot := r.slot_lt
    have hfits := h.next_fits
    have hdisj := h.disjoint
    rw [Cpu.address, hregs, Nat.mod_eq_of_lt (by omega)]
    exact load32_congr fun x hx hx' => hrest x (by omega)
  refine ⟨fun r => ?_, fun x hx => ?_, fun r => ?_⟩
  · have hword := hwords r.slot r.slot_lt
    rw [Nat.zero_add, Reg.getElem_of_slot _ rfl, ← hmem] at hword
    exact hword
  · rw [hmem, hrest x (by omega)]
  · rw [hloads r, hframe r, hframe next, hmem]

/-- In one run, the block switches if and only if the registers after `%1` find their words where
    the word of `%1` points, too. -/
theorem switches_iff (h : PointToFrames s prev next) :
    Switches s (s.exec (switchBlock prev next)) prev next ↔
      ∀ r : Reg, next.slot < r.slot → load32 (s.exec (switchBlock prev next)).mem
        ((frameWord s.mem (s.regs next).toNat next + 4 * r.slot) % 2 ^ 32) =
          frameWord s.mem (s.regs next).toNat r := by
  obtain ⟨hsaved, -, hloaded⟩ := Cpu.exec_switchBlock h
  constructor
  · intro hswitched r hr
    rw [← hswitched.loaded r, hloaded r, if_neg (not_le.2 hr)]
  · refine fun hwords => ⟨hsaved, fun r => ?_⟩
    rw [hloaded r]
    split_ifs with hr
    · rfl
    · exact hwords r (not_le.1 hr)

/-- A switch and a switch back. -/
theorem Switches.back {s₁ : Cpu Reg} (h : PointToFrames s prev next)
    (h₁ : ∀ s, PointToFrames s prev next → Switches s (s.exec (switchBlock prev next)) prev next)
    (hprev : s₁.regs prev = s.regs next) (hnext : s₁.regs next = s.regs prev)
    (hframe : ∀ r, frameWord s₁.mem (s.regs prev).toNat r =
      frameWord (s.exec (switchBlock prev next)).mem (s.regs prev).toNat r) :
    (s₁.exec (switchBlock prev next)).regs = s.regs := by
  have hpoint : PointToFrames s₁ prev next :=
    ⟨hprev ▸ h.next_fits, hnext ▸ h.prev_fits, hprev ▸ hnext ▸ h.disjoint.symm⟩
  funext r
  refine BitVec.eq_of_toNat_eq ?_
  rw [(h₁ s₁ hpoint).loaded r, hnext, hframe r, (h₁ s h).saved r]

/-! ## The switch of the scheduler -/

/-- The trap frame with the given words. -/
def TrapFrame.ofWords (f : Reg → BitVec 32) : TrapFrame where
  ra := f .ra
  others i := f (Reg.all.get ⟨i + 1, Nat.lt_of_lt_of_le (Nat.succ_lt_succ i.isLt) (by decide)⟩)
  sp := f .sp

/-- If the block switches, `context_switch` is what the scheduler takes it to be. -/
theorem contextSwitch_of_switched {s' : Cpu Reg} (h : Switches s s' prev next) {k : Kernel}
    {p q : Pid} (hne : p ≠ q) (hp : (k.processes p).trapFrame ≠ none)
    (hcpu : k.cpu = .ofWords s.regs) (hq : (k.processes q).trapFrame =
      some (.ofWords fun r => .ofNat 32 (frameWord s.mem (s.regs next).toNat r))) :
    ∃ k', contextSwitch k p q = some k' ∧ k'.cpu = .ofWords s'.regs ∧
      (k'.processes p).trapFrame =
        some (.ofWords fun r => .ofNat 32 (frameWord s'.mem (s.regs prev).toNat r)) := by
  obtain ⟨f, hf⟩ := Option.ne_none_iff_exists'.1 hp
  have hloaded : (fun r => .ofNat 32 (frameWord s.mem (s.regs next).toNat r)) = s'.regs := by
    funext r
    rw [← h.loaded r, BitVec.ofNat_toNat, BitVec.setWidth_eq]
  have hsaved : (fun r => .ofNat 32 (frameWord s'.mem (s.regs prev).toNat r)) = s.regs := by
    funext r
    rw [h.saved r, BitVec.ofNat_toNat, BitVec.setWidth_eq]
  rw [hloaded] at hq
  rw [hsaved, ← hcpu]
  refine ⟨{ k.modify p fun f => { f with trapFrame := some k.cpu } with cpu := .ofWords s'.regs },
    ?_, rfl, ?_⟩
  · simp [contextSwitch, hf, Kernel.modify, hne.symm, hq]
  · simp [Kernel.modify]

/-! ## The choice of the registers -/

/-- Two frames: `prev` points to `0x1000`, and `next` to `0x2000`, where only the word of `sp` is
    not zero. -/
def twoFrames (prev next : Reg) : Cpu Reg where
  regs r := if r = prev then 0x1000 else if r = next then 0x2000 else 0
  mem x := if x = 0x2000 + 120 then 1 else 0

theorem regs_twoFrames (hne : prev ≠ next) :
    ((twoFrames prev next).regs prev).toNat = 0x1000 ∧
      ((twoFrames prev next).regs next).toNat = 0x2000 := by
  simp [twoFrames, hne.symm]

theorem pointToFrames_twoFrames (hne : prev ≠ next) :
    PointToFrames (twoFrames prev next) prev next := by
  obtain ⟨hprev, hnext⟩ := regs_twoFrames hne
  exact ⟨by omega, by omega, by omega⟩

theorem load32_twoFrames {a : ℕ} (h : a + 4 ≤ 0x2000 + 120) :
    load32 (twoFrames prev next).mem a = 0 :=
  load32_congr (m := fun _ => 0) fun x _ hx' => if_neg (by omega)

/-- The word of `next` is zero, and where it points there is no word for `sp`. -/
theorem not_switched_twoFrames (hne : prev ≠ next) (hsp : next ≠ .sp) :
    ¬ Switches (twoFrames prev next) ((twoFrames prev next).exec (switchBlock prev next))
      prev next := by
  intro hswitched
  have h := pointToFrames_twoFrames hne
  have hslot := Reg.slot_lt_sp hsp
  have hlast : Reg.sp.slot = 30 := rfl
  have hword : frameWord (twoFrames prev next).mem 0x2000 .sp = 1 := rfl
  have hwords := (switches_iff h).1 hswitched .sp hslot
  have hrest := (Cpu.exec_switchBlock h).2.1
  rw [(regs_twoFrames hne).1] at hrest
  rw [(regs_twoFrames hne).2, hword, frameWord, load32_twoFrames (by omega), hlast,
    load32_congr fun x hx hx' => hrest x (by omega), load32_twoFrames (by omega)] at hwords
  cases hwords

/-- For any two registers that the compiler chooses, the block switches for all contents of the
    registers and of the memory if and only if `%1` is `sp`. -/
theorem switchBlock_iff (prev next : Reg) (hne : prev ≠ next) :
    SwitchesRight prev next ↔ next = .sp := by
  constructor
  · intro hright
    by_contra hsp
    exact not_switched_twoFrames hne hsp (hright.switches _ (pointToFrames_twoFrames hne))
  · rintro rfl
    have hswitches : ∀ s, PointToFrames s prev .sp →
        Switches s (s.exec (switchBlock prev .sp)) prev .sp := fun s h =>
      (switches_iff h).2 fun r hr => by
        have hslot := r.slot_lt
        have hlast : Reg.sp.slot = 30 := rfl
        have hlen : Reg.all.length = 31 := rfl
        omega
    exact ⟨hswitches, fun s s₁ h => Switches.back h hswitches⟩

theorem switchBlock_iff_sp : .a0 ≠ Reg.sp ∧ (SwitchesRight .a0 .sp ↔ Reg.sp = .sp) :=
  ⟨by decide, switchBlock_iff .a0 .sp (by decide)⟩

/-- With the frames in `a0` and `a1`, the registers from `a2` on are not loaded from the frame: `sp`
    is one of them. -/
theorem switchBlock_clobbers :
    PointToFrames (twoFrames .a0 .a1) .a0 .a1 ∧
      ¬ Switches (twoFrames .a0 .a1) ((twoFrames .a0 .a1).exec (switchBlock .a0 .a1)) .a0 .a1 ∧
      ¬ ∀ prev next : Reg, prev ≠ next → SwitchesRight prev next := by
  have hpoint : PointToFrames (twoFrames .a0 .a1) .a0 .a1 := pointToFrames_twoFrames (by decide)
  have hnot : ¬ Switches (twoFrames .a0 .a1)
      ((twoFrames .a0 .a1).exec (switchBlock .a0 .a1)) .a0 .a1 :=
    not_switched_twoFrames (by decide) (by decide)
  exact ⟨hpoint, hnot, fun h => hnot ((h .a0 .a1 (by decide)).switches _ hpoint)⟩

end Fru1tOs
