import Fru1tOs.Cfs.Basic

/-!
# The round-robin scheduler

The scheduler of `kernel.c`: a table of processes, and the current one. `schedule` gives the
processor to the first ready process after the current one, in circular order, or from the slot 0
on if there is none; `yield` and `process_exit` call it on behalf of the current process.

A context switch saves the registers of the processor in the trap frame of one process, and loads
them from that of another. The trap frame of a process is in its stack; of the memory, only its
contents are represented, `none` standing for a null pointer. The messages printed since
`scheduler_init` are recorded, in order.
-/

namespace Fru1tOs

open Lib

/-- `struct trap_frame`: the registers. The others are `gp`, `tp`, `t0` to `t6`, `a0` to `a7` and
    `s0` to `s11`. -/
structure TrapFrame where
  ra : BitVec 32
  others : Fin 29 → BitVec 32
  sp : BitVec 32

/-- `struct process`, with the contents of its trap frame. -/
structure Process where
  pid : ℕ
  state : ProcState
  sp : ℕ
  trapFrame : Option TrapFrame

/-- The messages of the scheduler. -/
inductive KernelEvent
  | created (pid : ℕ)
  | noFreeSlots
  | noReady
  | switching (pid : ℕ)
  | exiting (pid : ℕ)
  deriving DecidableEq, Repr

/-- The state of the scheduler: the table of processes, the current one, the addresses of the
    stacks, the registers of the processor, and the messages printed. -/
structure Kernel where
  processes : Pid → Process
  currentProc : Option Pid
  stack : Pid → ℕ
  cpu : TrapFrame
  log : List KernelEvent

namespace Kernel

/-- The state with the process `i` changed by `f`. -/
def modify (s : Kernel) (i : Pid) (f : Process → Process) : Kernel :=
  { s with processes := Function.update s.processes i (f (s.processes i)) }

/-- Printing a message. -/
def print (s : Kernel) (e : KernelEvent) : Kernel := { s with log := s.log ++ [e] }

end Kernel

/-- The scheduler when the machine starts: zeros. -/
def Kernel.boot : Kernel where
  processes _ := ⟨0, .unused, 0, none⟩
  currentProc := none
  stack _ := 0
  cpu := ⟨0, 0, 0⟩
  log := []

/-- `STACK_SIZE`. -/
def stackSize : ℕ := 8192

/-- The size of `struct trap_frame`. -/
def trapFrameSize : ℕ := 124

/-- `scheduler_init`. -/
def schedulerInit (s : Kernel) : Kernel :=
  { s with
    processes := fun i => ⟨i, .unused, 0, none⟩
    currentProc := none
    log := [] }

/-- `create_process`, with the slot it gives, if one is free. -/
def createProcess (s : Kernel) (entryPoint : BitVec 32) : Option Pid × Kernel :=
  match (List.finRange maxProcesses).find? fun i => (s.processes i).state = .unused with
  | none => (none, s.print .noFreeSlots)
  | some i =>
    let s := s.modify i fun p => { p with
      state := .ready
      sp := s.stack i + stackSize - trapFrameSize
      trapFrame := some ⟨entryPoint, 0, BitVec.ofNat 32 (s.stack i + stackSize - 8)⟩ }
    (some i, s.print (.created (s.processes i).pid))

/-- `context_switch`: the registers are saved, then loaded. -/
def contextSwitch (s : Kernel) (prev next : Pid) : Option Kernel := do
  let _ ← (s.processes prev).trapFrame
  let s := s.modify prev fun p => { p with trapFrame := some s.cpu }
  let nextFrame ← (s.processes next).trapFrame
  return { s with cpu := nextFrame }

namespace Kernel

/-- The first part of `schedule`: the current process, if it is running, is ready. -/
def preempt (s : Kernel) : Kernel :=
  match s.currentProc with
  | some c =>
    if (s.processes c).state = .running then s.modify c fun p => { p with state := .ready } else s
  | none => s

/-- The slot that `schedule` looks at first. -/
def start (s : Kernel) : ℕ :=
  match s.currentProc with
  | some c => ((s.processes c).pid + 1) % maxProcesses
  | none => 0

/-- The loop of `schedule`: the first ready process, in circular order. -/
def nextReady (s : Kernel) : Option Pid :=
  ((List.range maxProcesses).map fun i => Fin.ofNat maxProcesses (s.start + i)).find? fun idx =>
    (s.processes idx).state = .ready

/-- The last part of `schedule`: the process `next` becomes the current one. -/
def dispatch (s : Kernel) (next : Pid) : Option Kernel :=
  let prev := s.currentProc
  let s := { s with currentProc := some next }
  let s := s.modify next fun p => { p with state := .running }
  let s := s.print (.switching (s.processes next).pid)
  match prev with
  | some prev => contextSwitch s prev next
  | none => some s

end Kernel

/-- `schedule`. -/
def schedule (s : Kernel) : Option Kernel :=
  let s := s.preempt
  match s.nextReady with
  | none => some (s.print .noReady)
  | some next => s.dispatch next

/-- `yield`. -/
def yield (s : Kernel) : Option Kernel :=
  match s.currentProc with
  | some c => schedule (s.modify c fun p => { p with state := .ready })
  | none => some s

/-- `process_exit`. -/
def processExit (s : Kernel) : Option Kernel :=
  match s.currentProc with
  | some c =>
    let s := s.print (.exiting (s.processes c).pid)
    let s := s.modify c fun p => { p with state := .unused }
    schedule { s with currentProc := none }
  | none => some s

/-- The calls of the scheduler. -/
inductive KernelCall
  | create (entryPoint : BitVec 32)
  | schedule
  | yield
  | exit
  deriving DecidableEq, Repr

/-- The effect of a call. -/
def kernelCall (s : Kernel) : KernelCall → Option Kernel
  | .create entryPoint => some (createProcess s entryPoint).2
  | .schedule => schedule s
  | .yield => yield s
  | .exit => processExit s

/-- The call, made in `s`, makes `p` the current process: it prints so. -/
def Kernel.Dispatches (s : Kernel) (c : KernelCall) (p : Pid) : Prop :=
  ∃ s', kernelCall s c = some s' ∧ KernelEvent.switching p ∈ s'.log.drop s.log.length

instance (s : Kernel) (c : KernelCall) (p : Pid) : Decidable (s.Dispatches c p) :=
  decidable_of_iff ((kernelCall s c).any fun s' => .switching p ∈ s'.log.drop s.log.length)
    ((Option.any_eq_true _ _).trans (by simp only [decide_eq_true_eq, Kernel.Dispatches]))

/-- The process is ready. -/
def Kernel.Ready (s : Kernel) (p : Pid) : Prop := (s.processes p).state = .ready

instance (s : Kernel) (p : Pid) : Decidable (s.Ready p) :=
  inferInstanceAs (Decidable (_ = _))

/-! ## One call -/

section Call

variable {s s' : Kernel} {c n : Pid}

namespace Kernel

@[simp] theorem modify_self (s : Kernel) (i : Pid) (f : Process → Process) :
    (s.modify i f).processes i = f (s.processes i) := Function.update_self _ _ _

theorem modify_of_ne (s : Kernel) {i j : Pid} (h : j ≠ i) (f : Process → Process) :
    (s.modify i f).processes j = s.processes j := Function.update_of_ne h _ _

@[simp] theorem modify_currentProc (s : Kernel) (i : Pid) (f : Process → Process) :
    (s.modify i f).currentProc = s.currentProc := rfl

theorem start_lt (s : Kernel) : s.start < maxProcesses := by
  rw [start]
  split
  · exact Nat.mod_lt _ (by decide)
  · decide

/-- The scan looks at every slot, at its distance from the start. -/
theorem ofNat_start_add (s : Kernel) (m : Pid) : Fin.ofNat maxProcesses
    (s.start + (m + maxProcesses - s.start) % maxProcesses) = m := by
  have hstart := s.start_lt
  have hm := m.isLt
  apply Fin.ext
  simp only [Fin.val_ofNat, maxProcesses] at hstart hm ⊢
  omega

/-- The scan finds the ready process that is the fewest slots from its start. -/
theorem nextReady_eq_some (h : s.nextReady = some n) : s.Ready n ∧ ∀ m, s.Ready m →
    (n + maxProcesses - s.start) % maxProcesses ≤ (m + maxProcesses - s.start) % maxProcesses := by
  rw [nextReady, List.find?_map, Option.map_eq_some_iff] at h
  obtain ⟨i, hi, rfl⟩ := h
  obtain ⟨hready, hi, hfirst⟩ := List.find?_range_eq_some.1 hi
  refine ⟨of_decide_eq_true hready, fun m hm => ?_⟩
  have hik : i ≤ (m + maxProcesses - s.start) % maxProcesses := by
    by_contra hlt
    have hnot := hfirst _ (not_le.1 hlt)
    rw [Function.comp_apply, s.ofNat_start_add m,
      decide_eq_true (show (s.processes m).state = .ready from hm)] at hnot
    cases hnot
  have hstart := s.start_lt
  rw [List.mem_range] at hi
  simp only [Fin.val_ofNat, maxProcesses] at hstart hi hik ⊢
  omega

theorem nextReady_eq_none (h : s.nextReady = none) (m : Pid) : ¬ s.Ready m := by
  have := List.find?_eq_none.1 h m (List.mem_map.2
    ⟨_, List.mem_range.2 (Nat.mod_lt _ (by decide)), s.ofNat_start_add m⟩)
  exact fun hm => this (decide_eq_true hm)

end Kernel

/-- The slots from the one after `a` to `b`, in circular order. -/
def ahead (a b : Pid) : ℕ := (b + maxProcesses - 1 - a) % maxProcesses

/-- In the table, the pids are the slots, and what was created has a trap frame. -/
structure ProcessTable (f : Pid → Process) : Prop where
  pid : ∀ i, (f i).pid = i
  frame : ∀ i, (f i).state ≠ .unused → (f i).trapFrame ≠ none

theorem ProcessTable.update {f : Pid → Process} (h : ProcessTable f) {i : Pid} {p : Process}
    (hpid : p.pid = i) (hframe : p.state ≠ .unused → p.trapFrame ≠ none) :
    ProcessTable (Function.update f i p) := by
  refine ⟨fun j => ?_, fun j => ?_⟩
  · rcases eq_or_ne j i with rfl | hji
    · rw [Function.update_self, hpid]
    · rw [Function.update_of_ne hji, h.pid]
  · rcases eq_or_ne j i with rfl | hji
    · rw [Function.update_self]
      exact hframe
    · rw [Function.update_of_ne hji]
      exact h.frame j

/-- The invariant of the scheduler: the current process is running. -/
structure KernelInv (s : Kernel) : Prop extends ProcessTable s.processes where
  current : ∀ c, s.currentProc = some c → (s.processes c).state = .running

/-- The process `i` as it is created. -/
def Kernel.fresh (s : Kernel) (i : Pid) (entryPoint : BitVec 32) : Process :=
  { s.processes i with
    state := .ready
    sp := s.stack i + stackSize - trapFrameSize
    trapFrame := some ⟨entryPoint, 0, BitVec.ofNat 32 (s.stack i + stackSize - 8)⟩ }

/-- The table once the current process `c` is ready, its registers being saved. -/
def Kernel.saved (s : Kernel) (c : Pid) : Pid → Process :=
  Function.update s.processes c { s.processes c with state := .ready, trapFrame := some s.cpu }

/-- What a call does. -/
inductive KernelStep (s s' : Kernel) : KernelCall → Prop
  /-- A process is created in a free slot. -/
  | create (entryPoint : BitVec 32) (i : Pid) (hi : (s.processes i).state = .unused)
      (hs' : s' = { s with
        processes := Function.update s.processes i (s.fresh i entryPoint)
        log := s.log ++ [.created i] }) : KernelStep s s' (.create entryPoint)
  /-- There is no free slot. -/
  | full (entryPoint : BitVec 32) (h : ∀ i, (s.processes i).state ≠ .unused)
      (hs' : s' = s.print .noFreeSlots) : KernelStep s s' (.create entryPoint)
  /-- There is no current process to yield or to exit. -/
  | idle (call : KernelCall) (hcall : call = .yield ∨ call = .exit) (hcur : s.currentProc = none)
      (hs' : s' = s) : KernelStep s s' call
  /-- There is no current process, and none is ready. -/
  | wait (hcur : s.currentProc = none) (hnone : ∀ i, ¬ s.Ready i) (hs' : s' = s.print .noReady) :
      KernelStep s s' .schedule
  /-- There is no current process, and the first ready one is dispatched. The registers stay. -/
  | first (n : Pid) (hcur : s.currentProc = none) (hn : s.Ready n) (hle : ∀ i, s.Ready i → n ≤ i)
      (hs' : s' = { s with
        processes := Function.update s.processes n { s.processes n with state := .running }
        currentProc := some n
        log := s.log ++ [.switching n] }) : KernelStep s s' .schedule
  /-- The next ready process after the current one is dispatched. -/
  | switch (call : KernelCall) (c n : Pid) (hcall : call = .schedule ∨ call = .yield)
      (hcur : s.currentProc = some c) (hn : n = c ∨ s.Ready n)
      (hle : ∀ i, s.Ready i → ahead c n ≤ ahead c i)
      (hprocs : s'.processes = Function.update (s.saved c) n { s.saved c n with state := .running })
      (hcpu : (s.saved c n).trapFrame = some s'.cpu) (hcur' : s'.currentProc = some n)
      (hlog : s'.log = s.log ++ [.switching n]) : KernelStep s s' call
  /-- The current process exits, and no other is ready. -/
  | exitLast (c : Pid) (hcur : s.currentProc = some c) (hnone : ∀ i, ¬ s.Ready i)
      (hs' : s' = { s with
        processes := Function.update s.processes c { s.processes c with state := .unused }
        currentProc := none
        log := s.log ++ [.exiting c, .noReady] }) : KernelStep s s' .exit
  /-- The current process exits, and the first ready one is dispatched. The registers stay. -/
  | exitNext (c n : Pid) (hcur : s.currentProc = some c) (hn : s.Ready n) (hnc : n ≠ c)
      (hle : ∀ i, s.Ready i → n ≤ i)
      (hs' : s' = { s with
        processes := Function.update
          (Function.update s.processes c { s.processes c with state := .unused })
          n { s.processes n with state := .running }
        currentProc := some n
        log := s.log ++ [.exiting c, .switching n] }) : KernelStep s s' .exit

/-- With no current process, the scan starts at the slot 0. -/
theorem nextReady_le (hcur : s.currentProc = none) (h : s.nextReady = some n) (i : Pid)
    (hi : s.Ready i) : n ≤ i := by
  have hle := (Kernel.nextReady_eq_some h).2 i hi
  have hn := n.isLt
  have hi := i.isLt
  rw [Kernel.start, hcur] at hle
  simp only [maxProcesses] at hle hn hi
  rw [Fin.le_def]
  omega

/-- With a current process, it starts after that. -/
theorem nextReady_ahead_le (hcur : s.currentProc = some c) (hpid : (s.processes c).pid = c)
    (h : s.nextReady = some n) (i : Pid) (hi : s.Ready i) : ahead c n ≤ ahead c i := by
  have hle := (Kernel.nextReady_eq_some h).2 i hi
  have hn := n.isLt
  have hi := i.isLt
  have hc := c.isLt
  rw [Kernel.start, hcur] at hle
  dsimp only at hle
  rw [hpid] at hle
  rw [ahead, ahead]
  simp only [maxProcesses] at hle hn hi hc ⊢
  omega

/-- A dispatch from the process `c`. -/
theorem dispatch_switch (hcur : s.currentProc = some c) (hpid : (s.processes n).pid = n)
    (hc : (s.processes c).trapFrame ≠ none) (hn : (s.processes n).trapFrame ≠ none) :
    ∃ s', s.dispatch n = some s' ∧
      s'.processes = Function.update (Function.update s.processes c
        { s.processes c with trapFrame := some s.cpu }) n
        { Function.update s.processes c { s.processes c with trapFrame := some s.cpu } n with
          state := .running } ∧
      (Function.update s.processes c { s.processes c with trapFrame := some s.cpu } n).trapFrame =
        some s'.cpu ∧
      s'.currentProc = some n ∧ s'.log = s.log ++ [.switching n] := by
  obtain ⟨f, hf⟩ := Option.ne_none_iff_exists'.1 hc
  obtain ⟨g, hg⟩ := Option.ne_none_iff_exists'.1 hn
  rcases eq_or_ne n c with rfl | hnc
  · refine ⟨{ s with
      processes := Function.update s.processes n
        { s.processes n with state := .running, trapFrame := some s.cpu }
      currentProc := some n
      log := s.log ++ [.switching n] }, ?_, ?_, ?_, rfl, rfl⟩
    · simp [Kernel.dispatch, hcur, contextSwitch, Kernel.modify, Kernel.print, hf, hpid]
    · simp
    · simp
  · refine ⟨{ s with
      processes := Function.update (Function.update s.processes n
        { s.processes n with state := .running }) c { s.processes c with trapFrame := some s.cpu }
      currentProc := some n
      cpu := g
      log := s.log ++ [.switching n] }, ?_, ?_, ?_, rfl, rfl⟩
    · simp [Kernel.dispatch, hcur, contextSwitch, Kernel.modify, Kernel.print, hf, hg, hpid, hnc,
        hnc.symm]
    · rw [Function.update_comm hnc.symm]
      simp [hnc]
    · simp [hnc, hg]

/-- `schedule` with the current process `c`, which is ready again. -/
theorem schedule_switch (h : KernelInv s) (hcur : s.currentProc = some c) {call : KernelCall}
    (hcall : call = .schedule ∨ call = .yield) :
    ∃ s', kernelCall s call = some s' ∧ KernelStep s s' call := by
  have hrunning := h.current c hcur
  set v := s.modify c fun p => { p with state := .ready } with hv
  have hvc : v.processes c = { s.processes c with state := .ready } := s.modify_self c _
  have hvo : ∀ i, i ≠ c → v.processes i = s.processes i := fun i hi => s.modify_of_ne hi _
  have hvcur : v.currentProc = some c := hcur
  have hcr : v.Ready c := by rw [Kernel.Ready, hvc]
  -- Both calls scan the table with the current process ready.
  have hscan : kernelCall s call = match v.nextReady with
      | none => some (v.print .noReady)
      | some next => v.dispatch next := by
    rcases hcall with rfl | rfl
    · have hpre : s.preempt = v := by
        simp only [Kernel.preempt, hcur, hrunning, if_true, hv]
      rw [kernelCall, schedule, hpre]
    · have hpre : v.preempt = v := by
        simp [Kernel.preempt, hvcur, hvc]
      rw [kernelCall, yield, hcur]
      dsimp only
      rw [← hv, schedule, hpre]
  cases hnext : v.nextReady with
  | none => exact absurd hcr (Kernel.nextReady_eq_none hnext c)
  | some n =>
    obtain ⟨hn, -⟩ := Kernel.nextReady_eq_some hnext
    have hnr : n = c ∨ s.Ready n := by
      rcases eq_or_ne n c with hnc | hnc
      · exact .inl hnc
      · rw [Kernel.Ready, hvo n hnc] at hn
        exact .inr hn
    have hpid : ∀ i, (v.processes i).pid = i := fun i => by
      rcases eq_or_ne i c with rfl | hic
      · rw [hvc]
        exact h.pid i
      · rw [hvo i hic]
        exact h.pid i
    have hframe : ∀ i, i = c ∨ s.Ready i → (v.processes i).trapFrame ≠ none := fun i hi => by
      rcases eq_or_ne i c with rfl | hic
      · rw [hvc]
        exact h.frame i (by rw [hrunning]; decide)
      · rw [hvo i hic]
        refine h.frame i ?_
        rw [show (s.processes i).state = .ready from hi.resolve_left hic]
        decide
    obtain ⟨s', hs', hprocs, hcpu, hcur', hlog⟩ :=
      dispatch_switch hvcur (hpid n) (hframe c (.inl rfl)) (hframe n hnr)
    have hsaved : Function.update v.processes c { v.processes c with trapFrame := some v.cpu } =
        s.saved c := by
      rw [hvc, hv, Kernel.modify, Function.update_idem]
      rfl
    rw [hsaved] at hprocs hcpu
    rw [hnext] at hscan
    refine ⟨s', hscan.trans hs', .switch call c n hcall hcur hnr (fun i hi => ?_) hprocs hcpu hcur'
      hlog⟩
    refine nextReady_ahead_le hvcur (hpid c) hnext i ?_
    have hic : i ≠ c := fun hic => by
      rw [Kernel.Ready, hic, hrunning] at hi
      cases hi
    rw [Kernel.Ready, hvo i hic]
    exact hi

/-- `schedule` with no current process: no registers are loaded. -/
theorem schedule_none (h : ∀ i, (s.processes i).pid = i) (hcur : s.currentProc = none) :
    ((∀ i, ¬ s.Ready i) ∧ schedule s = some (s.print .noReady)) ∨
      ∃ n, s.Ready n ∧ (∀ i, s.Ready i → n ≤ i) ∧ schedule s = some { s with
        processes := Function.update s.processes n { s.processes n with state := .running }
        currentProc := some n
        log := s.log ++ [.switching n] } := by
  have hpre : s.preempt = s := by rw [Kernel.preempt, hcur]
  rw [schedule, hpre]
  dsimp only
  cases hnext : s.nextReady with
  | none => exact .inl ⟨Kernel.nextReady_eq_none hnext, rfl⟩
  | some n =>
    refine .inr ⟨n, (Kernel.nextReady_eq_some hnext).1, nextReady_le hcur hnext, ?_⟩
    simp [Kernel.dispatch, hcur, Kernel.modify, Kernel.print, h n]

/-- `process_exit` of the current process `c`. -/
theorem processExit_some (h : KernelInv s) (hcur : s.currentProc = some c) :
    ∃ s', kernelCall s .exit = some s' ∧ KernelStep s s' .exit := by
  set v : Kernel := { s with
    processes := Function.update s.processes c { s.processes c with state := .unused }
    currentProc := none
    log := s.log ++ [.exiting c] } with hv
  have hexit : kernelCall s .exit = schedule v := by
    simp [kernelCall, processExit, hcur, Kernel.modify, Kernel.print, h.pid c, hv]
  have hvc : v.processes c = { s.processes c with state := .unused } := Function.update_self _ _ _
  have hvo : ∀ i, i ≠ c → v.processes i = s.processes i := fun i hi => Function.update_of_ne hi _ _
  have hready : ∀ i, v.Ready i ↔ s.Ready i := fun i => by
    rcases eq_or_ne i c with rfl | hic
    · rw [Kernel.Ready, Kernel.Ready, hvc, h.current i hcur]
      simp
    · rw [Kernel.Ready, Kernel.Ready, hvo i hic]
  have hpid : ∀ i, (v.processes i).pid = i := fun i => by
    rcases eq_or_ne i c with rfl | hic
    · rw [hvc]
      exact h.pid i
    · rw [hvo i hic]
      exact h.pid i
  rw [hexit]
  rcases schedule_none hpid rfl with ⟨hnone, hs'⟩ | ⟨n, hn, hle, hs'⟩
  · refine ⟨_, hs', .exitLast c hcur (fun i => (hready i).not.1 (hnone i)) ?_⟩
    simp [hv, Kernel.print]
  · have hnc : n ≠ c := fun hnc => by
      rw [Kernel.Ready, hnc, hvc] at hn
      cases hn
    refine ⟨_, hs', .exitNext c n hcur ((hready n).1 hn) hnc
      (fun i hi => hle i ((hready i).2 hi)) ?_⟩
    rw [hvo n hnc]
    simp [hv]

/-- `create_process` fills a free slot, or there is none. -/
theorem createProcess_cases (h : KernelInv s) (entryPoint : BitVec 32) :
    KernelStep s (createProcess s entryPoint).2 (.create entryPoint) := by
  rw [createProcess]
  cases hfind : (List.finRange maxProcesses).find? fun i => (s.processes i).state = .unused with
  | none =>
    refine .full entryPoint (fun i => ?_) rfl
    simpa using List.find?_eq_none.1 hfind i (List.mem_finRange i)
  | some i =>
    refine .create entryPoint i (by simpa using List.find?_some hfind) ?_
    simp [Kernel.modify, Kernel.print, Kernel.fresh, h.pid i]

/-- `create_process` with the slot it gives: the other processes stay. -/
theorem createProcess_eq {entryPoint : BitVec 32} {r : Option Pid}
    (h : createProcess s entryPoint = (r, s')) : s'.currentProc = s.currentProc ∧
      match r with
      | none => s'.processes = s.processes
      | some i => (s.processes i).state = .unused ∧ (s'.processes i).state = .ready ∧
          ∀ j, j ≠ i → s'.processes j = s.processes j := by
  rw [createProcess] at h
  split at h
  · obtain ⟨rfl, rfl⟩ := Prod.mk.inj h
    exact ⟨rfl, rfl⟩
  · rename_i i hfind
    obtain ⟨rfl, rfl⟩ := Prod.mk.inj h
    refine ⟨rfl, by simpa using List.find?_some hfind, ?_, fun j hj => ?_⟩
    · simp [Kernel.print, Kernel.modify]
    · exact Function.update_of_ne hj _ _

/-- Every call returns, and does what `KernelStep` says. -/
theorem kernelCall_cases (h : KernelInv s) (call : KernelCall) :
    ∃ s', kernelCall s call = some s' ∧ KernelStep s s' call := by
  cases call with
  | create entryPoint => exact ⟨_, rfl, createProcess_cases h entryPoint⟩
  | schedule =>
    cases hcur : s.currentProc with
    | none =>
      rcases schedule_none h.pid hcur with ⟨hnone, hs'⟩ | ⟨n, hn, hle, hs'⟩
      · exact ⟨_, hs', .wait hcur hnone rfl⟩
      · exact ⟨_, hs', .first n hcur hn hle rfl⟩
    | some c => exact schedule_switch h hcur (.inl rfl)
  | yield =>
    cases hcur : s.currentProc with
    | none => exact ⟨s, by rw [kernelCall, yield, hcur], .idle _ (.inl rfl) hcur rfl⟩
    | some c => exact schedule_switch h hcur (.inr rfl)
  | exit =>
    cases hcur : s.currentProc with
    | none => exact ⟨s, by rw [kernelCall, processExit, hcur], .idle _ (.inr rfl) hcur rfl⟩
    | some c => exact processExit_some h hcur

theorem KernelInv.frame_of_ready (h : KernelInv s) (hn : s.Ready n) :
    (s.processes n).trapFrame ≠ none :=
  h.frame n (by rw [show (s.processes n).state = .ready from hn]; decide)

/-- A call keeps the invariant. -/
theorem KernelStep.inv {call : KernelCall} (hstep : KernelStep s s' call) (h : KernelInv s) :
    KernelInv s' := by
  cases hstep with
  | create entryPoint i hi hs' =>
    subst hs'
    refine ⟨h.toProcessTable.update (h.pid i) fun _ => Option.some_ne_none _, fun c hc => ?_⟩
    have hci : c ≠ i := fun hci => by
      rw [← hci, h.current c hc] at hi
      cases hi
    dsimp only
    rw [Function.update_of_ne hci]
    exact h.current c hc
  | full entryPoint hfull hs' =>
    subst hs'
    exact ⟨h.toProcessTable, h.current⟩
  | idle call hcall hcur hs' => exact hs' ▸ h
  | wait hcur hnone hs' =>
    subst hs'
    exact ⟨h.toProcessTable, h.current⟩
  | first n hcur hn hle hs' =>
    subst hs'
    refine ⟨h.toProcessTable.update (h.pid n) fun _ => h.frame_of_ready hn, fun c hc => ?_⟩
    obtain rfl : n = c := Option.some_inj.1 hc
    exact (congrArg Process.state (Function.update_self _ _ _)).trans rfl
  | switch call c n hcall hcur hn hle hprocs hcpu hcur' hlog =>
    have hsaved : ProcessTable (s.saved c) :=
      h.toProcessTable.update (h.pid c) fun _ => Option.some_ne_none _
    refine ⟨?_, fun d hd => ?_⟩
    · rw [hprocs]
      exact hsaved.update (hsaved.pid n) fun _ => by rw [hcpu]; exact Option.some_ne_none _
    · obtain rfl : n = d := by rwa [hcur', Option.some_inj] at hd
      rw [hprocs, Function.update_self]
  | exitLast c hcur hnone hs' =>
    subst hs'
    exact ⟨h.toProcessTable.update (h.pid c) fun hu => absurd rfl hu, fun d hd => by cases hd⟩
  | exitNext c n hcur hn hnc hle hs' =>
    subst hs'
    have hexit : ProcessTable (Function.update s.processes c
        { s.processes c with state := .unused }) :=
      h.toProcessTable.update (h.pid c) fun hu => absurd rfl hu
    refine ⟨hexit.update (h.pid n) fun _ => h.frame_of_ready hn, fun d hd => ?_⟩
    obtain rfl : n = d := Option.some_inj.1 hd
    exact (congrArg Process.state (Function.update_self _ _ _)).trans rfl

/-- The invariant after `scheduler_init`. -/
theorem kernelInv_init (s₀ : Kernel) : KernelInv (schedulerInit s₀) where
  pid _ := rfl
  frame _ hi := absurd rfl hi
  current c hc := by cases hc

/-- Every run returns, and keeps the invariant. -/
theorem kernel_run (s₀ : Kernel) (calls : List KernelCall) :
    ∃ s, run kernelCall (schedulerInit s₀) calls = some s ∧ KernelInv s := by
  refine run_of_invariant (fun s call h => ?_) (kernelInv_init s₀) calls
  obtain ⟨s', hs', hstep⟩ := kernelCall_cases h call
  exact ⟨s', hs', hstep.inv h⟩

/-- Which process a call dispatches, by what it prints. -/
theorem dispatches_iff {call : KernelCall} {l : List KernelEvent}
    (hs' : kernelCall s call = some s') (hlog : s'.log = s.log ++ l) (p : Pid) :
    s.Dispatches call p ↔ KernelEvent.switching p ∈ l := by
  rw [Kernel.Dispatches, hs']
  simp only [Option.some_inj, exists_eq_left', hlog, List.drop_left]

theorem not_dispatches_create (s : Kernel) (entryPoint : BitVec 32) (p : Pid) :
    ¬ s.Dispatches (.create entryPoint) p := by
  have hlog : ∃ e, (∀ i, e ≠ KernelEvent.switching i) ∧
      (createProcess s entryPoint).2.log = s.log ++ [e] := by
    rw [createProcess]
    split
    · exact ⟨.noFreeSlots, fun i => by simp, rfl⟩
    · exact ⟨.created _, fun i => by simp, rfl⟩
  obtain ⟨e, he, hlog⟩ := hlog
  rw [dispatches_iff rfl hlog, List.mem_singleton]
  exact fun h => he p h.symm

/-- A dispatch makes the process the current one. -/
theorem KernelStep.dispatched {call : KernelCall} {p : Pid} (hstep : KernelStep s s' call)
    (hs' : kernelCall s call = some s') (hp : s.Dispatches call p) : s'.currentProc = some p := by
  have hprinted : ∀ {l : List KernelEvent}, s'.log = s.log ++ l → KernelEvent.switching p ∈ l :=
    fun hlog => (dispatches_iff hs' hlog p).1 hp
  cases hstep with
  | create entryPoint i hi hs => exact absurd hp (not_dispatches_create s entryPoint p)
  | full entryPoint hfull hs => exact absurd hp (not_dispatches_create s entryPoint p)
  | idle call hcall hnone hs =>
    have := hprinted (l := []) (by rw [hs, List.append_nil])
    simp at this
  | wait hnone hready hs =>
    subst hs
    simpa using hprinted rfl
  | first n hnone hn hle hs =>
    subst hs
    rw [show p = n from Fin.ext (by simpa using hprinted rfl)]
  | switch call d n hcall hcur' hn hle hprocs hcpu hcurn hlog =>
    rw [show p = n from Fin.ext (by simpa using hprinted hlog), hcurn]
  | exitLast d hcur' hnone hs =>
    subst hs
    simpa using hprinted rfl
  | exitNext d n hcur' hn hnd hle hs =>
    subst hs
    rw [show p = n from Fin.ext (by simpa using hprinted rfl)]

end Call

end Fru1tOs
