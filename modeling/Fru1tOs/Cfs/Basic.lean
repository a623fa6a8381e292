import Fru1tOs.Rbtree.Basic

/-!
# The completely fair scheduler

The scheduler of `cfs.c`: a table of processes, and a run queue, which is a
red-black tree of the tasks waiting for the processor, ordered by virtual
runtime, with a pointer to its first node. The processor is given to the first
task; a tick charges the current one for the time since the last tick, scaled by
its weight, and preempts it when it is too far ahead of the first one.

The tree is the one of pointers (`Fru1tOs.Rbtree.Basic`), a node being addressed
by the index of its process. The 64-bit and 32-bit counters are natural numbers
with explicit wrapping. The messages printed since `cfs_init` are recorded, in
order.
-/

namespace Fru1tOs

open Lib

/-- The state of a process, `PROC_UNUSED` to `PROC_BLOCKED`. -/
inductive ProcState
  | unused
  | ready
  | running
  | blocked
  deriving DecidableEq, Repr

/-- `MAX_PROCESSES`. -/
abbrev maxProcesses : ℕ := 8

/-- The index of a process. -/
abbrev Pid := Fin maxProcesses

/-- `NICE_0_LOAD`. -/
def nice0Load : ℕ := 1024

/-- `MIN_GRANULARITY`. -/
def minGranularity : ℕ := 1000000

/-- `struct cfs_process`, with its `struct sched_entity`. The tree node of the
    latter is in the memory of the run queue. `entry` is the entry point, which
    the initial trap frame returns to. -/
structure CfsProcess where
  pid : ℕ
  state : ProcState
  entry : ℕ
  vruntime : ℕ
  execStart : ℕ
  sumExecRuntime : ℕ
  weight : ℕ
  onRq : Bool
  nice : ℤ
  deriving DecidableEq, Repr

/-- The messages of the scheduler. -/
inductive CfsEvent
  | initialized
  | enqueued (pid : Pid) (vruntime weight : ℕ)
  | dequeued (pid : Pid)
  | updated (pid : Pid) (vruntime delta : ℕ)
  | scheduled (pid : Pid) (vruntime : ℕ)
  | preempting (pid next : Pid)
  | created (pid : Pid) (nice : ℤ) (weight : ℕ)
  | noFreeSlots
  deriving DecidableEq, Repr

/-- The state of the scheduler: the run queue (`struct cfs_rq`), the current
    process, the table of processes, the counter behind `get_time_ns`, and the
    messages printed. -/
structure Cfs where
  timeline : RbState Pid
  leftmost : Option Pid
  minVruntime : ℕ
  nrRunning : ℕ
  totalWeight : ℕ
  current : Option Pid
  procs : Pid → CfsProcess
  counter : ℕ
  log : List CfsEvent

namespace Cfs

/-- The state with the process `i` changed by `f`. -/
def modify (s : Cfs) (i : Pid) (f : CfsProcess → CfsProcess) : Cfs :=
  { s with procs := Function.update s.procs i (f (s.procs i)) }

/-- Printing a message. -/
def print (s : Cfs) (e : CfsEvent) : Cfs := { s with log := s.log ++ [e] }

end Cfs

/-- Bound for the loops on the tree: it has at most `maxProcesses` nodes. -/
def cfsFuel : ℕ := maxProcesses + 1

/-! ## Weights and time -/

/-- `prio_to_weight`: the weights of the nice values from -20 to 19. -/
def prioToWeight : List ℕ :=
  [88761, 71755, 56483, 46273, 36291,
   29154, 23254, 18705, 14949, 11916,
   9548, 7620, 6100, 4904, 3906,
   3121, 2501, 1991, 1586, 1277,
   1024, 820, 655, 526, 423,
   335, 272, 215, 172, 137,
   110, 87, 70, 56, 45,
   36, 29, 23, 18, 15]

/-- `nice_to_weight`. -/
def niceToWeight (nice : ℤ) : ℕ :=
  let nice := if nice < -20 then -20 else nice
  let nice := if nice > 19 then 19 else nice
  prioToWeight.getD (nice + 20).toNat 0

/-- `get_time_ns`: the counter advances by 1 ms at every reading. -/
def getTimeNs (s : Cfs) : ℕ × Cfs :=
  let counter := (s.counter + 1000000) % 2 ^ 64
  (counter, { s with counter := counter })

/-- `calc_delta_fair`: a delta scaled by the weight, in 32-bit arithmetic. -/
def calcDeltaFair (delta weight : ℕ) : ℕ :=
  if weight ≠ nice0Load ∧ delta < 0xFFFFFFFF then
    (delta % 2 ^ 32 * nice0Load) % 2 ^ 32 / weight
  else delta

/-! ## The run queue -/

/-- `update_min_vruntime`. -/
def updateMinVruntime (s : Cfs) : Cfs :=
  let vruntime := s.minVruntime
  let vruntime := match s.current with
    | some c => (s.procs c).vruntime
    | none => vruntime
  let vruntime := match s.leftmost with
    | some l =>
      match s.current with
      | none => (s.procs l).vruntime
      | some _ => if vruntime < (s.procs l).vruntime then vruntime else (s.procs l).vruntime
    | none => vruntime
  { s with minVruntime := if vruntime > s.minVruntime then vruntime else s.minVruntime }

/-- `cfs_init`. -/
def cfsInit (s : Cfs) : Cfs where
  timeline := { mem := fun i => (s.timeline.mem i).setParent (some i), root := none }
  leftmost := none
  minVruntime := 0
  nrRunning := 0
  totalWeight := 0
  current := none
  procs i := { s.procs i with
    pid := i, state := .unused, vruntime := 0, onRq := false, nice := 0 }
  counter := s.counter
  log := [.initialized]

/-- A pass of the descent of `cfs_enqueue_task` to the place of a task of the given
    `vruntime`: the link it is at, the node above it, the side of the link, and
    whether it has only gone left. -/
def cfsDescentPass (s : Cfs) (vruntime : ℕ) :
    Option Pid × Option Pid × Side × Bool →
      Option (Pass (Option Pid × Option Pid × Side × Bool) (Option Pid × Side × Bool))
  | (none, parent, side, leftmost) => some (.done (parent, side, leftmost))
  | (some entry, _, _, leftmost) =>
    if vruntime < (s.procs entry).vruntime then
      some (.next ((s.timeline.mem entry).left, some entry, .left, leftmost))
    else
      some (.next ((s.timeline.mem entry).right, some entry, .right, false))

/-- `cfs_enqueue_task`. -/
def cfsEnqueueTask (s : Cfs) (i : Pid) : Option Cfs := do
  let p := s.procs i
  if p.onRq then return s
  let (parent, side, leftmost) ←
    loop (cfsDescentPass s p.vruntime) cfsFuel (s.timeline.root, none, .left, true)
  let s := if leftmost then { s with leftmost := some i } else s
  let timeline ← rbInsertColor cfsFuel (rbLink s.timeline i parent side) i
  let s := { s with
    timeline := timeline
    nrRunning := (s.nrRunning + 1) % 2 ^ 32
    totalWeight := (s.totalWeight + p.weight) % 2 ^ 64 }
  let s := s.modify i fun p => { p with onRq := true, state := .ready }
  return s.print (.enqueued i p.vruntime p.weight)

/-- `cfs_dequeue_task`. -/
def cfsDequeueTask (s : Cfs) (i : Pid) : Option Cfs := do
  let p := s.procs i
  if !p.onRq then return s
  let leftmost ← if s.leftmost = some i then rbNext cfsFuel s.timeline i else some s.leftmost
  let timeline ← rbErase cfsFuel s.timeline i
  let s := { s with
    leftmost := leftmost
    timeline := rbClearNode timeline i
    nrRunning := (s.nrRunning + 2 ^ 32 - 1) % 2 ^ 32
    totalWeight := (s.totalWeight + 2 ^ 64 - p.weight) % 2 ^ 64 }
  let s := s.modify i fun p => { p with onRq := false }
  let s := updateMinVruntime s
  return s.print (.dequeued i)

/-- `cfs_pick_next_task`: the first task, if any. -/
def cfsPickNextTask (s : Cfs) : Option Pid := s.leftmost

/-! ## Ticks -/

/-- `cfs_update_curr`: charge the current task for the time since its last charge. -/
def cfsUpdateCurr (s : Cfs) (curr : Pid) : Cfs :=
  let (now, s) := getTimeNs s
  let se := s.procs curr
  if se.execStart = 0 then
    s.modify curr fun p => { p with execStart := now }
  else
    let deltaExec := (now + 2 ^ 64 - se.execStart) % 2 ^ 64
    let vruntime := (se.vruntime + calcDeltaFair deltaExec se.weight) % 2 ^ 64
    let s := s.modify curr fun p => { p with
      execStart := now
      sumExecRuntime := (p.sumExecRuntime + deltaExec) % 2 ^ 64
      vruntime := vruntime }
    let s := updateMinVruntime s
    s.print (.updated curr vruntime deltaExec)

/-- `cfs_check_preempt_curr`: the difference is one of unsigned numbers. -/
def cfsCheckPreemptCurr (s : Cfs) (curr new : Pid) : Bool :=
  ((s.procs curr).vruntime + 2 ^ 64 - (s.procs new).vruntime) % 2 ^ 64 > minGranularity

/-- The processor is given to the task `next`, taken off the run queue. -/
def cfsDispatch (s : Cfs) (next : Pid) : Option Cfs := do
  let s ← cfsDequeueTask s next
  let (now, s) := getTimeNs s
  let s := s.modify next fun p => { p with state := .running, execStart := now }
  return { s with current := some next }

/-- `cfs_scheduler_tick`. -/
def cfsSchedulerTick (s : Cfs) : Option Cfs :=
  match s.current with
  | none =>
    match cfsPickNextTask s with
    | none => some s
    | some next => do
      let s ← cfsDispatch s next
      return s.print (.scheduled next (s.procs next).vruntime)
  | some curr =>
    let s := cfsUpdateCurr s curr
    match cfsPickNextTask s with
    | none => some s
    | some next =>
      if cfsCheckPreemptCurr s curr next then do
        let s := s.print (.preempting curr next)
        let s := s.modify curr fun p => { p with state := .ready, execStart := 0 }
        let s ← cfsEnqueueTask s curr
        cfsDispatch s next
      else some s

/-! ## Creation -/

/-- `cfs_create_process`, with the slot it gives, if one is free. -/
def cfsCreateProcess (s : Cfs) (entry : ℕ) (nice : ℤ) : Option (Option Pid × Cfs) :=
  match (List.finRange maxProcesses).find? fun i => (s.procs i).state = .unused with
  | none => some (none, s.print .noFreeSlots)
  | some i => do
    let s := s.modify i fun p => { p with
      state := .ready
      entry := entry
      nice := nice
      weight := niceToWeight nice
      vruntime := s.minVruntime
      execStart := 0
      sumExecRuntime := 0
      onRq := false }
    let s := { s with timeline := rbClearNode s.timeline i }
    let s := s.print (.created i nice (niceToWeight nice))
    let s ← cfsEnqueueTask s i
    return (some i, s)

/-! ## Runs -/

/-- The calls of the scheduler. -/
inductive CfsCall
  | create (entry : ℕ) (nice : ℤ)
  | tick
  deriving DecidableEq, Repr

/-- The effect of a call. -/
def cfsCall (s : Cfs) : CfsCall → Option Cfs
  | .create entry nice => (cfsCreateProcess s entry nice).map Prod.snd
  | .tick => cfsSchedulerTick s

end Fru1tOs
