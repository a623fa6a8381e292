import Fru1tOs.Kernel.Sched

/-!
# Who executes

The registers of the processor are those of some code: the one that boots the machine, or that of
a process. A context switch moves registers, and with them the code that executes; to follow it,
the state is extended with whose registers are where (`Tracked`). Between the calls, the code that
executes computes, and changes the registers as it likes.

`schedule` makes no context switch when there is no current process, although it makes one
current. So the code that executes is not that of the current process after the first dispatch,
and it is that of the exited one after an exit. Nothing else goes wrong (`context_kept_iff`).

The code that goes on after the first dispatch may be taken for that of the process that is current
then (`TrackedInv.adopt`). From there on every switch is right, until a process exits
(`TrackedInv.run_kept`).
-/

namespace Fru1tOs

open Lib

/-- A code that executes: the one that boots, or that of the `n`-th process created. -/
inductive Thread
  | boot
  | process (n : ℕ)
  deriving DecidableEq, Repr

/-- The scheduler, with the number of processes created, the one in each slot, whose registers are
    in the trap frame of each slot, who executes, and the processes that exited. -/
structure Tracked where
  kernel : Kernel
  created : ℕ
  holder : Pid → ℕ
  frameOf : Pid → Thread
  executing : Thread
  exited : List ℕ

/-- The machine boots. -/
def Tracked.start (s : Kernel) : Tracked := ⟨s, 0, fun _ => 0, fun _ => .boot, .boot, []⟩

/-- What `context_switch` does to the owners of the registers. -/
def Tracked.switch (s : Tracked) (prev next : Pid) : Tracked :=
  let frameOf := Function.update s.frameOf prev s.executing
  { s with frameOf := frameOf, executing := frameOf next }

/-- What happens: a call, or a computation that leaves the given registers. -/
inductive Activity
  | call (c : KernelCall)
  | compute (cpu : TrapFrame)

/-- A call, with the owners. `schedule` switches from the process that is current when it is called
    to the one that is current after it; `process_exit` has set the former to null. -/
def Tracked.call (s : Tracked) (c : KernelCall) : Option Tracked :=
  (kernelCall s.kernel c).map fun k =>
    match c with
    | .create entryPoint =>
      match (createProcess s.kernel entryPoint).1 with
      | some i =>
        { s with
          kernel := k
          created := s.created + 1
          holder := Function.update s.holder i s.created
          frameOf := Function.update s.frameOf i (.process s.created) }
      | none => { s with kernel := k }
    | .schedule | .yield =>
      match s.kernel.currentProc, k.currentProc with
      | some prev, some next => { s.switch prev next with kernel := k }
      | _, _ => { s with kernel := k }
    | .exit =>
      match s.kernel.currentProc with
      | some c => { s with kernel := k, exited := s.holder c :: s.exited }
      | none => { s with kernel := k }

/-- An activity, with the owners. -/
def Tracked.step (s : Tracked) : Activity → Option Tracked
  | .call c => s.call c
  | .compute cpu => some { s with kernel := { s.kernel with cpu := cpu } }

/-- The code that executes is that of the current process, it did not exit, and the trap frames
    hold the registers of their own processes. -/
structure Tracked.Right (s : Tracked) : Prop where
  current : ∀ p, s.kernel.currentProc = some p → s.executing = .process (s.holder p)
  exited : ∀ n ∈ s.exited, s.executing ≠ .process n
  frames : ∀ p, (s.kernel.processes p).state ≠ .unused → s.frameOf p = .process (s.holder p)

/-- A process that is dispatched goes on with the registers saved for it. -/
def Kernel.Loads (s : Kernel) (c : KernelCall) : Prop := ∀ s' p, kernelCall s c = some s' →
  s.Dispatches c p → some s'.cpu = if s.currentProc = some p then some s.cpu
    else (s.processes p).trapFrame

/-- The contexts are kept in the run of the activities that leads from `s₀` to `s`. -/
structure ContextKept (s₀ : Tracked) (as : List Activity) (s : Tracked) : Prop where
  before : ∀ s₁ a, Makes Tracked.step s₀ as s₁ a → s₁.Right
  after : s.Right
  loads : ∀ s₁ c, Makes Tracked.step s₀ as s₁ (.call c) → s₁.kernel.Loads c

/-- The call does not dispatch a process while none is current, and it ends none. -/
def Kernel.Switches (s : Kernel) : KernelCall → Prop
  | .schedule => s.currentProc = none → ∀ p, ¬ s.Ready p
  | .exit => s.currentProc = none
  | _ => True

/-! ## One call -/

/-- The invariant of runs in which the contexts are kept. -/
structure TrackedInv (s : Tracked) : Prop where
  inv : KernelInv s.kernel
  right : s.Right
  idle : s.kernel.currentProc = none → s.executing = .boot
  holder : ∀ p, (s.kernel.processes p).state ≠ .unused →
    s.holder p < s.created ∧ s.holder p ∉ s.exited
  exited : ∀ n ∈ s.exited, n < s.created

theorem Kernel.Ready.used {s : Kernel} {p : Pid} (h : s.Ready p) :
    (s.processes p).state ≠ .unused := by
  rw [show (s.processes p).state = .ready from h]
  decide

section Call

variable {s s' : Tracked}

/-- A creation: the new process is in the trap frame of its slot. -/
theorem TrackedInv.create (h : TrackedInv s) (entryPoint : BitVec 32) :
    ∃ s', s.call (.create entryPoint) = some s' ∧ TrackedInv s' := by
  have hstep := createProcess_cases h.inv entryPoint
  have hcall : s.call (.create entryPoint) = some (match (createProcess s.kernel entryPoint).1 with
      | some i => { s with
          kernel := (createProcess s.kernel entryPoint).2
          created := s.created + 1
          holder := Function.update s.holder i s.created
          frameOf := Function.update s.frameOf i (.process s.created) }
      | none => { s with kernel := (createProcess s.kernel entryPoint).2 }) := rfl
  rw [hcall]
  refine ⟨_, rfl, ?_⟩
  have hinv := hstep.inv h.inv
  rcases hcreate : createProcess s.kernel entryPoint with ⟨r, k⟩
  rw [hcreate] at hinv
  obtain ⟨hcur, hcase⟩ := createProcess_eq hcreate
  cases r with
  | none =>
    dsimp only at hcase hinv ⊢
    refine ⟨hinv, ⟨?_, h.right.exited, ?_⟩, ?_, ?_, h.exited⟩
    · rw [hcur]
      exact h.right.current
    · rw [hcase]
      exact h.right.frames
    · rw [hcur]
      exact h.idle
    · rw [hcase]
      exact h.holder
  | some i =>
    obtain ⟨hi, hready, hother⟩ := hcase
    dsimp only at hinv ⊢
    -- A process that was there keeps its slot and its frame.
    have hold : ∀ p, (s.kernel.processes p).state ≠ .unused → p ≠ i := fun p hp hpi =>
      hp (hpi ▸ hi)
    refine ⟨hinv, ⟨fun p hp => ?_, h.right.exited, fun p hp => ?_⟩, ?_, fun p hp => ?_,
      fun n hn => ?_⟩
    · dsimp only at hp ⊢
      rw [hcur] at hp
      rw [Function.update_of_ne (hold p (by rw [h.inv.current p hp]; decide))]
      exact h.right.current p hp
    · dsimp only at hp ⊢
      rcases eq_or_ne p i with rfl | hpi
      · rw [Function.update_self, Function.update_self]
      · rw [hother p hpi] at hp
        rw [Function.update_of_ne hpi, Function.update_of_ne hpi]
        exact h.right.frames p hp
    · rw [hcur]
      exact h.idle
    · dsimp only at hp ⊢
      rcases eq_or_ne p i with rfl | hpi
      · rw [Function.update_self]
        exact ⟨Nat.lt_succ_self _, fun hmem => lt_irrefl _ (h.exited _ hmem)⟩
      · rw [hother p hpi] at hp
        rw [Function.update_of_ne hpi]
        exact ⟨Nat.lt_succ_of_lt (h.holder p hp).1, (h.holder p hp).2⟩
    · exact Nat.lt_succ_of_lt (h.exited n hn)

/-- A context switch: the process that is dispatched executes. -/
theorem TrackedInv.switch (h : TrackedInv s) {k : Kernel} {call : KernelCall} {c n : Pid}
    (hstep : KernelStep s.kernel k call) (hcur : s.kernel.currentProc = some c)
    (hcur' : k.currentProc = some n) (hn : n = c ∨ s.kernel.Ready n)
    (hstate : ∀ p, (k.processes p).state ≠ .unused → (s.kernel.processes p).state ≠ .unused) :
    TrackedInv { s.switch c n with kernel := k } := by
  have hused : ∀ p, p = c ∨ s.kernel.Ready p → (s.kernel.processes p).state ≠ .unused :=
    fun p hp => by
      rcases hp with rfl | hp
      · rw [h.inv.current p hcur]
        decide
      · exact hp.used
  -- The registers that are saved are those of the current process.
  have hframes : ∀ p, (s.kernel.processes p).state ≠ .unused →
      Function.update s.frameOf c s.executing p = .process (s.holder p) := fun p hp => by
    rcases eq_or_ne p c with rfl | hpc
    · rw [Function.update_self]
      exact h.right.current p hcur
    · rw [Function.update_of_ne hpc]
      exact h.right.frames p hp
  refine ⟨hstep.inv h.inv, ⟨fun p hp => ?_, fun m hm => ?_, fun p hp => ?_⟩, fun hnone => ?_,
    fun p hp => h.holder p (hstate p hp), h.exited⟩
  · obtain rfl : n = p := by rwa [hcur', Option.some_inj] at hp
    exact hframes n (hused n hn)
  · refine (hframes n (hused n hn)).trans_ne fun heq => ?_
    rw [Thread.process.injEq] at heq
    exact (h.holder n (hused n hn)).2 (heq ▸ hm)
  · exact hframes p (hstate p hp)
  · rw [hcur'] at hnone
    cases hnone

/-- A call with the owners is the call. -/
theorem Tracked.call_kernel (s : Tracked) (c : KernelCall) :
    (s.call c).map Tracked.kernel = kernelCall s.kernel c := by
  rw [Tracked.call, Option.map_map]
  cases kernelCall s.kernel c with
  | none => rfl
  | some k =>
    rw [Option.map_some, Option.some_inj, Function.comp_apply]
    split
    · split <;> rfl
    · split <;> rfl
    · split <;> rfl
    · split <;> rfl

/-- Every activity is possible. -/
theorem Tracked.step_some (h : KernelInv s.kernel) (a : Activity) :
    ∃ s', s.step a = some s' ∧ KernelInv s'.kernel := by
  cases a with
  | call c =>
    obtain ⟨k, hk, hstep⟩ := kernelCall_cases h c
    have hmap := s.call_kernel c
    rw [hk, Option.map_eq_some_iff] at hmap
    obtain ⟨s', hs', rfl⟩ := hmap
    exact ⟨s', hs', hstep.inv h⟩
  | compute cpu => exact ⟨_, rfl, h.toProcessTable, h.current⟩

/-- A call that leaves no process current loads no registers. -/
theorem loads_of_none {s k : Kernel} {c : KernelCall} (hstep : KernelStep s k c)
    (hk : kernelCall s c = some k) (hnone : k.currentProc = none) : s.Loads c := by
  intro k' p hk' hp
  obtain rfl : k = k' := Option.some_inj.1 (hk.symm.trans hk')
  rw [hstep.dispatched hk hp] at hnone
  cases hnone

/-- A call keeps the contexts, unless it dispatches a process while none is current, or ends the
    current one. -/
theorem TrackedInv.call_keeps (h : TrackedInv s) {c : KernelCall} (hc : s.kernel.Switches c) :
    ∃ s', s.call c = some s' ∧ TrackedInv s' ∧ s.kernel.Loads c := by
  obtain ⟨k, hk, hstep⟩ := kernelCall_cases h.inv c
  have hsame : ∀ k, kernelCall s.kernel c = some k → (c = .schedule ∨ c = .yield ∨ c = .exit) →
      s.kernel.currentProc = none → s.call c = some { s with kernel := k } := by
    intro k hk hkind hcur
    rw [Tracked.call, hk, Option.map_some]
    rcases hkind with rfl | rfl | rfl <;> simp only [hcur]
  cases hstep with
  | create entryPoint i hi hs =>
    obtain ⟨s', hs', hinv⟩ := h.create entryPoint
    exact ⟨s', hs', hinv, fun k' p _ hp => absurd hp (not_dispatches_create _ _ _)⟩
  | full entryPoint hfull hs =>
    obtain ⟨s', hs', hinv⟩ := h.create entryPoint
    exact ⟨s', hs', hinv, fun k' p _ hp => absurd hp (not_dispatches_create _ _ _)⟩
  | idle c hcall hcur hs =>
    subst hs
    exact ⟨s, hsame _ hk (.inr hcall) hcur, h, loads_of_none (.idle c hcall hcur rfl) hk hcur⟩
  | wait hcur hnone hs =>
    subst hs
    refine ⟨_, hsame _ hk (.inl rfl) hcur, ?_, loads_of_none (.wait hcur hnone rfl) hk hcur⟩
    exact ⟨⟨h.inv.toProcessTable, h.inv.current⟩, ⟨h.right.current, h.right.exited, h.right.frames⟩,
      h.idle, h.holder, h.exited⟩
  | first n hcur hn hle hs => exact absurd hn (hc hcur n)
  | switch c d n hcall hcur hn hle hprocs hcpu hcur' hlog =>
    have hstep := KernelStep.switch c d n hcall hcur hn hle hprocs hcpu hcur' hlog
    refine ⟨{ s.switch d n with kernel := k }, ?_, h.switch hstep hcur hcur' hn fun p hp => ?_,
      fun k' p hk' hp => ?_⟩
    · rw [Tracked.call, hk, Option.map_some]
      rcases hcall with rfl | rfl <;> simp only [hcur, hcur']
    · -- The switch lets no process exit, and creates none.
      rcases eq_or_ne p d with rfl | hpd
      · rw [h.inv.current p hcur]
        decide
      · rcases hn with rfl | hn
        · rw [hprocs, Function.update_of_ne hpd, Kernel.saved, Function.update_of_ne hpd] at hp
          exact hp
        · rcases eq_or_ne p n with rfl | hpn
          · exact hn.used
          · rw [hprocs, Function.update_of_ne hpn, Kernel.saved, Function.update_of_ne hpd] at hp
            exact hp
    · obtain rfl : k = k' := Option.some_inj.1 (hk.symm.trans hk')
      obtain rfl : n = p := Option.some_inj.1 (hcur'.symm.trans (hstep.dispatched hk hp))
      rw [← hcpu, hcur, Kernel.saved]
      rcases eq_or_ne n d with rfl | hnd
      · rw [Function.update_self, if_pos rfl]
      · rw [Function.update_of_ne hnd, if_neg fun he => hnd (Option.some_inj.1 he).symm]
  | exitLast d hcur hnone hs =>
    rw [Kernel.Switches, hcur] at hc
    cases hc
  | exitNext d n hcur hn hnd hle hs =>
    rw [Kernel.Switches, hcur] at hc
    cases hc

/-- Otherwise, they are not kept: the code goes on that executed before. -/
theorem TrackedInv.call_breaks (h : TrackedInv s) {c : KernelCall} (hc : ¬ s.kernel.Switches c)
    (hs' : s.call c = some s') : ¬ s'.Right := by
  obtain ⟨k, hk, hstep⟩ := kernelCall_cases h.inv c
  rw [Tracked.call, hk, Option.map_some, Option.some_inj] at hs'
  intro hright
  cases c with
  | create entryPoint => exact hc trivial
  | yield => exact hc trivial
  | schedule =>
    rw [Kernel.Switches, Classical.not_imp, not_forall] at hc
    obtain ⟨hcur, p, hp⟩ := hc
    rw [not_not] at hp
    simp only [hcur] at hs'
    subst hs'
    cases hstep with
    | idle c hcall => rcases hcall with hcall | hcall <;> cases hcall
    | wait hcur hnone hs => exact hnone p hp
    | first n hcur hn hle hs =>
      subst hs
      have hexec := hright.current n rfl
      dsimp only at hexec
      rw [h.idle hcur] at hexec
      cases hexec
    | switch c d n hcall hcur' =>
      rw [hcur] at hcur'
      cases hcur'
  | exit =>
    obtain ⟨d, hd⟩ := Option.ne_none_iff_exists'.1 hc
    simp only [hd] at hs'
    subst hs'
    exact hright.exited (s.holder d) List.mem_cons_self (h.right.current d hd)

end Call

/-! ## Runs -/

/-- Computing changes nothing but the registers of the processor. -/
theorem TrackedInv.compute {s : Tracked} (h : TrackedInv s) (cpu : TrapFrame) :
    TrackedInv { s with kernel := { s.kernel with cpu := cpu } } :=
  ⟨⟨h.inv.toProcessTable, h.inv.current⟩, ⟨h.right.current, h.right.exited, h.right.frames⟩,
    h.idle, h.holder, h.exited⟩

theorem trackedInv_init (s₀ : Kernel) : TrackedInv (.start (schedulerInit s₀)) where
  inv := kernelInv_init s₀
  right := ⟨(fun p hp => by cases hp), fun n hn => absurd hn List.not_mem_nil,
    fun p hp => absurd rfl hp⟩
  idle _ := rfl
  holder p hp := absurd rfl hp
  exited n hn := absurd hn List.not_mem_nil

/-- An activity keeps the contexts exactly if it is no call that breaks them. -/
theorem TrackedInv.step_iff {s s' : Tracked} (h : TrackedInv s) {a : Activity}
    (hs' : s.step a = some s') :
    ((s'.Right ∧ ∀ c, a = .call c → s.kernel.Loads c) ↔
        ∀ c, a = .call c → s.kernel.Switches c) ∧
      ((∀ c, a = .call c → s.kernel.Switches c) → TrackedInv s') := by
  cases a with
  | compute cpu =>
    obtain rfl := Option.some_inj.1 hs'
    refine ⟨iff_of_true ⟨(h.compute cpu).right, fun c hc => ?_⟩ fun c hc => ?_,
      fun _ => h.compute cpu⟩
    · cases hc
    · cases hc
  | call c =>
    have hkeeps : s.kernel.Switches c → TrackedInv s' ∧ s.kernel.Loads c := fun hc => by
      obtain ⟨s₁, hs₁, hinv, hloads⟩ := h.call_keeps hc
      obtain rfl : s' = s₁ := Option.some_inj.1 (hs'.symm.trans hs₁)
      exact ⟨hinv, hloads⟩
    have hcall : (∀ d, Activity.call c = .call d → s.kernel.Switches d) ↔ s.kernel.Switches c :=
      ⟨fun hd => hd c rfl, fun hc d hd => Activity.call.inj hd ▸ hc⟩
    rw [hcall]
    refine ⟨⟨fun hr => ?_, fun hc => ⟨(hkeeps hc).1.right, fun d hd => ?_⟩⟩,
      fun hc => (hkeeps hc).1⟩
    · by_contra hc
      exact h.call_breaks hc hs' hr.1
    · exact Activity.call.inj hd ▸ (hkeeps hc).2

/-- The contexts are kept, in a run that is one activity longer. -/
theorem contextKept_concat {s₀ s s' : Tracked} {as : List Activity} {a : Activity}
    (hs : run Tracked.step s₀ as = some s) :
    ContextKept s₀ (as ++ [a]) s' ↔
      ContextKept s₀ as s ∧ s'.Right ∧ ∀ c, a = .call c → s.kernel.Loads c := by
  constructor
  · intro h
    have hlast := (makes_concat (b := a) hs).2 (.inr ⟨rfl, rfl⟩)
    refine ⟨⟨fun s₁ b h₁ => ?_, h.before s a hlast, fun s₁ c h₁ => ?_⟩, h.after, fun c hc => ?_⟩
    · exact h.before s₁ b ((makes_concat hs).2 (.inl h₁))
    · exact h.loads s₁ c ((makes_concat hs).2 (.inl h₁))
    · exact h.loads s c (hc ▸ hlast)
  · rintro ⟨h, hright, hloads⟩
    refine ⟨fun s₁ b h₁ => ?_, hright, fun s₁ c h₁ => ?_⟩
    · rcases (makes_concat hs).1 h₁ with h₁ | ⟨rfl, -⟩
      · exact h.before s₁ b h₁
      · exact h.after
    · rcases (makes_concat hs).1 h₁ with h₁ | ⟨rfl, hc⟩
      · exact h.loads s₁ c h₁
      · exact hloads c hc.symm

/-- In every run from a state in which the registers are where they belong, whatever is computed
    between the calls: they stay there exactly if no process is dispatched while none is current,
    and the current one never exits. -/
theorem TrackedInv.run_kept_iff {s₀ : Tracked} (h₀ : TrackedInv s₀) (as : List Activity) :
    ∃ s, run Tracked.step s₀ as = some s ∧ (ContextKept s₀ as s ↔
      ∀ s₁ c, Makes Tracked.step s₀ as s₁ (.call c) → s₁.kernel.Switches c) := by
  suffices ∃ s, run Tracked.step s₀ as = some s ∧ KernelInv s.kernel ∧
      (ContextKept s₀ as s → TrackedInv s) ∧ (ContextKept s₀ as s ↔
        ∀ s₁ c, Makes Tracked.step s₀ as s₁ (.call c) → s₁.kernel.Switches c) by
    obtain ⟨s, hs, -, -, hiff⟩ := this
    exact ⟨s, hs, hiff⟩
  induction as using List.reverseRecOn with
  | nil =>
    refine ⟨s₀, rfl, h₀.inv, fun _ => h₀, iff_of_true ⟨?_, h₀.right, ?_⟩ ?_⟩
    · exact fun s₁ a h => absurd h not_makes_nil
    · exact fun s₁ c h => absurd h not_makes_nil
    · exact fun s₁ c h => absurd h not_makes_nil
  | append_singleton as a ih =>
    obtain ⟨s, hs, hinv, howned, hiff⟩ := ih
    obtain ⟨s', hs', hinv'⟩ := Tracked.step_some hinv a
    have hmakes : (∀ s₁ c, Makes Tracked.step s₀ (as ++ [a]) s₁ (.call c) →
        s₁.kernel.Switches c) ↔ ContextKept s₀ as s ∧ ∀ c, a = .call c → s.kernel.Switches c := by
      rw [hiff]
      refine ⟨fun h => ⟨fun s₁ c h₁ => h s₁ c ((makes_concat hs).2 (.inl h₁)), fun c hc =>
        h s c ((makes_concat hs).2 (.inr ⟨rfl, hc.symm⟩))⟩, ?_⟩
      rintro ⟨h, hlast⟩ s₁ c h₁
      rcases (makes_concat hs).1 h₁ with h₁ | ⟨rfl, hc⟩
      · exact h s₁ c h₁
      · exact hlast c hc.symm
    refine ⟨s', by rw [run_concat, hs, Option.bind_some, hs'], hinv', ?_, ?_⟩
    · intro h
      obtain ⟨h, hlast⟩ := (contextKept_concat hs).1 h
      obtain ⟨hstep, hown⟩ := (howned h).step_iff hs'
      exact hown (hstep.1 hlast)
    · rw [contextKept_concat hs, hmakes]
      exact and_congr_right fun h => ((howned h).step_iff hs').1

/-- In every run after `scheduler_init`, whatever is computed between the calls, the current process
    is the one that executes, none executes after its exit, and the trap frames hold the registers
    of their own processes, exactly if no process is ever dispatched while none is current, and
    the current one never exits. -/
theorem context_kept_iff (s₀ : Kernel) (as : List Activity) :
    ∃ s, run Tracked.step (.start (schedulerInit s₀)) as = some s ∧
      (ContextKept (.start (schedulerInit s₀)) as s ↔
        ∀ s₁ c, Makes Tracked.step (.start (schedulerInit s₀)) as s₁ (.call c) →
        s₁.kernel.Switches c) :=
  (trackedInv_init s₀).run_kept_iff as

/-- The first dispatch: the process is current, and the code that boots goes on. -/
theorem first_dispatch_not_kept : ¬ ∀ (s₀ : Kernel) (as : List Activity), ∃ s,
    run Tracked.step (.start (schedulerInit s₀)) as = some s ∧
      ContextKept (.start (schedulerInit s₀)) as s := by
  intro h
  obtain ⟨s, hs, hkept⟩ := h .boot [.call (.create 0), .call .schedule]
  have hcheck : (run Tracked.step (.start (schedulerInit .boot))
      [.call (.create 0), .call .schedule]).all fun s =>
        s.kernel.currentProc = some 0 ∧ s.executing = .boot := by
    decide +kernel
  rw [hs, Option.all_some, decide_eq_true_iff] at hcheck
  have hexec := hkept.after.current 0 hcheck.1
  rw [hcheck.2] at hexec
  cases hexec

/-! ## After the first dispatch -/

/-- The process that the first dispatch makes current, when the code that goes on is taken for
    its own: the registers are where they belong. -/
theorem TrackedInv.adopt {s s' : Tracked} (h : TrackedInv s) (hcur : s.kernel.currentProc = none)
    {p : Pid} (hs' : s.call .schedule = some s') (hp : s'.kernel.currentProc = some p) :
    TrackedInv { s' with executing := .process (s.holder p) } := by
  obtain ⟨k, hk, hstep⟩ := kernelCall_cases h.inv .schedule
  rw [Tracked.call, hk, Option.map_some, Option.some_inj] at hs'
  simp only [hcur] at hs'
  subst hs'
  have hinv := hstep.inv h.inv
  cases hstep with
  | idle c hcall => rcases hcall with hcall | hcall <;> cases hcall
  | wait hcur' hnone hs =>
    subst hs
    exact absurd (hcur.symm.trans hp) (Option.some_ne_none p).symm
  | switch c d n hcall hcur' =>
    rw [hcur] at hcur'
    cases hcur'
  | first n hcur' hn hle hs =>
    subst hs
    obtain rfl : n = p := Option.some_inj.1 hp
    -- The other processes, and their frames, are as before.
    have hused : ∀ q, (Function.update s.kernel.processes n
        { s.kernel.processes n with state := .running } q).state ≠ .unused →
        (s.kernel.processes q).state ≠ .unused := fun q hq => by
      rcases eq_or_ne q n with rfl | hqn
      · exact hn.used
      · rwa [Function.update_of_ne hqn] at hq
    refine ⟨hinv, ⟨fun q hq => ?_, fun m hm heq => ?_, fun q hq => h.right.frames q (hused q hq)⟩,
      fun hnone => ?_, fun q hq => h.holder q (hused q hq), h.exited⟩
    · obtain rfl : n = q := Option.some_inj.1 hq
      rfl
    · rw [Thread.process.injEq] at heq
      exact (h.holder n hn.used).2 (heq ▸ hm)
    · cases hnone

/-- While none exits, there is a current process. -/
theorem Tracked.step_current {s s' : Tracked} (h : KernelInv s.kernel)
    (hcur : s.kernel.currentProc ≠ none) {a : Activity} (ha : a ≠ .call .exit)
    (hs' : s.step a = some s') : s'.kernel.currentProc ≠ none := by
  cases a with
  | compute cpu =>
    obtain rfl := Option.some_inj.1 hs'
    exact hcur
  | call c =>
    obtain ⟨k, hk, hstep⟩ := kernelCall_cases h c
    have hkernel : s'.kernel = k := by
      have hmap := s.call_kernel c
      rw [show s.call c = some s' from hs', hk, Option.map_some, Option.some_inj] at hmap
      exact hmap
    rw [hkernel]
    cases hstep with
    | create entryPoint i hi hs =>
      subst hs
      exact hcur
    | full entryPoint hfull hs =>
      subst hs
      exact hcur
    | switch c d n hcall hcur hn hle hprocs hcpu hcur' =>
      rw [hcur']
      exact Option.some_ne_none n
    | idle c hcall hnone => exact absurd hnone hcur
    | wait hnone => exact absurd hnone hcur
    | first n hnone => exact absurd hnone hcur
    | exitLast => exact absurd rfl ha
    | exitNext => exact absurd rfl ha

theorem Tracked.run_current {s s' : Tracked} (h : KernelInv s.kernel)
    (hcur : s.kernel.currentProc ≠ none) {as : List Activity} (has : Activity.call .exit ∉ as)
    (hs' : run Tracked.step s as = some s') : s'.kernel.currentProc ≠ none := by
  induction as generalizing s with
  | nil => exact Option.some_inj.1 hs' ▸ hcur
  | cons a as ih =>
    obtain ⟨s₁, hs₁, h₁⟩ := Tracked.step_some h a
    rw [run_cons, hs₁] at hs'
    have hcur₁ := Tracked.step_current h hcur (List.ne_of_not_mem_cons has).symm hs₁
    exact ih h₁ hcur₁ (List.not_mem_of_not_mem_cons has) hs'

/-- From a state whose current process has the registers, the contexts are kept in every run in
    which none exits: a yield switches to the registers of the process that is next. -/
theorem TrackedInv.run_kept {s₀ : Tracked} (h₀ : TrackedInv s₀)
    (hcur : s₀.kernel.currentProc ≠ none) {as : List Activity} (has : Activity.call .exit ∉ as) :
    ∃ s, run Tracked.step s₀ as = some s ∧ ContextKept s₀ as s := by
  obtain ⟨s, hs, hiff⟩ := h₀.run_kept_iff as
  refine ⟨s, hs, hiff.2 ?_⟩
  rintro s₁ c ⟨pre, hpre, hs₁⟩
  have hmem : ∀ a ∈ pre ++ [.call c], a ∈ as := fun a ha => hpre.subset ha
  cases c with
  | create entryPoint => trivial
  | yield => trivial
  | schedule =>
    have hpre' : Activity.call .exit ∉ pre := fun hexit => has (hmem _ (by simp [hexit]))
    exact fun hnone => absurd hnone (Tracked.run_current h₀.inv hcur hpre' hs₁)
  | exit => exact absurd (hmem (.call .exit) (by simp)) has

/-- Two processes. The code that boots goes on as the first one, yields to the second, and this one
    yields back. -/
example :
    let as := [Activity.compute ⟨8, fun _ => 1, 2⟩, .call .yield, .compute ⟨4, fun _ => 5, 6⟩,
      .call .yield]
    ∃ s₀ s, TrackedInv s₀ ∧ run Tracked.step s₀ as = some s ∧ ContextKept s₀ as s ∧
      s.kernel.log = s₀.kernel.log ++ [.switching 1, .switching 0] ∧ s.kernel.cpu.ra = 8 := by
  intro as
  obtain ⟨s₁, hs₁, h₁⟩ := (trackedInv_init .boot).create 0x100
  obtain ⟨s₂, hs₂, h₂⟩ := h₁.create 0x200
  have hstart : (run Tracked.step (.start (schedulerInit .boot))
      [.call (.create 0x100), .call (.create 0x200)]) = some s₂ := by
    rw [run_cons, Tracked.step, hs₁, Option.bind_some, run_cons, Tracked.step, hs₂]
    rfl
  have hcheck : (run Tracked.step (.start (schedulerInit .boot))
      [.call (.create 0x100), .call (.create 0x200)]).all fun s => s.kernel.currentProc = none ∧
        s.holder 0 = 0 ∧ (s.call .schedule).all fun s => s.kernel.currentProc = some 0 ∧
        (run Tracked.step { s with executing := .process 0 } as).all fun s' =>
          s'.kernel.log = s.kernel.log ++ [.switching 1, .switching 0] ∧ s'.kernel.cpu.ra = 8 := by
    decide +kernel
  obtain ⟨s₃, hs₃, -⟩ := Tracked.step_some h₂.inv (.call .schedule)
  rw [hstart, Option.all_some, decide_eq_true_iff, show s₂.call .schedule = some s₃ from hs₃,
    Option.all_some, decide_eq_true_iff] at hcheck
  obtain ⟨hnone, hholder, hcur, hcheck⟩ := hcheck
  have h₃ := h₂.adopt hnone hs₃ hcur
  rw [hholder] at h₃
  have hcur₃ : s₃.kernel.currentProc ≠ none := hcur ▸ Option.some_ne_none 0
  obtain ⟨s, hs, hkept⟩ := h₃.run_kept hcur₃ (show Activity.call .exit ∉ as by simp [as])
  rw [hs, Option.all_some, decide_eq_true_iff] at hcheck
  exact ⟨_, s, h₃, hs, hkept, hcheck⟩

end Fru1tOs
