import Fru1tOs.Cfs.Sched

/-!
# Fairness

How far apart the virtual runtimes of two tasks can be, after a number of
processes is created and ticks follow. `cfs_check_preempt_curr` compares by a
subtraction of unsigned numbers: when the current task, once charged, is still
behind the first queued one, the difference wraps and the task that is behind is
preempted. Two tasks of different weights then move apart without bound
(`two_tasks_apart`).

As long as no subtraction wraps (`Cfs.ChargedAhead`), the current task is at most
`minGranularity` ahead of the first one, and no task is further from another than
that and one charge (`cfs_fair`).
-/

namespace Fru1tOs

open Lib RBTree

/-- The largest charge of one tick, that of 1 ms at weight 15. -/
def maxCharge : ℕ := 68266666

/-- The task is queued or current. -/
def Cfs.Runnable (s : Cfs) (i : Pid) : Prop := s.current = some i ∨ (s.procs i).onRq = true

instance (s : Cfs) (i : Pid) : Decidable (s.Runnable i) := inferInstanceAs (Decidable (_ ∨ _))

/-- No two runnable tasks are further apart than the granularity and one charge. -/
def Cfs.Fair (s : Cfs) : Prop := ∀ i j, s.Runnable i → s.Runnable j →
  (s.procs i).vruntime ≤ (s.procs j).vruntime + minGranularity + maxCharge

instance (s : Cfs) : Decidable s.Fair := inferInstanceAs (Decidable (∀ _ _, _ → _ → _))

/-- What the next tick charges the current task `c`: 1 ms scaled by its weight, or
    nothing if its `exec_start` is zero. -/
def Cfs.charge (s : Cfs) (c : Pid) : ℕ :=
  if (s.procs c).execStart = 0 then 0 else calcDeltaFair 1000000 (s.procs c).weight

/-- At the next tick the current task, once charged, is not behind the first queued
    one, and its virtual runtime does not wrap. -/
def Cfs.ChargedAhead (s : Cfs) : Prop := ∀ c n, s.current = some c → s.leftmost = some n →
  (s.procs n).vruntime ≤ (s.procs c).vruntime + s.charge c ∧
    (s.procs c).vruntime + s.charge c < 2 ^ 64

instance (s : Cfs) : Decidable s.ChargedAhead := inferInstanceAs (Decidable (∀ _ _, _ → _ → _))

/-- The run that initialises the scheduler, creates processes with the given entry
    points and nice values, and makes `n` ticks. -/
def cfsRun (s₀ : Cfs) (procs : List (ℕ × ℤ)) (n : ℕ) : Option Cfs :=
  run cfsCall (cfsInit s₀) (procs.map (fun p => .create p.1 p.2) ++ List.replicate n .tick)

/-! ## Charges -/

/-- A charge of 1 ms. -/
theorem calcDeltaFair_le {w : ℕ} (hw : 15 ≤ w) : calcDeltaFair 1000000 w ≤ maxCharge := by
  rw [calcDeltaFair, maxCharge, nice0Load]
  split_ifs
  · exact (Nat.div_le_div_left hw (by decide)).trans (by decide)
  · decide

theorem charge_le {s : Cfs} {t : RBTree Pid} (h : Sched s t) {c : Pid} (hcur : s.current = some c) :
    s.charge c ≤ maxCharge := by
  rw [Cfs.charge]
  split_ifs
  · exact Nat.zero_le _
  · exact calcDeltaFair_le (h.weight c (h.current_ne_unused hcur)).1

/-- A task that was last charged at the last reading of the clock is charged for 1 ms. -/
theorem elapsed_eq {s : Cfs} {c : Pid} (h : (s.procs c).execStart = s.counter)
    (hlt : s.counter < 2 ^ 64) : s.elapsed c = 1000000 := by
  rw [Cfs.elapsed, Cfs.clock, h]
  omega

theorem charged_vruntime {s : Cfs} {c : Pid} (h : (s.procs c).execStart = s.counter)
    (hlt : s.counter < 2 ^ 64) (hv : (s.procs c).vruntime + s.charge c < 2 ^ 64) :
    (s.charged c).vruntime = (s.procs c).vruntime + s.charge c := by
  rw [Cfs.charge] at hv ⊢
  rw [Cfs.charged]
  split_ifs at hv ⊢ with h0
  · rfl
  · rw [Cfs.chargedVruntime, elapsed_eq h hlt, Nat.mod_eq_of_lt hv]

/-! ## The invariant -/

/-- The invariant of the ticks: the current task was last charged at the last reading
    of the clock and is at most the granularity ahead of the queued ones, and no task
    is further from another than the bound. -/
structure FairInv (s : Cfs) (t : RBTree Pid) : Prop where
  sched : Sched s t
  execStart : ∀ c, s.current = some c → (s.procs c).execStart = s.counter ∧ s.counter < 2 ^ 64
  ahead : ∀ c, s.current = some c → ∀ i ∈ t.toList,
    (s.procs c).vruntime ≤ (s.procs i).vruntime + minGranularity
  spread : ∀ i j, s.Runnable i → s.Runnable j →
    (s.procs i).vruntime ≤ (s.procs j).vruntime + minGranularity + maxCharge

variable {s : Cfs} {t : RBTree Pid}

theorem Sched.runnable_iff (h : Sched s t) (i : Pid) :
    s.Runnable i ↔ s.current = some i ∨ i ∈ t.toList := by
  rw [Cfs.Runnable, h.queue.mem_iff]

/-- The first task has the least virtual runtime of the queue. -/
theorem Queue.first_le (h : Queue s t) {n : Pid} {l : List Pid} (hl : t.toList = n :: l) {i : Pid}
    (hi : i ∈ t.toList) : (s.procs n).vruntime ≤ (s.procs i).vruntime := by
  have hsorted := h.sorted
  rw [hl] at hsorted hi
  rcases List.mem_cons.1 hi with rfl | hi
  · exact le_rfl
  · exact ((List.pairwise_cons.1 hsorted).1 i hi).le

/-- A dispatch on an idle processor. -/
theorem FairInv.dispatch (h : FairInv s t) {s' : Cfs} {t' : RBTree Pid} (hsched : Sched s' t')
    {n : Pid} {l : List Pid} (hl : t.toList = n :: l)
    (hcur' : s'.current = some n) (hl' : t'.toList = l) (hcounter : s'.counter = s.clock)
    (hprocs : s'.procs = Function.update s.procs n { s.procs n with
      onRq := false, state := .running, execStart := s'.counter }) : FairInv s' t' := by
  have hv : ∀ i, (s'.procs i).vruntime = (s.procs i).vruntime := fun i => by
    rw [hprocs]
    by_cases hi : i = n
    · rw [hi, Function.update_self]
    · rw [Function.update_of_ne hi]
  have hrun : ∀ i, s'.Runnable i → s.Runnable i := fun i hi => by
    rw [hsched.runnable_iff, hcur', hl', Option.some_inj] at hi
    rw [h.sched.runnable_iff, hl, List.mem_cons]
    exact .inr (hi.imp Eq.symm id)
  refine ⟨hsched, fun c hc => ?_, fun c hc i hi => ?_, fun i j hi hj => ?_⟩
  · obtain rfl : n = c := by rwa [hcur', Option.some_inj] at hc
    rw [hprocs, Function.update_self]
    refine ⟨rfl, ?_⟩
    rw [hcounter, Cfs.clock]
    exact Nat.mod_lt _ (by decide)
  · obtain rfl : n = c := by rwa [hcur', Option.some_inj] at hc
    rw [hv, hv]
    have hle := h.sched.queue.first_le hl (i := i) (by
      rw [hl, ← hl']
      exact List.mem_cons_of_mem _ hi)
    omega
  · rw [hv, hv]
    exact h.spread i j (hrun i hi) (hrun j hj)

/-- A charge that does not put the current task too far ahead. -/
theorem FairInv.goOn (h : FairInv s t) (hahead : s.ChargedAhead) {c : Pid}
    (hcur : s.current = some c)
    (hstay : ∀ n l, t.toList = n :: l → cfsCheckPreemptCurr (cfsUpdateCurr s c) c n = false) :
    FairInv (cfsUpdateCurr s c) t := by
  obtain ⟨hprocs, hcounter, -, -, -, -, hcur', -⟩ := cfsUpdateCurr_frame s c
  have hsched := h.sched.updateCurr hcur
  rw [hcur] at hcur'
  have hv : ∀ i, i ≠ c → ((cfsUpdateCurr s c).procs i).vruntime = (s.procs i).vruntime :=
    fun i hi => by rw [hprocs, Function.update_of_ne hi]
  have hvc : ((cfsUpdateCurr s c).procs c).vruntime = (s.charged c).vruntime := by
    rw [hprocs, Function.update_self]
  have hne : ∀ i ∈ t.toList, i ≠ c := fun i hi hic => h.sched.current_not_mem hcur (hic ▸ hi)
  -- With a queued task, the current one is between the first and the granularity above it.
  have hbetween : ∀ n l, t.toList = n :: l →
      (s.procs n).vruntime ≤ (s.charged c).vruntime ∧
        (s.charged c).vruntime ≤ (s.procs n).vruntime + minGranularity ∧
        (s.procs c).vruntime ≤ (s.charged c).vruntime := fun n l hl => by
    have hleft : s.leftmost = some n := by rw [h.sched.queue.leftmost, hl, List.head?_cons]
    obtain ⟨hge, hlt⟩ := hahead c n hcur hleft
    have hcharged := charged_vruntime (h.execStart c hcur).1 (h.execStart c hcur).2 hlt
    have hcheck := hstay n l hl
    rw [cfsCheckPreemptCurr, hvc, hv n (hne n (by rw [hl]; exact List.mem_cons_self)),
      decide_eq_false_iff_not] at hcheck
    rw [hcharged] at hcheck ⊢
    omega
  refine ⟨hsched, fun d hd => ?_, fun d hd i hi => ?_, fun i j hi hj => ?_⟩
  · obtain rfl : c = d := by rwa [hcur', Option.some_inj] at hd
    rw [hprocs, Function.update_self, hcounter, Cfs.charged]
    refine ⟨?_, Nat.mod_lt _ (by decide)⟩
    split_ifs <;> rfl
  · obtain rfl : c = d := by rwa [hcur', Option.some_inj] at hd
    obtain ⟨n, l, hl⟩ := List.exists_cons_of_ne_nil (List.ne_nil_of_mem hi)
    have hle := h.sched.queue.first_le hl hi
    have := hbetween n l hl
    rw [hvc, hv i (hne i hi)]
    omega
  · rw [hsched.runnable_iff, hcur', Option.some_inj] at hi hj
    have hold : ∀ i j, i ∈ t.toList ∨ i = c → j ∈ t.toList ∨ j = c →
        (s.procs i).vruntime ≤ (s.procs j).vruntime + minGranularity + maxCharge := fun i j hi hj =>
      h.spread i j ((h.sched.runnable_iff i).2 (hi.elim .inr fun hi => .inl (by rw [hi, hcur])))
        ((h.sched.runnable_iff j).2 (hj.elim .inr fun hj => .inl (by rw [hj, hcur])))
    rcases hi with rfl | hi
    · rcases hj with rfl | hj
      · omega
      · obtain ⟨n, l, hl⟩ := List.exists_cons_of_ne_nil (List.ne_nil_of_mem hj)
        have hle := h.sched.queue.first_le hl hj
        have := hbetween n l hl
        rw [hvc, hv j (hne j hj)]
        omega
    · rcases hj with rfl | hj
      · obtain ⟨n, l, hl⟩ := List.exists_cons_of_ne_nil (List.ne_nil_of_mem hi)
        have := hbetween n l hl
        have := hold i c (.inl hi) (.inr rfl)
        rw [hvc, hv i (hne i hi)]
        omega
      · rw [hv i (hne i hi), hv j (hne j hj)]
        exact hold i j (.inl hi) (.inl hj)

/-- The current task is charged, and replaced by the first one. -/
theorem FairInv.switch (h : FairInv s t) (hahead : s.ChargedAhead) {s' : Cfs} {t' : RBTree Pid}
    (hsched : Sched s' t') {c n : Pid} {l : List Pid} (hcur : s.current = some c)
    (hl : t.toList = n :: l) (hcur' : s'.current = some n) (hl' : t'.toList.Perm (c :: l))
    (hcounter : s'.counter = (cfsUpdateCurr s c).clock)
    (hprocs : s'.procs = Function.update (Function.update s.procs c { s.charged c with
      onRq := true, state := .ready, execStart := 0 }) n { s.procs n with
      onRq := false, state := .running, execStart := s'.counter }) : FairInv s' t' := by
  have hleft : s.leftmost = some n := by rw [h.sched.queue.leftmost, hl, List.head?_cons]
  obtain ⟨hge, hlt⟩ := hahead c n hcur hleft
  have hnmem : n ∈ t.toList := by rw [hl]; exact List.mem_cons_self
  have hnc : n ≠ c := fun hnc => h.sched.current_not_mem hcur (hnc ▸ hnmem)
  have hvc : (s'.procs c).vruntime = (s.procs c).vruntime + s.charge c := by
    rw [hprocs, Function.update_of_ne hnc.symm, Function.update_self]
    exact charged_vruntime (h.execStart c hcur).1 (h.execStart c hcur).2 hlt
  have hv : ∀ i, i ≠ c → (s'.procs i).vruntime = (s.procs i).vruntime := fun i hi => by
    rw [hprocs]
    by_cases hin : i = n
    · rw [hin, Function.update_self]
    · rw [Function.update_of_ne hin, Function.update_of_ne hi]
  have hcharge := charge_le h.sched hcur
  have hcn := h.ahead c hcur n hnmem
  -- The tasks other than the charged one were queued, and the first is the least of them.
  have hmem : ∀ i, s'.Runnable i → i = c ∨ (i ≠ c ∧ i ∈ t.toList) := fun i hi => by
    rw [hsched.runnable_iff, hcur', hl'.mem_iff, List.mem_cons, Option.some_inj] at hi
    by_cases hic : i = c
    · exact .inl hic
    · rw [hl, List.mem_cons]
      exact .inr ⟨hic, hi.imp Eq.symm fun hi => hi.resolve_left hic⟩
  refine ⟨hsched, fun d hd => ?_, fun d hd i hi => ?_, fun i j hi hj => ?_⟩
  · obtain rfl : n = d := by rwa [hcur', Option.some_inj] at hd
    rw [hprocs, Function.update_self]
    refine ⟨rfl, ?_⟩
    rw [hcounter]
    exact Nat.mod_lt _ (by decide)
  · obtain rfl : n = d := by rwa [hcur', Option.some_inj] at hd
    rw [hv n hnc]
    rcases hmem i ((hsched.runnable_iff i).2 (.inr hi)) with rfl | ⟨hic, hi⟩
    · rw [hvc]
      omega
    · have := h.sched.queue.first_le hl hi
      rw [hv i hic]
      omega
  · rcases hmem i hi with rfl | ⟨hic, hit⟩
    · rcases hmem j hj with rfl | ⟨hjc, hjt⟩
      · omega
      · have := h.sched.queue.first_le hl hjt
        rw [hvc, hv j hjc]
        omega
    · have hsi : s.Runnable i := (h.sched.runnable_iff i).2 (.inr hit)
      rcases hmem j hj with rfl | ⟨hjc, hjt⟩
      · have := h.spread i j hsi (.inl hcur)
        rw [hvc, hv i hic]
        omega
      · rw [hv i hic, hv j hjc]
        exact h.spread i j hsi ((h.sched.runnable_iff j).2 (.inr hjt))

/-- A tick at which the current task does not fall behind keeps the invariant. -/
theorem FairInv.tick (h : FairInv s t) (hahead : s.ChargedAhead) :
    ∃ s' t', cfsSchedulerTick s = some s' ∧ FairInv s' t' := by
  obtain ⟨s', t', hs', hsched, hstep⟩ := cfsSchedulerTick_cases h.sched
  refine ⟨s', t', hs', ?_⟩
  cases hstep with
  | idle hcur hl hs =>
    subst hs
    refine ⟨hsched, h.execStart, fun c hc => ?_, h.spread⟩
    rw [hcur] at hc
    cases hc
  | dispatch n l hcur hl hcur' hl' hcounter hprocs hmin =>
    exact h.dispatch hsched hl hcur' hl' hcounter hprocs
  | goOn c hcur hs ht hstay =>
    subst hs ht
    exact h.goOn hahead hcur hstay
  | switch c n l hcur hl hpreempt hcur' hl' hcounter hprocs hmin =>
    exact h.switch hahead hsched hcur hl hcur' hl' hcounter hprocs

/-! ## Runs -/

/-- Before the first tick, every virtual runtime is zero. -/
structure Unstarted (s : Cfs) : Prop where
  sched : ∃ t, Sched s t
  current : s.current = none
  minVruntime : s.minVruntime = 0
  vruntime : ∀ i, (s.procs i).vruntime = 0

theorem Unstarted.create {s : Cfs} (h : Unstarted s) (entry : ℕ) (nice : ℤ) :
    ∃ s', cfsCall s (.create entry nice) = some s' ∧ Unstarted s' := by
  obtain ⟨t, ht⟩ := h.sched
  obtain ⟨r, s', t', hs', hsched, hcase⟩ := cfsCreateProcess_cases entry nice ht
  refine ⟨s', by rw [cfsCall, hs', Option.map_some], ?_⟩
  rcases hcase with ⟨-, -, rfl, -⟩ | ⟨i, -, -, hprocs, hcur, hmin, -⟩
  · exact ⟨⟨t', hsched⟩, h.current, h.minVruntime, h.vruntime⟩
  · refine ⟨⟨t', hsched⟩, hcur.trans h.current, hmin.trans h.minVruntime, fun j => ?_⟩
    rw [hprocs]
    by_cases hj : j = i
    · rw [hj, Function.update_self]
      exact h.minVruntime
    · rw [Function.update_of_ne hj]
      exact h.vruntime j

theorem Unstarted.fairInv {s : Cfs} (h : Unstarted s) : ∃ t, FairInv s t := by
  obtain ⟨t, ht⟩ := h.sched
  refine ⟨t, ht, fun c hc => ?_, fun c hc => ?_, fun i j _ _ => ?_⟩
  · rw [h.current] at hc
    cases hc
  · rw [h.current] at hc
    cases hc
  · rw [h.vruntime, h.vruntime]
    omega

/-- The creations of a run. -/
theorem cfsRun_zero (s₀ : Cfs) (procs : List (ℕ × ℤ)) :
    ∃ s, cfsRun s₀ procs 0 = some s ∧ Unstarted s := by
  have hinit : Unstarted (cfsInit s₀) := ⟨⟨nil, sched_init s₀⟩, rfl, rfl, fun _ => rfl⟩
  rw [cfsRun, List.replicate_zero, List.append_nil]
  generalize cfsInit s₀ = s at hinit
  induction procs generalizing s with
  | nil => exact ⟨s, rfl, hinit⟩
  | cons p procs ih =>
    obtain ⟨s', hs', h'⟩ := hinit.create p.1 p.2
    rw [List.map_cons, run_cons, hs', Option.bind_some]
    exact ih s' h'

theorem cfsRun_succ (s₀ : Cfs) (procs : List (ℕ × ℤ)) (n : ℕ) :
    cfsRun s₀ procs (n + 1) = (cfsRun s₀ procs n).bind cfsSchedulerTick := by
  rw [cfsRun, List.replicate_succ', ← List.append_assoc, run_concat]
  rfl

/-- In a run in which the current task, when it is charged, never falls behind the
    first queued one, no two runnable tasks are further apart than the granularity and
    one charge, after any number of ticks. -/
theorem cfs_fair (s₀ : Cfs) (procs : List (ℕ × ℤ)) (n : ℕ)
    (hahead : ∀ k < n, ∀ s, cfsRun s₀ procs k = some s → s.ChargedAhead) :
    ∃ s, cfsRun s₀ procs n = some s ∧ s.Fair := by
  -- By induction on the number of ticks, with the invariant of the ticks.
  suffices ∃ s, cfsRun s₀ procs n = some s ∧ ∃ t, FairInv s t by
    obtain ⟨s, hs, t, ht⟩ := this
    exact ⟨s, hs, ht.spread⟩
  induction n with
  | zero =>
    obtain ⟨s, hs, h⟩ := cfsRun_zero s₀ procs
    exact ⟨s, hs, h.fairInv⟩
  | succ n ih =>
    obtain ⟨s, hs, t, ht⟩ := ih fun k hk => hahead k (Nat.lt_succ_of_lt hk)
    obtain ⟨s', t', hs', ht'⟩ := ht.tick (hahead n n.lt_succ_self s hs)
    exact ⟨s', by rw [cfsRun_succ, hs, Option.bind_some, hs'], t', ht'⟩

/-- The state of the scheduler when the machine starts: zeros. -/
def Cfs.boot : Cfs where
  timeline := { mem := fun _ => ⟨none, none, none, .red⟩, root := none }
  leftmost := none
  minVruntime := 0
  nrRunning := 0
  totalWeight := 0
  current := none
  procs _ := ⟨0, .unused, 0, 0, 0, 0, 0, false, 0⟩
  counter := 0
  log := []

/-- Two tasks of nice 0, three ticks. -/
theorem cfs_fair_two_tasks : ∃ s, cfsRun .boot [(0, 0), (0, 0)] 3 = some s ∧ s.Fair := by
  have hall : ∀ k < 3, (cfsRun .boot [(0, 0), (0, 0)] k).all (fun s => decide s.ChargedAhead) := by
    decide +kernel
  refine cfs_fair .boot [(0, 0), (0, 0)] 3 fun k hk s hs => ?_
  have hk := hall k hk
  rw [hs] at hk
  simpa using hk

/-- A task of nice 0 and one of nice 19, six ticks: the latter is preferred although it
    is ahead, as the former is behind it when it is charged. -/
theorem two_tasks_apart : ¬ ∀ (s₀ : Cfs) (procs : List (ℕ × ℤ)) (n : ℕ),
    ∃ s, cfsRun s₀ procs n = some s ∧ s.Fair := by
  intro h
  obtain ⟨s, hs, hfair⟩ := h .boot [(0, 0), (0, 19)] 6
  have hapart : (cfsRun .boot [(0, 0), (0, 19)] 6).all (fun s => decide ¬ s.Fair) := by
    decide +kernel
  rw [hs] at hapart
  exact absurd hfair (by simpa using hapart)

end Fru1tOs
