import Fru1tOs.Cfs.MinVruntime

/-!
# Freedom from starvation

A queued task gets the processor after a bounded number of ticks, however many
processes are created meanwhile.

The rank of a slot is the number of ticks by which its task can be charged before it is
ahead of the queued task `p` by more than the granularity (`slotRank`); a free slot has the
rank of a task at the floor, which no virtual runtime is below. After a tick that does not
dispatch `p`, the current task has not used up its rank (`Clocked.tick_close`): it stays
because it is close to the first queued task, or it is that task itself, and neither is
ahead of `p`. So every tick but the first one decreases the sum of the ranks, which a creation
does not increase, and `run_reaches` bounds the ticks (`cfs_no_starvation`).
-/

namespace Fru1tOs

open Lib RBTree

/-- The least charge of a tick, that of the greatest weight. -/
def minCharge : ℕ := 11536

theorem minCharge_le {w : ℕ} (h15 : 15 ≤ w) (hw : w ≤ 88761) : minCharge ≤ tickCharge w := by
  rw [tickCharge, nice0Load, minCharge, Nat.le_div_iff_mul_le (by omega)]
  omega

/-- No task is below `m`, neither a created one nor the next one to be created. -/
structure Cfs.Floor (s : Cfs) (m : ℕ) : Prop where
  min : m ≤ s.minVruntime
  created : ∀ i, (s.procs i).state ≠ .unused → m ≤ (s.procs i).vruntime

/-- The ticks for which a task that is `d` below the limit can be charged until it is past it. -/
def chargesLeft (d : ℕ) : ℕ := d / minCharge + 1

theorem chargesLeft_mono {d e : ℕ} (h : d ≤ e) : chargesLeft d ≤ chargesLeft e :=
  Nat.succ_le_succ (Nat.div_le_div_right h)

/-- The ticks for which a task of virtual runtime `u` can be charged until it is past `limit`. -/
def taskRank (limit u : ℕ) : ℕ := if u ≤ limit then chargesLeft (limit - u) else 0

theorem taskRank_anti {limit u u' : ℕ} (h : u ≤ u') : taskRank limit u' ≤ taskRank limit u := by
  rw [taskRank, taskRank]
  split_ifs with h₁ h₂
  · exact chargesLeft_mono (by omega)
  · omega
  · exact Nat.zero_le _
  · exact le_rfl

/-- A charge uses up a tick. -/
theorem taskRank_charge {limit u d : ℕ} (hu : u ≤ limit) (hd : minCharge ≤ d) :
    taskRank limit (u + d) + 1 ≤ taskRank limit u := by
  rw [taskRank, taskRank, if_pos hu]
  split_ifs with h
  · have hle : limit - (u + d) + minCharge ≤ limit - u := by omega
    have := Nat.div_le_div_right (c := minCharge) hle
    rw [Nat.add_div_right _ (by decide)] at this
    exact Nat.succ_le_succ this
  · exact Nat.succ_le_succ (Nat.zero_le _)

/-- The rank of the slot `i`: that of its task, or of a task at the floor `m`. -/
def Cfs.slotRank (s : Cfs) (limit m : ℕ) (i : Pid) : ℕ :=
  if (s.procs i).state = .unused then taskRank limit m else taskRank limit (s.procs i).vruntime

/-- The ranks of the slots other than that of `p`, together. -/
def Cfs.rivals (s : Cfs) (p : Pid) (limit m : ℕ) : ℕ :=
  ∑ i ∈ Finset.univ.erase p, s.slotRank limit m i

/-- The current task has not used up its rank. -/
def Cfs.Close (s : Cfs) (limit : ℕ) : Prop := ∃ c, s.current = some c ∧ (s.procs c).vruntime ≤ limit

instance (s : Cfs) (limit : ℕ) : Decidable (s.Close limit) :=
  inferInstanceAs (Decidable (∃ _, _ ∧ _))

variable {s s' : Cfs} {t t' : RBTree Pid} {p : Pid} {limit m : ℕ}

theorem Cfs.Floor.slotRank_le (h : s.Floor m) (i : Pid) :
    s.slotRank limit m i ≤ taskRank limit m := by
  rw [Cfs.slotRank]
  split_ifs with hi
  · exact le_rfl
  · exact taskRank_anti (h.created i hi)

/-- At first, no slot has more than the rank of a task at the floor. -/
theorem Cfs.Floor.rivals_le (h : s.Floor m) (p : Pid) (limit : ℕ) :
    s.rivals p limit m ≤ (maxProcesses - 1) * taskRank limit m := by
  calc s.rivals p limit m
      _ ≤ (Finset.univ.erase p).card * taskRank limit m :=
        Finset.sum_le_card_nsmul _ _ _ fun i _ => h.slotRank_le i
      _ = (maxProcesses - 1) * taskRank limit m := by simp

/-! ## Ticks -/

/-- No task goes back at a tick. -/
theorem Charges.le (h : Charges s s') (i : Pid) : (s.procs i).vruntime ≤ (s'.procs i).vruntime := by
  by_cases hi : s.current = some i
  · rw [(h.current i hi).2.2.2]
    exact Nat.le_add_right _ _
  · exact (h.others i hi).2.ge

theorem Cfs.Floor.tick (h : s.Floor m) (hmin : s.minVruntime ≤ s'.minVruntime)
    (hch : Charges s s') (hsame : SameTasks s s') : s'.Floor m where
  min := h.min.trans hmin
  created i hi := (h.created i (mt (hsame.state i).2 hi)).trans (hch.le i)

theorem Charges.slotRank_le (h : Charges s s') (hsame : SameTasks s s') (i : Pid) :
    s'.slotRank limit m i ≤ s.slotRank limit m i := by
  rw [Cfs.slotRank, Cfs.slotRank, if_congr (hsame.state i) rfl rfl]
  split_ifs
  · exact le_rfl
  · exact taskRank_anti (h.le i)

/-- A tick with another current task than `p` uses up one of its charges. -/
theorem Charges.rivals_lt (h : Charges s s') (hsame : SameTasks s s') (hsched : Sched s t)
    (hclose : s.Close limit) (hp : s.current ≠ some p) :
    s'.rivals p limit m + 1 ≤ s.rivals p limit m := by
  obtain ⟨c, hcur, hle⟩ := hclose
  have hcp : c ≠ p := fun hcp => hp (by rw [hcur, hcp])
  have hused := hsched.current_ne_unused hcur
  refine Finset.sum_lt_sum (fun i _ => h.slotRank_le hsame i)
    ⟨c, Finset.mem_erase.2 ⟨hcp, Finset.mem_univ c⟩, ?_⟩
  rw [Cfs.slotRank, Cfs.slotRank, if_neg hused, if_neg (mt (hsame.state c).1 hused),
    (h.current c hcur).2.2.2]
  obtain ⟨hmin, hmax⟩ := hsched.weight c hused
  exact taskRank_charge hle (minCharge_le hmin hmax)

/-- After a tick that does not dispatch the queued task `p`, the current task is not ahead of it
    by more than the granularity. -/
theorem Clocked.tick_close (h : Clocked s t) (hp : (s.procs p).onRq = true)
    (hs' : cfsSchedulerTick s = some s') (hch : Charges s s') (hnot : s'.current ≠ some p) :
    s'.Close ((s.procs p).vruntime + minGranularity) := by
  have hpt : p ∈ t.toList := (h.sched.queue.mem_iff p).2 hp
  obtain ⟨s₁, t', hs₁, -, hstep⟩ := cfsSchedulerTick_cases h.sched
  obtain rfl : s' = s₁ := Option.some_inj.1 (hs'.symm.trans hs₁)
  -- A task that is dispatched was the first one of the queue.
  have hfirst : ∀ n l, t.toList = n :: l → s.current ≠ some n → s'.current = some n →
      s'.Close ((s.procs p).vruntime + minGranularity) := fun n l hl hn hcur' => by
    refine ⟨n, hcur', ?_⟩
    rw [(hch.others n hn).2]
    exact (h.sched.queue.first_le hl hpt).trans (Nat.le_add_right _ _)
  cases hstep with
  | idle hcur hl hs =>
    rw [hl] at hpt
    cases hpt
  | dispatch n l hcur hl hcur' hl' hcounter hprocs hmin =>
    exact hfirst n l hl (by rw [hcur]; simp) hcur'
  | switch c n l hcur hl hpreempt hcur' hl' hcounter hprocs hmin =>
    exact hfirst n l hl (h.sched.first hl).2 hcur'
  | goOn c hcur hs ht hstay =>
    subst hs ht
    obtain ⟨n, l, hl⟩ := List.exists_cons_of_ne_nil (List.ne_nil_of_mem hpt)
    have hcheck := hstay n l hl
    rw [Bool.eq_false_iff, Ne, checkPreempt_iff_behind (h.updateCurr_vruntime_lt hcur)] at hcheck
    have hn := (hch.others n (h.sched.first hl).2).2
    have hnp := h.sched.queue.first_le hl hpt
    refine ⟨c, (cfsUpdateCurr_frame s c).2.2.2.2.2.2.1.trans hcur, ?_⟩
    omega

/-! ## Creations -/

theorem Cfs.Floor.create (h : s.Floor m) (hsched : Sched s t) {entry : ℕ} {nice : ℤ}
    {r : Option Pid} (hs' : cfsCreateProcess s entry nice = some (r, s')) (limit : ℕ) :
    s'.Floor m ∧ ∀ i, s'.slotRank limit m i ≤ s.slotRank limit m i := by
  obtain ⟨r₁, s₁, t₁, hs₁, -, hcase⟩ := cfsCreateProcess_cases entry nice hsched
  rw [hs', Option.some_inj, Prod.mk.injEq] at hs₁
  obtain ⟨rfl, rfl⟩ := hs₁
  rcases hcase with ⟨-, -, rfl, -⟩ | ⟨i, -, hiu, hprocs, -, hmin, -⟩
  · exact ⟨⟨h.min, h.created⟩, fun _ => le_rfl⟩
  · have hother : ∀ j, j ≠ i → s'.procs j = s.procs j := fun j hji => by
      rw [hprocs, Function.update_of_ne hji]
    have hself : s'.procs i = s.fresh entry nice i := by rw [hprocs, Function.update_self]
    refine ⟨⟨hmin ▸ h.min, fun j hj => ?_⟩, fun j => ?_⟩
    · rcases eq_or_ne j i with rfl | hji
      · rw [hself]
        exact h.min
      · rw [hother j hji] at hj ⊢
        exact h.created j hj
    · rcases eq_or_ne j i with rfl | hji
      · rw [Cfs.slotRank, Cfs.slotRank, if_pos hiu, hself]
        exact taskRank_anti h.min
      · rw [Cfs.slotRank, Cfs.slotRank, hother j hji]

/-! ## Runs -/

section Bounded

variable {c₀ n : ℕ}

/-- How far the counters can get in `n` ticks, the clock starting at `c₀`. -/
structure Cfs.CountersLe (s : Cfs) (c₀ n : ℕ) : Prop where
  counter : s.counter ≤ c₀ + 2000000 * n
  min : s.minVruntime ≤ maxCharge * n
  vruntime : ∀ i, (s.procs i).state ≠ .unused → (s.procs i).vruntime ≤ maxCharge * n
  runtime : ∀ i, (s.procs i).state ≠ .unused → (s.procs i).sumExecRuntime ≤ 1000000 * n

/-- The counters of 64 bits are not used up by `n` ticks. -/
def Fits (c₀ n : ℕ) : Prop := c₀ + maxCharge * n < 2 ^ 64

theorem Fits.mono {k : ℕ} (h : Fits c₀ n) (hk : k ≤ n) : Fits c₀ k :=
  (Nat.add_le_add_left (Nat.mul_le_mul_left _ hk) _).trans_lt h

theorem updateMinVruntime_le_of_le {b : ℕ} (hmin : s.minVruntime ≤ b)
    (hcur : ∀ c, s.current = some c → (s.procs c).vruntime ≤ b)
    (hleft : ∀ l, s.leftmost = some l → (s.procs l).vruntime ≤ b) :
    (updateMinVruntime s).minVruntime ≤ b := by
  cases hc : s.current with
  | some c => exact updateMinVruntime_le hc hmin (.inl (hcur c hc))
  | none =>
    simp only [updateMinVruntime, hc]
    cases hl : s.leftmost with
    | none => simpa using hmin
    | some l =>
      have := hleft l hl
      dsimp only
      split_ifs <;> omega

/-- A charge does not wrap as long as the counters fit. -/
theorem Clocked.charged_le (h : Clocked s t) (hle : s.CountersLe c₀ n) (hfits : Fits c₀ (n + 1))
    {c : Pid} (hcur : s.current = some c) :
    (s.procs c).vruntime ≤ (s.charged c).vruntime ∧
      (s.charged c).vruntime ≤ maxCharge * (n + 1) ∧
      (s.procs c).sumExecRuntime ≤ (s.charged c).sumExecRuntime := by
  have hused := h.sched.current_ne_unused hcur
  have hv := hle.vruntime c hused
  have hsum := hle.runtime c hused
  have hcharge := calcDeltaFair_le (h.sched.weight c hused).1
  rw [calcDeltaFair_eq] at hcharge
  rw [Fits] at hfits
  have hmax : 1000000 ≤ maxCharge := by decide
  have hv' : (s.procs c).vruntime + tickCharge (s.procs c).weight < 2 ^ 64 := by
    rw [mul_add] at hfits
    omega
  have hsum' : (s.procs c).sumExecRuntime + 1000000 < 2 ^ 64 := by
    have := Nat.mul_le_mul_right n hmax
    rw [mul_add] at hfits
    omega
  have h0 := h.execStart_ne_zero hcur
  rw [Cfs.charged, if_neg h0, Cfs.chargedVruntime, h.elapsed hcur, calcDeltaFair_eq,
    Nat.mod_eq_of_lt hv']
  dsimp only
  rw [Nat.mod_eq_of_lt hsum']
  exact ⟨Nat.le_add_right _ _, by rw [mul_add]; omega, Nat.le_add_right _ _⟩

/-- A charge moves the counters by at most those of one tick. -/
theorem Clocked.updateCurr_le (h : Clocked s t) (hle : s.CountersLe c₀ n)
    (hfits : Fits c₀ (n + 1)) {c : Pid} (hcur : s.current = some c) :
    (∀ i, (s.procs i).state ≠ .unused →
      ((cfsUpdateCurr s c).procs i).vruntime ≤ maxCharge * (n + 1)) ∧
    (cfsUpdateCurr s c).minVruntime ≤ maxCharge * (n + 1) ∧ s.clock = s.counter + 1000000 := by
  obtain ⟨-, hcharged, -⟩ := h.charged_le hle hfits hcur
  have hprocs := (cfsUpdateCurr_frame s c).1
  have hall : ∀ i, (s.procs i).state ≠ .unused →
      ((cfsUpdateCurr s c).procs i).vruntime ≤ maxCharge * (n + 1) := fun i hi => by
    rw [hprocs]
    rcases eq_or_ne i c with rfl | hic
    · rw [Function.update_self]
      exact hcharged
    · rw [Function.update_of_ne hic]
      exact (hle.vruntime i hi).trans (Nat.mul_le_mul_left _ n.le_succ)
  refine ⟨hall, ?_, ?_⟩
  · rw [minVruntime_updateCurr (h.execStart_ne_zero hcur)]
    rw [hprocs] at hall
    refine updateMinVruntime_le_of_le (hle.min.trans (Nat.mul_le_mul_left _ n.le_succ))
      (fun d hd => ?_) fun l hl => ?_
    · obtain rfl : c = d := Option.some_inj.1 (hcur.symm.trans hd)
      exact hall c (h.sched.current_ne_unused hcur)
    · rw [Cfs.modify_leftmost] at hl
      exact hall l (h.sched.queued_ne_unused (List.mem_of_mem_head? (h.sched.queue.leftmost ▸ hl)))
  · have hcounter := hle.counter
    rw [Fits, maxCharge] at hfits
    rw [Cfs.clock]
    omega

/-- At a tick that fits, no counter wraps. -/
theorem Clocked.unwrapped (h : Clocked s t) (hle : s.CountersLe c₀ n) (hfits : Fits c₀ (n + 1))
    (hs' : cfsSchedulerTick s = some s') :
    s.Unwrapped s' ∧ s'.counter ≤ c₀ + 2000000 * (n + 1) ∧
      s'.minVruntime ≤ maxCharge * (n + 1) := by
  obtain ⟨s₁, t', hs₁, hsched', hstep⟩ := cfsSchedulerTick_cases h.sched
  obtain rfl : s' = s₁ := Option.some_inj.1 (hs'.symm.trans hs₁)
  have hcounter := hle.counter
  have hmin := hle.min.trans (Nat.mul_le_mul_left maxCharge n.le_succ)
  have hclock : ∀ u : Cfs, u.counter ≤ s.counter + 1000000 → u.clock = u.counter + 1000000 := by
    intro u hu
    rw [Fits, maxCharge] at hfits
    rw [Cfs.clock]
    omega
  cases hstep with
  | idle hcur hl hs =>
    subst hs
    exact ⟨⟨le_rfl, fun _ => le_rfl, fun _ => le_rfl⟩, by omega, hmin⟩
  | dispatch k l hcur hl hcur' hl' hcounter' hprocs hmin' =>
    rw [hclock s (Nat.le_add_right _ _)] at hcounter'
    refine ⟨⟨by omega, fun i => ?_, fun i => ?_⟩, by omega, ?_⟩
    · rw [hprocs]
      rcases eq_or_ne i k with rfl | hik
      · rw [Function.update_self]
      · rw [Function.update_of_ne hik]
    · rw [hprocs]
      rcases eq_or_ne i k with rfl | hik
      · rw [Function.update_self]
      · rw [Function.update_of_ne hik]
    · rw [hmin', Cfs.nextMin]
      refine updateMinVruntime_le_of_le hmin (fun c hc => ?_) fun m hm => ?_
      · exact absurd (hcur.symm.trans hc) (by simp)
      · have hmt : m ∈ t.toList := by
          rw [hl]
          exact List.mem_cons_of_mem _ (List.mem_of_mem_head? hm)
        exact (hle.vruntime m (h.sched.queued_ne_unused hmt)).trans
          (Nat.mul_le_mul_left _ n.le_succ)
  | goOn c hcur hs ht hstay =>
    subst hs ht
    obtain ⟨hv, -, hsum⟩ := h.charged_le hle hfits hcur
    obtain ⟨hprocs, hcounter', -⟩ := cfsUpdateCurr_frame s c
    obtain ⟨-, hmin', hclock'⟩ := h.updateCurr_le hle hfits hcur
    rw [hclock'] at hcounter'
    refine ⟨⟨by omega, fun i => ?_, fun i => ?_⟩, by omega, hmin'⟩
    · rw [hprocs]
      rcases eq_or_ne i c with rfl | hic
      · rwa [Function.update_self]
      · rw [Function.update_of_ne hic]
    · rw [hprocs]
      rcases eq_or_ne i c with rfl | hic
      · rwa [Function.update_self]
      · rw [Function.update_of_ne hic]
  | switch c k l hcur hl hpreempt hcur' hl' hcounter' hprocs hmin' =>
    obtain ⟨hv, -, hsum⟩ := h.charged_le hle hfits hcur
    obtain ⟨-, hucounter, -⟩ := cfsUpdateCurr_frame s c
    obtain ⟨hvu, hminu, hclock'⟩ := h.updateCurr_le hle hfits hcur
    rw [hclock'] at hucounter
    rw [hclock _ hucounter.le] at hcounter'
    have hkc : k ≠ c := fun hkc => (h.sched.first hl).2 (by rw [hcur, hkc])
    have hfields : ∀ i, (s.procs i).vruntime ≤ (s'.procs i).vruntime ∧
        (s.procs i).sumExecRuntime ≤ (s'.procs i).sumExecRuntime := fun i => by
      rw [hprocs]
      rcases eq_or_ne i k with rfl | hik
      · rw [Function.update_self]
        exact ⟨le_rfl, le_rfl⟩
      · rw [Function.update_of_ne hik]
        rcases eq_or_ne i c with rfl | hic
        · rw [Function.update_self]
          exact ⟨hv, hsum⟩
        · rw [Function.update_of_ne hic]
          exact ⟨le_rfl, le_rfl⟩
    refine ⟨⟨by omega, fun i => (hfields i).1, fun i => (hfields i).2⟩, by omega, ?_⟩
    rw [hmin', Cfs.nextMin]
    refine updateMinVruntime_le_of_le hminu (fun d hd => ?_) fun m hm => ?_
    · obtain rfl : c = d := by
        rw [(cfsUpdateCurr_frame s c).2.2.2.2.2.2.1.trans hcur] at hd
        exact Option.some_inj.1 hd
      exact hvu c (h.sched.current_ne_unused hcur)
    · have hmem := hl'.mem_iff.1 (List.mem_of_mem_head? hm)
      refine hvu m ?_
      rcases List.mem_cons.1 hmem with rfl | hml
      · exact h.sched.current_ne_unused hcur
      · exact h.sched.queued_ne_unused (by rw [hl]; exact List.mem_cons_of_mem _ hml)

theorem Clocked.tick_countersLe (h : Clocked s t) (hle : s.CountersLe c₀ n)
    (hfits : Fits c₀ (n + 1)) :
    ∃ s' t', cfsSchedulerTick s = some s' ∧ Clocked s' t' ∧ s'.CountersLe c₀ (n + 1) := by
  obtain ⟨s', t', hs', ht', hch, hsame⟩ := h.tick fun s₁ hs₁ => (h.unwrapped hle hfits hs₁).1
  obtain ⟨-, hcounter, hmin⟩ := h.unwrapped hle hfits hs'
  refine ⟨s', t', hs', ht', hcounter, hmin, fun i hi => ?_, fun i hi => ?_⟩
  · have hused := mt (hsame.state i).2 hi
    have hv := hle.vruntime i hused
    by_cases hcur : s.current = some i
    · have hcharge := calcDeltaFair_le (h.sched.weight i hused).1
      rw [calcDeltaFair_eq] at hcharge
      rw [(hch.current i hcur).2.2.2, mul_add]
      omega
    · rw [(hch.others i hcur).2, mul_add]
      omega
  · have hsum := hle.runtime i (mt (hsame.state i).2 hi)
    by_cases hcur : s.current = some i
    · rw [(hch.current i hcur).2.2.1]
      omega
    · rw [(hch.others i hcur).1]
      omega

theorem Cfs.CountersLe.create (hle : s.CountersLe c₀ n) (hsched : Sched s t) {entry : ℕ} {nice : ℤ}
    {r : Option Pid} (hs' : cfsCreateProcess s entry nice = some (r, s')) :
    s'.CountersLe c₀ n := by
  obtain ⟨r₁, s₁, t₁, hs₁, -, hcase⟩ := cfsCreateProcess_cases entry nice hsched
  rw [hs', Option.some_inj, Prod.mk.injEq] at hs₁
  obtain ⟨rfl, rfl⟩ := hs₁
  rcases hcase with ⟨-, -, rfl, -⟩ | ⟨i, -, -, hprocs, -, hmin, hcounter⟩
  · exact ⟨hle.counter, hle.min, hle.vruntime, hle.runtime⟩
  · have hself : s'.procs i = s.fresh entry nice i := by rw [hprocs, Function.update_self]
    refine ⟨hcounter ▸ hle.counter, hmin ▸ hle.min, fun j hj => ?_, fun j hj => ?_⟩
    · rcases eq_or_ne j i with rfl | hji
      · rw [hself]
        exact hle.min
      · rw [hprocs, Function.update_of_ne hji] at hj ⊢
        exact hle.vruntime j hj
    · rcases eq_or_ne j i with rfl | hji
      · rw [hself]
        exact Nat.zero_le _
      · rw [hprocs, Function.update_of_ne hji] at hj ⊢
        exact hle.runtime j hj

/-- A call moves the counters by at most those of one tick. -/
theorem Clocked.call_countersLe (h : Clocked s t) (hle : s.CountersLe c₀ n)
    (hfits : Fits c₀ (n + 1)) (call : CfsCall) :
    ∃ s' t', cfsCall s call = some s' ∧ Clocked s' t' ∧ s'.CountersLe c₀ (n + 1) := by
  cases call with
  | tick => exact h.tick_countersLe hle hfits
  | create entry nice =>
    obtain ⟨r, s', t', hs', ht', -⟩ := h.create entry nice
    have hle' := hle.create h.sched hs'
    exact ⟨s', t', by rw [cfsCall, hs', Option.map_some], ht', by have := hle'.counter; omega,
      hle'.min.trans (Nat.mul_le_mul_left _ n.le_succ),
      fun i hi => (hle'.vruntime i hi).trans (Nat.mul_le_mul_left _ n.le_succ),
      fun i hi => (hle'.runtime i hi).trans (Nat.mul_le_mul_left _ n.le_succ)⟩

theorem run_countersLe (s₀ : Cfs) (calls : List CfsCall) (hfits : Fits s₀.counter calls.length) :
    ∃ s t, run cfsCall (cfsInit s₀) calls = some s ∧ Clocked s t ∧
      s.CountersLe s₀.counter calls.length := by
  induction calls using List.reverseRecOn with
  | nil => exact ⟨cfsInit s₀, nil, rfl, ⟨sched_init s₀, fun c hc => by cases hc⟩, le_rfl, le_rfl,
      fun i hi => absurd rfl hi, fun i hi => absurd rfl hi⟩
  | append_singleton calls call ih =>
    rw [List.length_append, List.length_singleton] at hfits ⊢
    obtain ⟨s, t, hs, ht, hle⟩ := ih (hfits.mono (Nat.le_succ _))
    obtain ⟨s', t', hs', ht', hle'⟩ := ht.call_countersLe hle hfits call
    exact ⟨s', t', by rw [run_concat, hs, Option.bind_some, hs'], ht', hle'⟩

/-- No counter of 64 bits wraps within the first `2 ^ 37` calls after the machine starts: a tick
    charges less than 69 ms. -/
theorem neverWraps_of_fits {s₀ : Cfs} {calls : List CfsCall}
    (hfits : Fits s₀.counter calls.length) : NeverWraps s₀ calls := by
  rintro s₁ s₂ ⟨pre, hpre, hs₁⟩ hs₂
  have hlen := hpre.length_le
  rw [List.length_append, List.length_singleton] at hlen
  obtain ⟨s, t, hs, ht, hle⟩ := run_countersLe s₀ pre (hfits.mono (by omega))
  obtain rfl : s₁ = s := Option.some_inj.1 (hs₁.symm.trans hs)
  exact (ht.unwrapped hle (hfits.mono hlen) hs₂).1

end Bounded

/-- The task `p` is queued at virtual runtime `v`, and nothing is below the floor. -/
structure Waits (s : Cfs) (p : Pid) (v m : ℕ) : Prop where
  clocked : ∃ t, Clocked s t
  queued : (s.procs p).onRq = true
  vruntime : (s.procs p).vruntime = v
  floor : s.Floor m

/-- The charges that the tasks other than `p` can get before it, and one more if the current task
    is too far ahead. -/
def Cfs.waitRank (s : Cfs) (p : Pid) (limit m : ℕ) : ℕ :=
  s.rivals p limit m + if s.Close limit then 0 else 1

section Waits

variable {v : ℕ}

/-- The task that waits is not the current one. -/
theorem Waits.not_current (h : Waits s p v m) : s.current ≠ some p := fun hcur => by
  obtain ⟨t, ht⟩ := h.clocked
  have := (ht.sched.running p hcur).2
  rw [h.queued] at this
  cases this

theorem Waits.used (h : Waits s p v m) : (s.procs p).state ≠ .unused := by
  obtain ⟨t, ht⟩ := h.clocked
  exact ht.sched.queued_ne_unused ((ht.sched.queue.mem_iff p).2 h.queued)

/-- A tick dispatches the task, or brings it nearer to its turn. -/
theorem Waits.tick (h : Waits s p v m)
    (hw : ∀ s', cfsSchedulerTick s = some s' → s.Unwrapped s') :
    ∃ s', cfsSchedulerTick s = some s' ∧ (s'.current = some p ∨ Waits s' p v m ∧
      s'.waitRank p (v + minGranularity) m + 1 ≤ s.waitRank p (v + minGranularity) m) := by
  obtain ⟨t, ht⟩ := h.clocked
  obtain ⟨s', t', hs', ht', hch, hsame⟩ := ht.tick hw
  refine ⟨s', hs', or_iff_not_imp_left.2 fun hnot => ⟨⟨⟨t', ht'⟩, ?_, ?_, ?_⟩, ?_⟩⟩
  · exact (ht'.sched.waiting p hnot (mt (hsame.state p).1 h.used)).2
  · rw [(hch.others p h.not_current).2, h.vruntime]
  · have hmono : cfsCall s .tick = some s' := hs'
    exact h.floor.tick (ht.sched.minVruntime_mono hmono) hch hsame
  · have hclose := ht.tick_close h.queued hs' hch hnot
    rw [h.vruntime] at hclose
    rw [Cfs.waitRank, Cfs.waitRank, if_pos hclose]
    split_ifs with hbefore
    · exact hch.rivals_lt hsame ht.sched hbefore h.not_current
    · exact Nat.succ_le_succ (Finset.sum_le_sum fun i _ => hch.slotRank_le hsame i)

/-- A creation does not delay the task. -/
theorem Waits.create (h : Waits s p v m) (entry : ℕ) (nice : ℤ) (limit : ℕ) :
    ∃ s', cfsCall s (.create entry nice) = some s' ∧ Waits s' p v m ∧
      s'.waitRank p limit m ≤ s.waitRank p limit m := by
  obtain ⟨t, ht⟩ := h.clocked
  obtain ⟨r, s', t', hs', ht', -, -, hold⟩ := ht.create entry nice
  obtain ⟨hfloor, hrank⟩ := h.floor.create ht.sched hs' limit
  have hp := hold p h.used
  refine ⟨s', by rw [cfsCall, hs', Option.map_some], ⟨⟨t', ht'⟩, ?_, ?_, hfloor⟩, ?_⟩
  · rw [hp, h.queued]
  · rw [hp, h.vruntime]
  · have hclose : s.Close limit → s'.Close limit := by
      rintro ⟨c, hcur, hle⟩
      obtain ⟨r₁, s₁, t₁, hs₁, -, hcase⟩ := cfsCreateProcess_cases entry nice ht.sched
      rw [hs', Option.some_inj, Prod.mk.injEq] at hs₁
      obtain ⟨rfl, rfl⟩ := hs₁
      refine ⟨c, ?_, by rwa [hold c (ht.sched.current_ne_unused hcur)]⟩
      rcases hcase with ⟨-, -, rfl, -⟩ | ⟨-, -, -, -, hcur', -⟩
      · exact hcur
      · rw [hcur', hcur]
    have hsum : s'.rivals p limit m ≤ s.rivals p limit m :=
      Finset.sum_le_sum fun i _ => hrank i
    rw [Cfs.waitRank, Cfs.waitRank]
    split_ifs with h₁ h₂ h₂
    · exact hsum
    · exact hsum.trans (Nat.le_add_right _ _)
    · exact absurd (hclose h₂) h₁
    · exact Nat.succ_le_succ hsum

end Waits

/-- The ticks after which a task that is `ahead` of the floor has been dispatched. -/
def waitBound (ahead : ℕ) : ℕ := (maxProcesses - 1) * chargesLeft (ahead + minGranularity) + 2

/-- In every run of creations and ticks after `cfs_init` in which no counter of 64 bits wraps, a
    task that is queued becomes the current one, at the latest when the ticks made since then
    reach a bound that depends on how far it is ahead of the floor alone. -/
theorem cfs_no_starvation (s₀ : Cfs) (calls later : List CfsCall)
    (hw : NeverWraps s₀ (calls ++ later)) {s : Cfs} (hs : run cfsCall (cfsInit s₀) calls = some s)
    {p : Pid} (hp : (s.procs p).onRq = true) {m : ℕ} (hm : s.Floor m)
    (hticks : waitBound ((s.procs p).vruntime - m) ≤ later.count .tick) :
    ∃ pre s', pre <+: later ∧ run cfsCall s pre = some s' ∧ s'.current = some p := by
  obtain ⟨s₁, t, hs₁, hclocked, -⟩ := run_clocked (hw.mono (List.prefix_append _ _))
  obtain rfl : s = s₁ := Option.some_inj.1 (hs.symm.trans hs₁)
  have hwaits : Waits s p (s.procs p).vruntime m := ⟨⟨t, hclocked⟩, hp, rfl, hm⟩
  set v := (s.procs p).vruntime with hv
  have hmv : m ≤ v := hm.created p hwaits.used
  refine run_reaches (fun s => Waits s p v m) (fun s => s.waitRank p (v + minGranularity) m)
    (· == .tick) (fun pre call s₁ hpre hs₁ h₁ => ?_) hwaits ?_
  · cases call with
    | create entry nice =>
      obtain ⟨s₂, hs₂, h₂, hrank⟩ := h₁.create entry nice (v + minGranularity)
      exact ⟨s₂, hs₂, .inr ⟨h₂, hrank⟩⟩
    | tick =>
      refine h₁.tick fun s₂ hs₂ => hw s₁ s₂ ⟨calls ++ pre, ?_, ?_⟩ hs₂
      · rw [List.append_assoc]
        exact (List.prefix_append_right_inj calls).2 hpre
      · rw [run_append, hs, Option.bind_some, hs₁]
  · have hrivals := hm.rivals_le p (v + minGranularity)
    rw [taskRank, if_pos (by omega), show v + minGranularity - m = v - m + minGranularity by omega]
      at hrivals
    rw [waitBound] at hticks
    calc s.waitRank p (v + minGranularity) m
        _ ≤ s.rivals p (v + minGranularity) m + 1 := by
          rw [Cfs.waitRank]
          split_ifs <;> omega
        _ < later.count .tick := by omega

/-- Of two tasks of nice 0, the second one is dispatched within 611 ticks, and two processes are
    created meanwhile. -/
theorem no_starvation_two_tasks : ∃ s, run cfsCall (cfsInit .boot)
      [.create 0 0, .create 0 0, .tick] = some s ∧
    ∃ pre s', pre <+: .create 0 5 :: .create 0 (-20) :: List.replicate 611 .tick ∧
      run cfsCall s pre = some s' ∧ s'.current = some 1 := by
  have hqueued : (run cfsCall (cfsInit .boot) [.create 0 0, .create 0 0, .tick]).any fun s =>
      decide ((s.procs 1).onRq = true ∧ (s.procs 1).vruntime = 0) := by decide +kernel
  rw [Option.any_eq_true] at hqueued
  obtain ⟨s, hs, hqueued⟩ := hqueued
  obtain ⟨hp, hv⟩ := of_decide_eq_true hqueued
  refine ⟨s, hs, cfs_no_starvation .boot _ _ (neverWraps_of_fits ?_) hs hp
    (m := 0) ⟨Nat.zero_le _, fun _ _ => Nat.zero_le _⟩ ?_⟩
  · simp only [Fits, List.length_append, List.length_cons, List.length_nil, List.length_replicate]
    decide
  · rw [hv, List.count_cons, List.count_cons, List.count_replicate_self]
    decide

end Fru1tOs
