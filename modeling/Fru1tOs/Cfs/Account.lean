import Fru1tOs.Cfs.Fair

/-!
# Accounting

What a tick charges. The clock of `get_time_ns` advances at every reading, and the scheduler
reads it once for a charge and once for a dispatch. So the current task was always last charged,
or dispatched, at the last reading (`Clocked`), and a tick charges it for exactly 1 ms.

As long as no counter of 64 bits wraps (`Cfs.Unwrapped`), the virtual runtime of a task is thus
determined by its runtime, and the runtimes add up to the ticks made with a current task
(`cfs_accounting`).

`calc_delta_fair` scales in 32 bits whatever its guard lets through, which is right for 1 ms, but
not beyond `2 ^ 22` ns (`calc_delta_fair_iff`).
-/

namespace Fru1tOs

open Lib RBTree

/-- The charge of 1 ms at the given weight, exactly. -/
def tickCharge (weight : ℕ) : ℕ := 1000000 * nice0Load / weight

/-- No counter of 64 bits wrapped at the tick from `s` to `s'`: none of them went down. -/
structure Cfs.Unwrapped (s s' : Cfs) : Prop where
  counter : s.counter ≤ s'.counter
  vruntime : ∀ i, (s.procs i).vruntime ≤ (s'.procs i).vruntime
  sumExecRuntime : ∀ i, (s.procs i).sumExecRuntime ≤ (s'.procs i).sumExecRuntime

instance (s s' : Cfs) : Decidable (s.Unwrapped s') :=
  decidable_of_iff (s.counter ≤ s'.counter ∧ (∀ i, (s.procs i).vruntime ≤ (s'.procs i).vruntime) ∧
      ∀ i, (s.procs i).sumExecRuntime ≤ (s'.procs i).sumExecRuntime)
    ⟨fun h => ⟨h.1, h.2.1, h.2.2⟩, fun h => ⟨h.1, h.2, h.3⟩⟩

/-! ## Scaling -/

/-- A delta is scaled exactly when the product fits in 32 bits, or is not needed. -/
theorem calcDeltaFair_of_fits {delta weight : ℕ}
    (h : weight = nice0Load ∨ delta * nice0Load < 2 ^ 32) :
    calcDeltaFair delta weight = delta * nice0Load / weight := by
  rw [calcDeltaFair]
  split_ifs with hguard
  · have hfits := h.resolve_left hguard.1
    have hdelta : delta < 2 ^ 32 := (Nat.le_mul_of_pos_right delta (by decide)).trans_lt hfits
    rw [Nat.mod_eq_of_lt hdelta, Nat.mod_eq_of_lt hfits]
  · have hweight : weight = nice0Load := by
      by_contra hne
      have hfits := h.resolve_left hne
      rw [nice0Load] at hfits
      exact hguard ⟨hne, by omega⟩
    rw [hweight, Nat.mul_div_cancel _ (by decide)]

/-- A product that does not fit is cut down, by more than what the division rounds off. -/
theorem calcDeltaFair_lt {delta weight : ℕ} (h0 : 0 < weight) (hle : weight ≤ 2 ^ 32)
    (hne : weight ≠ nice0Load) (hdelta : delta < 0xFFFFFFFF) (hover : 2 ^ 32 ≤ delta * nice0Load) :
    calcDeltaFair delta weight < delta * nice0Load / weight := by
  have hwrap : delta * nice0Load % 2 ^ 32 + weight ≤ delta * nice0Load := by
    have := Nat.div_add_mod (delta * nice0Load) (2 ^ 32)
    have := Nat.div_pos hover (by decide)
    omega
  rw [calcDeltaFair, if_pos ⟨hne, hdelta⟩, Nat.mod_eq_of_lt (by omega : delta < 2 ^ 32)]
  calc delta * nice0Load % 2 ^ 32 / weight
      _ < delta * nice0Load % 2 ^ 32 / weight + 1 := Nat.lt_succ_self _
      _ = (delta * nice0Load % 2 ^ 32 + weight) / weight := (Nat.add_div_right _ h0).symm
      _ ≤ delta * nice0Load / weight := Nat.div_le_div_right hwrap

/-- `calc_delta_fair` of a delta that its guard lets through gives the exact quotient, and no less
    than for a shorter delta, if and only if the weight is that of nice 0 or the product of the
    delta and `NICE_0_LOAD` fits in 32 bits. -/
theorem calc_delta_fair_iff (nice : ℤ) {delta : ℕ} (hdelta : delta < 0xFFFFFFFF) :
    (calcDeltaFair delta (niceToWeight nice) = delta * nice0Load / niceToWeight nice ∧
      ∀ shorter ≤ delta,
        calcDeltaFair shorter (niceToWeight nice) ≤ calcDeltaFair delta (niceToWeight nice)) ↔
    niceToWeight nice = nice0Load ∨ delta * nice0Load < 2 ^ 32 := by
  obtain ⟨hmin, hmax⟩ := niceToWeight_bounds nice
  constructor
  · rintro ⟨hexact, -⟩
    by_contra hnot
    rw [not_or, not_lt] at hnot
    have hlt := calcDeltaFair_lt (by omega) (by omega) hnot.1 hdelta hnot.2
    exact absurd hexact hlt.ne
  · intro h
    refine ⟨calcDeltaFair_of_fits h, fun shorter hle => ?_⟩
    have hshorter := h.imp_right (Nat.mul_le_mul_right nice0Load hle).trans_lt
    rw [calcDeltaFair_of_fits h, calcDeltaFair_of_fits hshorter]
    exact Nat.div_le_div_right (Nat.mul_le_mul_right _ hle)

/-- 4 ms at nice 5. -/
theorem calc_delta_fair_4ms :
    calcDeltaFair 4000000 (niceToWeight 5) = 12226865 ∧
      ∀ shorter ≤ 4000000,
        calcDeltaFair shorter (niceToWeight 5) ≤ calcDeltaFair 4000000 (niceToWeight 5) :=
  (calc_delta_fair_iff 5 (by decide)).2 (.inr (by decide))

/-- `2 ^ 22` ns at nice 1 are charged nothing, and a nanosecond less 5.2 ms. -/
theorem calc_delta_fair_wraps :
    ¬ ∀ (nice : ℤ) (delta : ℕ), delta < 0xFFFFFFFF →
      calcDeltaFair delta (niceToWeight nice) = delta * nice0Load / niceToWeight nice ∧
      ∀ shorter ≤ delta,
        calcDeltaFair shorter (niceToWeight nice) ≤ calcDeltaFair delta (niceToWeight nice) :=
  fun h => absurd (h 1 4194304 (by decide)).1 (by decide)

/-- 1 ms is scaled without overflow. -/
theorem calcDeltaFair_eq (weight : ℕ) : calcDeltaFair 1000000 weight = tickCharge weight :=
  calcDeltaFair_of_fits (.inr (by decide))

theorem tickCharge_lt (weight : ℕ) : tickCharge weight < 2 ^ 32 :=
  (Nat.div_le_self _ _).trans_lt (by decide)

/-- A counter that does not go down when it is increased did not wrap. -/
theorem add_mod_of_le {a d : ℕ} (hd : d < 2 ^ 64) (h : a ≤ (a + d) % 2 ^ 64) :
    (a + d) % 2 ^ 64 = a + d := by
  omega

/-- The current task was last charged, or dispatched, at the last reading of the clock. -/
structure Clocked (s : Cfs) (t : RBTree Pid) : Prop where
  sched : Sched s t
  execStart : ∀ c, s.current = some c →
    (s.procs c).execStart = s.counter ∧ s.counter ≠ 0 ∧ s.counter < 2 ^ 64

/-! ## One tick -/

/-- The tick from `s` to `s'` charges the current task for 1 ms, and nothing to the others. -/
structure Charges (s s' : Cfs) : Prop where
  current : ∀ c, s.current = some c → s.elapsed c = 1000000 ∧ s.elapsed c * nice0Load < 2 ^ 32 ∧
    (s'.procs c).sumExecRuntime = (s.procs c).sumExecRuntime + 1000000 ∧
    (s'.procs c).vruntime = (s.procs c).vruntime + tickCharge (s.procs c).weight
  others : ∀ i, s.current ≠ some i → (s'.procs i).sumExecRuntime = (s.procs i).sumExecRuntime ∧
    (s'.procs i).vruntime = (s.procs i).vruntime

variable {s s' : Cfs} {t t' : RBTree Pid}

theorem Clocked.elapsed (h : Clocked s t) {c : Pid} (hcur : s.current = some c) :
    s.elapsed c = 1000000 :=
  elapsed_eq (h.execStart c hcur).1 (h.execStart c hcur).2.2

/-- The current task once it is charged, if its counters do not wrap. -/
theorem Clocked.charged (h : Clocked s t) {c : Pid} (hcur : s.current = some c)
    (hv : (s.procs c).vruntime ≤ (s.charged c).vruntime)
    (hsum : (s.procs c).sumExecRuntime ≤ (s.charged c).sumExecRuntime) :
    s.charged c = { s.procs c with
      execStart := s.clock
      sumExecRuntime := (s.procs c).sumExecRuntime + 1000000
      vruntime := (s.procs c).vruntime + tickCharge (s.procs c).weight } := by
  obtain ⟨hstart, h0, -⟩ := h.execStart c hcur
  have hcharged : s.charged c = { s.procs c with
      execStart := s.clock
      sumExecRuntime := ((s.procs c).sumExecRuntime + 1000000) % 2 ^ 64
      vruntime := ((s.procs c).vruntime + tickCharge (s.procs c).weight) % 2 ^ 64 } := by
    rw [Cfs.charged]
    dsimp only
    rw [if_neg (by rw [hstart]; exact h0), Cfs.chargedVruntime, h.elapsed hcur, calcDeltaFair_eq]
  rw [hcharged] at hv hsum ⊢
  have hlt := tickCharge_lt (s.procs c).weight
  rw [add_mod_of_le (by omega) hv, add_mod_of_le (by omega) hsum]

/-- The tasks that are there before and after a tick, with their weights. -/
structure SameTasks (s s' : Cfs) : Prop where
  weight : ∀ i, (s'.procs i).weight = (s.procs i).weight
  state : ∀ i, (s'.procs i).state = .unused ↔ (s.procs i).state = .unused

/-- The next reading of the clock, when it does not wrap. -/
theorem clock_eq (h : s.counter ≤ s.clock) : s.clock = s.counter + 1000000 :=
  add_mod_of_le (by decide) h

theorem Clocked.dispatch (h : Clocked s t) (hsched : Sched s' t') {n : Pid}
    (hcur : s.current = none) (hnt : n ∈ t.toList) (hcur' : s'.current = some n)
    (hcounter : s'.counter = s.clock)
    (hprocs : s'.procs = Function.update s.procs n { s.procs n with
      onRq := false, state := .running, execStart := s'.counter }) (hw : s.Unwrapped s') :
    Clocked s' t' ∧ Charges s s' ∧ SameTasks s s' := by
  have hclock := clock_eq (hcounter ▸ hw.counter)
  have hlt : s.clock < 2 ^ 64 := Nat.mod_lt _ (by decide)
  refine ⟨⟨hsched, fun c hc => ?_⟩, ⟨fun c hc => ?_, fun i _ => ?_⟩, ⟨fun i => ?_, fun i => ?_⟩⟩
  · obtain rfl : n = c := by rwa [hcur', Option.some_inj] at hc
    rw [hprocs, Function.update_self, hcounter]
    exact ⟨rfl, by omega, hlt⟩
  · rw [hcur] at hc
    cases hc
  · rw [hprocs]
    rcases eq_or_ne i n with rfl | hin
    · rw [Function.update_self]
      exact ⟨rfl, rfl⟩
    · rw [Function.update_of_ne hin]
      exact ⟨rfl, rfl⟩
  · rw [hprocs]
    rcases eq_or_ne i n with rfl | hin
    · rw [Function.update_self]
    · rw [Function.update_of_ne hin]
  · rw [hprocs]
    rcases eq_or_ne i n with rfl | hin
    · rw [Function.update_self]
      simpa using h.sched.queued_ne_unused hnt
    · rw [Function.update_of_ne hin]

theorem Clocked.goOn (h : Clocked s t) {c : Pid} (hcur : s.current = some c)
    (hw : s.Unwrapped (cfsUpdateCurr s c)) :
    Clocked (cfsUpdateCurr s c) t ∧ Charges s (cfsUpdateCurr s c) ∧
      SameTasks s (cfsUpdateCurr s c) := by
  obtain ⟨hprocs, hcounter, -, -, -, -, hcur', -⟩ := cfsUpdateCurr_frame s c
  have hclock := clock_eq (hcounter ▸ hw.counter)
  have hlt : s.clock < 2 ^ 64 := Nat.mod_lt _ (by decide)
  have hself : (cfsUpdateCurr s c).procs c = s.charged c := by rw [hprocs, Function.update_self]
  have hcharged := h.charged hcur (hself ▸ hw.vruntime c) (hself ▸ hw.sumExecRuntime c)
  have hother : ∀ i, i ≠ c → (cfsUpdateCurr s c).procs i = s.procs i := fun i hi => by
    rw [hprocs, Function.update_of_ne hi]
  refine ⟨⟨h.sched.updateCurr hcur, fun d hd => ?_⟩, ⟨fun d hd => ?_, fun i hi => ?_⟩,
    ⟨fun i => ?_, fun i => ?_⟩⟩
  · obtain rfl : c = d := by rwa [hcur', hcur, Option.some_inj] at hd
    rw [hself, hcharged, hcounter]
    exact ⟨rfl, by omega, hlt⟩
  · obtain rfl : c = d := by rwa [hcur, Option.some_inj] at hd
    rw [hself, hcharged, h.elapsed hcur]
    exact ⟨rfl, by decide, rfl, rfl⟩
  · rw [hother i fun hic => hi (by rw [hcur, hic])]
    exact ⟨rfl, rfl⟩
  · rcases eq_or_ne i c with rfl | hic
    · rw [hself, charged_weight]
    · rw [hother i hic]
  · rcases eq_or_ne i c with rfl | hic
    · rw [hself, charged_state]
    · rw [hother i hic]

theorem Clocked.switch (h : Clocked s t) (hsched : Sched s' t') {c n : Pid}
    (hcur : s.current = some c) (hnt : n ∈ t.toList) (hcur' : s'.current = some n)
    (hcounter : s'.counter = (cfsUpdateCurr s c).clock)
    (hprocs : s'.procs = Function.update (Function.update s.procs c { s.charged c with
      onRq := true, state := .ready, execStart := 0 }) n { s.procs n with
      onRq := false, state := .running, execStart := s'.counter }) (hw : s.Unwrapped s') :
    Clocked s' t' ∧ Charges s s' ∧ SameTasks s s' := by
  obtain ⟨-, hucounter, -⟩ := cfsUpdateCurr_frame s c
  have hnc : n ≠ c := fun hnc => h.sched.current_not_mem hcur (hnc ▸ hnt)
  have hself : s'.procs c = { s.charged c with onRq := true, state := .ready, execStart := 0 } := by
    rw [hprocs, Function.update_of_ne hnc.symm, Function.update_self]
  have hnext : s'.procs n = { s.procs n with
      onRq := false, state := .running, execStart := s'.counter } := by
    rw [hprocs, Function.update_self]
  have hother : ∀ i, i ≠ n → i ≠ c → s'.procs i = s.procs i := fun i hin hic => by
    rw [hprocs, Function.update_of_ne hin, Function.update_of_ne hic]
  have hv := hw.vruntime c
  have hsum := hw.sumExecRuntime c
  rw [hself] at hv hsum
  have hcharged := h.charged hcur hv hsum
  -- The clock was read twice.
  have hclock : s'.counter ≠ 0 ∧ s'.counter < 2 ^ 64 := by
    have hle := hw.counter
    have h0 := (h.execStart c hcur).2.1
    rw [hcounter, Cfs.clock] at hle ⊢
    omega
  refine ⟨⟨hsched, fun d hd => ?_⟩, ⟨fun d hd => ?_, fun i hi => ?_⟩, ⟨fun i => ?_, fun i => ?_⟩⟩
  · obtain rfl : n = d := by rwa [hcur', Option.some_inj] at hd
    rw [hnext]
    exact ⟨rfl, hclock⟩
  · obtain rfl : c = d := by rwa [hcur, Option.some_inj] at hd
    rw [hself, hcharged, h.elapsed hcur]
    exact ⟨rfl, by decide, rfl, rfl⟩
  · rcases eq_or_ne i n with rfl | hin
    · rw [hnext]
      exact ⟨rfl, rfl⟩
    · rw [hother i hin fun hic => hi (by rw [hcur, hic])]
      exact ⟨rfl, rfl⟩
  · rcases eq_or_ne i n with rfl | hin
    · rw [hnext]
    · rcases eq_or_ne i c with rfl | hic
      · rw [hself, charged_weight]
      · rw [hother i hin hic]
  · rcases eq_or_ne i n with rfl | hin
    · rw [hnext]
      simpa using h.sched.queued_ne_unused hnt
    · rcases eq_or_ne i c with rfl | hic
      · rw [hself]
        simpa using h.sched.current_ne_unused hcur
      · rw [hother i hin hic]

/-- A tick charges the current task for 1 ms, and the one after it is charged at the next. -/
theorem Clocked.tick (h : Clocked s t) (hw : ∀ s', cfsSchedulerTick s = some s' → s.Unwrapped s') :
    ∃ s' t', cfsSchedulerTick s = some s' ∧ Clocked s' t' ∧ Charges s s' ∧ SameTasks s s' := by
  obtain ⟨s', t', hs', hsched, hstep⟩ := cfsSchedulerTick_cases h.sched
  have hw := hw s' hs'
  refine ⟨s', t', hs', ?_⟩
  cases hstep with
  | idle hcur hl hs =>
    subst hs
    refine ⟨⟨hsched, h.execStart⟩, ⟨fun c hc => ?_, fun _ _ => ⟨rfl, rfl⟩⟩,
      ⟨fun _ => rfl, fun _ => Iff.rfl⟩⟩
    rw [hcur] at hc
    cases hc
  | dispatch n l hcur hl hcur' hl' hcounter hprocs hmin =>
    exact h.dispatch hsched hcur (by rw [hl]; exact List.mem_cons_self) hcur' hcounter hprocs hw
  | goOn c hcur hs ht hstay =>
    subst hs ht
    exact h.goOn hcur hw
  | switch c n l hcur hl hpreempt hcur' hl' hcounter hprocs hmin =>
    exact h.switch hsched hcur (by rw [hl]; exact List.mem_cons_self) hcur' hcounter hprocs hw

/-! ## Runs -/

/-- The runtimes of the tasks that were created, together. -/
def Cfs.totalRuntime (s : Cfs) : ℕ :=
  ∑ i with (s.procs i).state ≠ .unused, (s.procs i).sumExecRuntime

/-- The ticks among the calls that are made with a current task. -/
def busyTicks (s : Cfs) : List CfsCall → ℕ
  | [] => 0
  | c :: cs => (if c = .tick ∧ s.current ≠ none then 1 else 0) +
      ((cfsCall s c).map fun s' => busyTicks s' cs).getD 0

theorem busyTicks_concat {cs : List CfsCall} (h : run cfsCall s cs = some s') (c : CfsCall) :
    busyTicks s (cs ++ [c]) =
      busyTicks s cs + if c = .tick ∧ s'.current ≠ none then 1 else 0 := by
  induction cs generalizing s with
  | nil =>
    obtain rfl : s = s' := by rwa [run_nil, Option.some_inj] at h
    cases hc : cfsCall s c <;> simp [busyTicks, hc]
  | cons d cs ih =>
    rw [run_cons, Option.bind_eq_some_iff] at h
    obtain ⟨s₁, hs₁, h⟩ := h
    simp only [List.cons_append, busyTicks, hs₁, Option.map_some, Option.getD_some, ih h]
    omega

theorem totalRuntime_eq (s : Cfs) : s.totalRuntime =
    ∑ i, if (s.procs i).state ≠ .unused then (s.procs i).sumExecRuntime else 0 :=
  Finset.sum_filter _ _

/-- A tick adds 1 ms to the total if there is a current task. -/
theorem Charges.total (hch : Charges s s') (hsame : SameTasks s s')
    (hused : ∀ c, s.current = some c → (s.procs c).state ≠ .unused) :
    s'.totalRuntime = s.totalRuntime + 1000000 * if s.current ≠ none then 1 else 0 := by
  rw [totalRuntime_eq, totalRuntime_eq]
  cases hcur : s.current with
  | none =>
    rw [if_neg (not_not.2 rfl), mul_zero, add_zero]
    refine Finset.sum_congr rfl fun i _ => ?_
    simp only [ne_eq, hsame.state, (hch.others i (by rw [hcur]; simp)).1]
  | some c =>
    have hpoint : ∀ i, (if (s'.procs i).state ≠ .unused then (s'.procs i).sumExecRuntime else 0) =
        (if (s.procs i).state ≠ .unused then (s.procs i).sumExecRuntime else 0) +
          if i = c then 1000000 else 0 := fun i => by
      simp only [ne_eq, hsame.state]
      rcases eq_or_ne i c with rfl | hic
      · rw [if_pos (hused i hcur), if_pos (hused i hcur), if_pos rfl, (hch.current i hcur).2.2.1]
      · rw [if_neg hic, add_zero, (hch.others i fun hi => hic ?_).1]
        rw [hcur, Option.some_inj] at hi
        exact hi.symm
    rw [Finset.sum_congr rfl fun i _ => hpoint i, Finset.sum_add_distrib, Finset.sum_ite_eq']
    simp

/-- A creation fills a slot with a task that has not run, and charges nothing. -/
theorem Clocked.create (h : Clocked s t) (entry : ℕ) (nice : ℤ) :
    ∃ r s' t', cfsCreateProcess s entry nice = some (r, s') ∧ Clocked s' t' ∧
      s'.totalRuntime = s.totalRuntime ∧
      (∀ i, r = some i → (s.procs i).state = .unused ∧ (s'.procs i).state ≠ .unused ∧
        (s'.procs i).sumExecRuntime = 0) ∧
      ∀ i, (s.procs i).state ≠ .unused → s'.procs i = s.procs i := by
  obtain ⟨r, s', t', hs', hsched, hcase⟩ := cfsCreateProcess_cases entry nice h.sched
  refine ⟨r, s', t', hs', ?_⟩
  rcases hcase with ⟨rfl, -, rfl, -⟩ | ⟨i, rfl, hiu, hprocs, hcur, -, hcounter⟩
  · exact ⟨⟨hsched, h.execStart⟩, rfl, (fun i hi => by cases hi), fun _ _ => rfl⟩
  · have hother : ∀ j, (s.procs j).state ≠ .unused → s'.procs j = s.procs j := fun j hj => by
      have hji : j ≠ i := fun hji => hj (by rw [hji, hiu])
      rw [hprocs, Function.update_of_ne hji]
    have hself : s'.procs i = s.fresh entry nice i := by rw [hprocs, Function.update_self]
    refine ⟨⟨hsched, fun c hc => ?_⟩, ?_, fun j hj => ?_, hother⟩
    · rw [hcur] at hc
      rw [hother c (h.sched.current_ne_unused hc), hcounter]
      exact h.execStart c hc
    · rw [totalRuntime_eq, totalRuntime_eq]
      refine Finset.sum_congr rfl fun j _ => ?_
      by_cases hj : (s.procs j).state = .unused
      · rcases eq_or_ne j i with rfl | hji
        · rw [hself, if_neg (not_not.2 hj)]
          rfl
        · rw [hprocs, Function.update_of_ne hji]
      · rw [hother j hj]
    · obtain rfl : i = j := Option.some_inj.1 hj
      rw [hself]
      exact ⟨hiu, by simp [Cfs.fresh], rfl⟩

/-- The task `i`, created with virtual runtime `v`, was charged for a whole number of ticks. -/
def ChargedSince (v : ℕ) (p : CfsProcess) : Prop := p.state ≠ .unused ∧
  ∃ k, p.sumExecRuntime = 1000000 * k ∧ p.vruntime = v + k * tickCharge p.weight

theorem ChargedSince.tick {v : ℕ} {i : Pid} (h : ChargedSince v (s.procs i)) (hch : Charges s s')
    (hsame : SameTasks s s') : ChargedSince v (s'.procs i) := by
  obtain ⟨hused, k, hsum, hv⟩ := h
  refine ⟨mt (hsame.state i).1 hused, ?_⟩
  rw [hsame.weight]
  by_cases hi : s.current = some i
  · obtain ⟨-, -, hsum', hv'⟩ := hch.current i hi
    exact ⟨k + 1, by rw [hsum', hsum]; ring, by rw [hv', hv]; ring⟩
  · obtain ⟨hsum', hv'⟩ := hch.others i hi
    exact ⟨k, hsum'.trans hsum, hv'.trans hv⟩

/-- No counter wraps at a tick of the run of the calls after `cfs_init`. -/
def NeverWraps (s₀ : Cfs) (calls : List CfsCall) : Prop := ∀ s₁ s₂,
  Makes cfsCall (cfsInit s₀) calls s₁ .tick → cfsSchedulerTick s₁ = some s₂ → s₁.Unwrapped s₂

theorem NeverWraps.mono {s₀ : Cfs} {calls calls' : List CfsCall} (h : NeverWraps s₀ calls)
    (hle : calls' <+: calls) : NeverWraps s₀ calls' :=
  fun s₁ s₂ ⟨pre, hpre, h₁⟩ => h s₁ s₂ ⟨pre, hpre.trans hle, h₁⟩

/-- What is accounted for after the calls, made after `cfs_init` and leading to `s`. -/
structure Accounts (s₀ : Cfs) (calls : List CfsCall) (s : Cfs) : Prop where
  ticks : ∀ s₁, Makes cfsCall (cfsInit s₀) calls s₁ .tick →
    ∃ s₂, cfsSchedulerTick s₁ = some s₂ ∧ Charges s₁ s₂
  vruntime : ∀ entry nice s₁ s₂ i, Makes cfsCall (cfsInit s₀) calls s₁ (.create entry nice) →
    cfsCreateProcess s₁ entry nice = some (some i, s₂) →
    (s.procs i).vruntime = (s₂.procs i).vruntime +
      (s.procs i).sumExecRuntime / 1000000 * tickCharge (s.procs i).weight
  total : s.totalRuntime = 1000000 * busyTicks (cfsInit s₀) calls

/-- The accounts along a run in which nothing wraps. -/
theorem run_clocked {s₀ : Cfs} {calls : List CfsCall} (hw : NeverWraps s₀ calls) :
    ∃ s t, run cfsCall (cfsInit s₀) calls = some s ∧ Clocked s t ∧
      s.totalRuntime = 1000000 * busyTicks (cfsInit s₀) calls ∧
      (∀ s₁, Makes cfsCall (cfsInit s₀) calls s₁ .tick → ∃ t₁, Clocked s₁ t₁) ∧
      ∀ entry nice s₁ s₂ i, Makes cfsCall (cfsInit s₀) calls s₁ (.create entry nice) →
        cfsCreateProcess s₁ entry nice = some (some i, s₂) →
        ChargedSince (s₂.procs i).vruntime (s.procs i) := by
  induction calls using List.reverseRecOn with
  | nil =>
    refine ⟨cfsInit s₀, nil, rfl, ⟨sched_init s₀, fun c hc => by cases hc⟩, ?_,
      fun s₁ h => absurd h not_makes_nil, fun _ _ s₁ _ _ h => absurd h not_makes_nil⟩
    rw [totalRuntime_eq]
    exact Finset.sum_eq_zero fun i _ => if_neg (not_not.2 rfl)
  | append_singleton cs c ih =>
    obtain ⟨s, t, hs, hclocked, htotal, hticks, hsince⟩ := ih (hw.mono (List.prefix_append _ _))
    rw [run_concat, hs, Option.bind_some, busyTicks_concat hs]
    have hticks' : ∀ s₁, Makes cfsCall (cfsInit s₀) (cs ++ [c]) s₁ .tick → ∃ t₁, Clocked s₁ t₁ := by
      intro s₁ h
      rcases (makes_concat hs).1 h with h | ⟨rfl, -⟩
      · exact hticks s₁ h
      · exact ⟨t, hclocked⟩
    cases c with
    | tick =>
      obtain ⟨s', t', hs', hclocked', hch, hsame⟩ := hclocked.tick fun s' hs' =>
        hw s s' ((makes_concat hs).2 (.inr ⟨rfl, rfl⟩)) hs'
      refine ⟨s', t', hs', hclocked', ?_, hticks', ?_⟩
      · rw [hch.total hsame fun c => hclocked.sched.current_ne_unused, htotal]
        simp only [true_and]
        ring
      · intro entry nice s₁ s₂ i h h₂
        rcases (makes_concat hs).1 h with h | ⟨-, hd⟩
        · exact (hsince entry nice s₁ s₂ i h h₂).tick hch hsame
        · cases hd
    | create entry nice =>
      obtain ⟨r, s', t', hs', hclocked', htotal', hnew, hold⟩ := hclocked.create entry nice
      refine ⟨s', t', by rw [cfsCall, hs', Option.map_some], hclocked', ?_, hticks', ?_⟩
      · rw [htotal', htotal]
        simp
      · intro entry' nice' s₁ s₂ i h h₂
        rcases (makes_concat hs).1 h with h | ⟨rfl, hd⟩
        · have hi := hsince entry' nice' s₁ s₂ i h h₂
          rw [hold i hi.1]
          exact hi
        · rw [CfsCall.create.injEq] at hd
          rw [hd.1, hd.2, hs', Option.some_inj, Prod.mk.injEq] at h₂
          obtain ⟨-, hused, hsum⟩ := hnew i h₂.1
          rw [← h₂.2]
          exact ⟨hused, 0, hsum, by rw [zero_mul, add_zero]⟩

/-- In every run of creations and ticks after `cfs_init` in which no counter of 64 bits wraps,
    a tick charges the current task, and only it, for exactly 1 ms; the virtual runtime of a
    task is the one it was created with and the charges for its runtime; and the runtimes
    together are 1 ms for each tick made with a current task. -/
theorem cfs_accounting (s₀ : Cfs) (calls : List CfsCall) (hw : NeverWraps s₀ calls) :
    ∃ s, run cfsCall (cfsInit s₀) calls = some s ∧ Accounts s₀ calls s := by
  obtain ⟨s, t, hs, -, htotal, hticks, hsince⟩ := run_clocked hw
  refine ⟨s, hs, fun s₁ h₁ => ?_, fun entry nice s₁ s₂ i h₁ h₂ => ?_, htotal⟩
  · obtain ⟨t₁, hclocked⟩ := hticks s₁ h₁
    obtain ⟨s₂, -, hs₂, -, hch, -⟩ := hclocked.tick fun s₂ => hw s₁ s₂ h₁
    exact ⟨s₂, hs₂, hch⟩
  · obtain ⟨-, k, hsum, hv⟩ := hsince entry nice s₁ s₂ i h₁ h₂
    rw [hsum, Nat.mul_div_cancel_left k (by decide)]
    exact hv

/-- Nothing wraps, if it does not at any tick that a check of the whole run tries. -/
theorem neverWraps_of_all {s₀ : Cfs} {calls : List CfsCall}
    (hall : ∀ k < calls.length, (run cfsCall (cfsInit s₀) (calls.take k)).all fun s₁ =>
      (cfsSchedulerTick s₁).all fun s₂ => decide (s₁.Unwrapped s₂)) : NeverWraps s₀ calls := by
  intro s₁ s₂ h₁ h₂
  obtain ⟨k, hk, -, hs₁⟩ := h₁.exists_take
  have hk := hall k hk
  rw [hs₁] at hk
  simpa [h₂] using hk

/-- Two tasks and four ticks, of which the last charges the second task. -/
theorem accounting_two_tasks : ∃ s, run cfsCall (cfsInit .boot)
      [.create 0 0, .create 0 19, .tick, .tick, .tick, .tick] = some s ∧
    Accounts .boot [.create 0 0, .create 0 19, .tick, .tick, .tick, .tick] s :=
  cfs_accounting .boot _ (neverWraps_of_all (by decide +kernel))

end Fru1tOs
