import Fru1tOs.Cfs.MinVruntime

/-!
# Preemption

When a tick replaces the current task. It should do so only if the task, once it is charged, is
ahead of the first queued one by more than the granularity; the task that is dispatched then has the
least virtual runtime of all runnable ones, the one that was preempted included (`TickRight`).

The difference that `cfs_check_preempt_curr` compares is one of unsigned numbers: for a task that is
*behind* the first queued one it wraps, and is past the granularity unless it is within the
granularity of `2 ^ 64` (`checkPreempt_iff_behind`). A tick is right exactly if it does not charge a
task that stays behind (`tick_right_iff`).
-/

namespace Fru1tOs

open Lib RBTree

/-- The tick from `s` to `s'` preempts and dispatches as it should. -/
structure TickRight (s s' : Cfs) : Prop where
  /-- A task that is replaced is ahead of the first queued one. -/
  ahead : ∀ c, s.current = some c → s'.current ≠ some c →
    ∃ n, s.leftmost = some n ∧ (s.procs n).vruntime + minGranularity < (s'.procs c).vruntime
  /-- A task that is dispatched is the furthest behind. -/
  least : ∀ n, s'.current = some n → s.current ≠ some n →
    ∀ i, s'.Runnable i → (s'.procs n).vruntime ≤ (s'.procs i).vruntime

/-- The current task, once it is charged, is not behind the first queued one, unless the difference
    is within the granularity of `2 ^ 64`. -/
def Cfs.NotBehind (s : Cfs) : Prop := ∀ c n, s.current = some c → s.leftmost = some n →
  (s.procs n).vruntime ≤ (s.procs c).vruntime + tickCharge (s.procs c).weight ∨
    (s.procs c).vruntime + tickCharge (s.procs c).weight + 2 ^ 64 ≤
      (s.procs n).vruntime + minGranularity

instance (s : Cfs) : Decidable s.NotBehind := inferInstanceAs (Decidable (∀ _ _, _ → _ → _))

/-! ## One tick -/

section Tick

variable {s s' : Cfs} {t t' : RBTree Pid} {c n : Pid}

/-- A task that goes on is not behind. -/
theorem Clocked.notBehind_goOn (h : Clocked s t) (hcur : s.current = some c)
    (hch : Charges s (cfsUpdateCurr s c))
    (hstay : ∀ n l, t.toList = n :: l → cfsCheckPreemptCurr (cfsUpdateCurr s c) c n = false) :
    s.NotBehind := by
  intro d n hd hn
  obtain rfl : c = d := by rwa [hcur, Option.some_inj] at hd
  obtain ⟨l, hl⟩ : ∃ l, t.toList = n :: l := by
    rw [h.sched.queue.leftmost] at hn
    exact List.head?_eq_some_iff.1 hn
  have hv := (hch.current c hcur).2.2.2
  have hvn := (hch.others n (h.sched.first hl).2).2
  have hcheck := hstay n l hl
  rw [Bool.eq_false_iff, Ne, checkPreempt_iff_behind (h.updateCurr_vruntime_lt hcur), hv, hvn]
    at hcheck
  omega

/-- A task that is replaced was not behind exactly if it is ahead of the first queued one, which is
    then behind all others. -/
theorem Clocked.tickRight_switch_iff (h : Clocked s t) (hsched : Sched s' t') {l : List Pid}
    (hsw : Switched s s' t t' c n l)
    (hpreempt : cfsCheckPreemptCurr (cfsUpdateCurr s c) c n = true) (hch : Charges s s') :
    TickRight s s' ↔ s.NotBehind := by
  have hcur := hsw.current
  have hnc := (h.sched.first hsw.queue).2
  have hleft : s.leftmost = some n := by rw [h.sched.queue.leftmost, hsw.queue, List.head?_cons]
  have hv := (hch.current c hcur).2.2.2
  rw [checkPreempt_iff_behind (h.updateCurr_vruntime_lt hcur), hsw.updated c, hsw.updated n,
    hsw.next, hv] at hpreempt
  constructor
  · intro hright d m hd hm
    obtain rfl : c = d := by rwa [hcur, Option.some_inj] at hd
    obtain rfl : n = m := by rwa [hleft, Option.some_inj] at hm
    obtain ⟨m, hm, hahead⟩ := hright.ahead c hcur fun e => hnc (by rw [hcur, ← e, hsw.current'])
    obtain rfl : n = m := by rwa [hleft, Option.some_inj] at hm
    rw [hv] at hahead
    exact .inl (by omega)
  · intro hnot
    have hahead : (s.procs n).vruntime + minGranularity <
        (s.procs c).vruntime + tickCharge (s.procs c).weight := by
      have := hnot c n hcur hleft
      omega
    refine ⟨fun d hd _ => ?_, fun m hm _ i hi => ?_⟩
    · obtain rfl : c = d := by rwa [hcur, Option.some_inj] at hd
      exact ⟨n, hleft, by rwa [hv]⟩
    · obtain rfl : n = m := by rwa [hsw.current', Option.some_inj] at hm
      rw [hsched.runnable_iff, hsw.current', Option.some_inj, hsw.queue'.mem_iff,
        List.mem_cons] at hi
      rw [hsw.next]
      rcases hi with rfl | rfl | hi
      · exact hsw.next.ge
      · omega
      · have hit : i ∈ t.toList := by rw [hsw.queue]; exact List.mem_cons_of_mem _ hi
        rw [hsw.rest i hi]
        exact h.sched.queue.first_le hsw.queue hit

/-- A tick is right exactly if the current task is not behind. -/
theorem Clocked.tickRight_iff (h : Clocked s t)
    (hw : ∀ s', cfsSchedulerTick s = some s' → s.Unwrapped s') :
    ∃ s', cfsSchedulerTick s = some s' ∧ (TickRight s s' ↔ s.NotBehind) := by
  obtain ⟨s', t', hs', hsched, hstep⟩ := cfsSchedulerTick_cases h.sched
  obtain ⟨s₁, t₁, hs₁, -, hch, -⟩ := h.tick hw
  obtain rfl : s' = s₁ := Option.some_inj.1 (hs'.symm.trans hs₁)
  have hidle : s.current = none → s.NotBehind := fun hcur c n hc => by
    rw [hcur] at hc
    cases hc
  refine ⟨s', hs', ?_⟩
  cases hstep with
  | idle hcur hl hs =>
    subst hs
    refine iff_of_true ⟨fun c hc => ?_, fun n hn hn' => absurd hn hn'⟩ (hidle hcur)
    rw [hcur] at hc
    cases hc
  | dispatch n l hcur hl hcur' hl' hcounter hprocs hmin =>
    refine iff_of_true ⟨fun c hc => ?_, fun m hm _ i hi => ?_⟩ (hidle hcur)
    · rw [hcur] at hc
      cases hc
    · obtain rfl : n = m := by rwa [hcur', Option.some_inj] at hm
      have hit : i ∈ t.toList := by
        rw [hsched.runnable_iff, hcur', Option.some_inj, hl'] at hi
        rw [hl, List.mem_cons]
        exact hi.imp_left Eq.symm
      have hnone : ∀ j, s.current ≠ some j := fun j => by
        rw [hcur]
        exact (Option.some_ne_none j).symm
      rw [(hch.others n (hnone n)).2, (hch.others i (hnone i)).2]
      exact h.sched.queue.first_le hl hit
  | goOn c hcur hs ht hstay =>
    subst hs ht
    have hsame : (cfsUpdateCurr s c).current = s.current :=
      (cfsUpdateCurr_frame s c).2.2.2.2.2.2.1
    refine iff_of_true ⟨fun d hd hne => ?_, fun n hn hne => ?_⟩ (h.notBehind_goOn hcur hch hstay)
    · exact absurd (hsame.trans hd) hne
    · exact absurd (hsame.symm.trans hn) hne
  | switch c n l hcur hl hpreempt hcur' hl' hcounter hprocs hmin =>
    have hsw := h.switched hcur hl hcur' hl' hprocs hmin
    exact h.tickRight_switch_iff hsched hsw hpreempt hch

end Tick

/-- In a run of creations and ticks after `cfs_init` in which no counter of 64 bits wraps, a tick
    replaces the current task only when it is ahead of the first queued one by more than the
    granularity, and dispatches the runnable task that is the furthest behind, exactly if the
    current task, once it is charged, is not behind the first queued one. -/
theorem tick_right_iff (s₀ : Cfs) (calls : List CfsCall) (hw : NeverWraps s₀ calls) :
    ∃ s, run cfsCall (cfsInit s₀) calls = some s ∧
      ∀ s₁, Makes cfsCall (cfsInit s₀) calls s₁ .tick →
        ∃ s₂, cfsSchedulerTick s₁ = some s₂ ∧ (TickRight s₁ s₂ ↔ s₁.NotBehind) := by
  obtain ⟨s, t, hs, -, -, hticks, -⟩ := run_clocked hw
  refine ⟨s, hs, fun s₁ h₁ => ?_⟩
  obtain ⟨t₁, hclocked⟩ := hticks s₁ h₁
  exact hclocked.tickRight_iff fun s₂ => hw s₁ s₂ h₁

/-- Two tasks of nice 0, and one switch. -/
theorem tick_right_two_tasks : ∃ s, run cfsCall (cfsInit .boot)
      [.create 0 0, .create 0 0, .tick, .tick, .tick] = some s ∧
    ∀ s₁, Makes cfsCall (cfsInit .boot) [.create 0 0, .create 0 0, .tick, .tick, .tick] s₁ .tick →
      ∃ s₂, cfsSchedulerTick s₁ = some s₂ ∧ (TickRight s₁ s₂ ↔ s₁.NotBehind) :=
  tick_right_iff .boot _ (neverWraps_of_all (by decide +kernel))

/-- Two tasks of nice 0: at the fourth tick the second one, charged to 1 ms, is preempted by the
    first one, which is at 2 ms. -/
theorem behind_preempted : ¬ ∀ (s₀ : Cfs) (calls : List CfsCall), NeverWraps s₀ calls →
    ∀ s₁ s₂, Makes cfsCall (cfsInit s₀) calls s₁ .tick → cfsSchedulerTick s₁ = some s₂ →
      TickRight s₁ s₂ := by
  intro h
  have hbefore : (run cfsCall (cfsInit .boot)
      [.create 0 0, .create 0 0, .tick, .tick, .tick]).any (fun s₁ => (cfsSchedulerTick s₁).any
        fun s₂ => decide (s₁.current = some 1 ∧ s₂.current = some 0 ∧
          (s₂.procs 0).vruntime = 2000000 ∧ (s₂.procs 1).vruntime = 1000000 ∧ s₂.Runnable 1)) := by
    decide +kernel
  simp only [Option.any_eq_true, decide_eq_true_iff] at hbefore
  obtain ⟨s₁, hs₁, s₂, hs₂, hcur, hcur', hv₀, hv₁, hrun⟩ := hbefore
  have hright := h .boot [.create 0 0, .create 0 0, .tick, .tick, .tick, .tick]
    (neverWraps_of_all (by decide +kernel)) s₁ s₂ ⟨_, List.prefix_rfl, hs₁⟩ hs₂
  have hleast := hright.least 0 hcur' (by rw [hcur]; decide) 1 hrun
  omega

end Fru1tOs
