import Fru1tOs.Cfs.Account

/-!
# The minimum of the virtual runtimes

`min_vruntime` is what a new process starts with. It is brought up to date by `update_min_vruntime`
when a task is charged, and when one leaves the run queue; it never goes down.

At a switch, the second update is made after the next task left the queue, and before it is
the current one: it counts the task that is preempted, and not the one that runs. So the minimum
passes the virtual runtime of the latter, unless another queued task has the same one
(`Cfs.SwitchTied`). This is the only way in which it goes wrong (`min_vruntime_iff`).
-/

namespace Fru1tOs

open Lib RBTree

/-- If the current task, once it is charged, is preempted for being ahead of the first queued one,
    then another queued task has the virtual runtime of the latter. -/
def Cfs.SwitchTied (s : Cfs) : Prop := ∀ c n, s.current = some c → s.leftmost = some n →
  (s.procs n).vruntime + minGranularity < (s.procs c).vruntime + tickCharge (s.procs c).weight →
    ∃ i ≠ n, (s.procs i).onRq = true ∧ (s.procs i).vruntime = (s.procs n).vruntime

instance (s : Cfs) : Decidable s.SwitchTied :=
  inferInstanceAs (Decidable (∀ c n, s.current = some c → s.leftmost = some n → _ → _))

/-- The minimum is at most the virtual runtime of every runnable task. -/
def Cfs.MinLe (s : Cfs) : Prop := ∀ i, s.Runnable i → s.minVruntime ≤ (s.procs i).vruntime

/-- The minimum is right in a run of the calls after `cfs_init` that leads to `s`. -/
structure MinRight (s₀ : Cfs) (calls : List CfsCall) (s : Cfs) : Prop where
  /-- It is so before every call, and at the end. -/
  le : (∀ c s₁, Makes cfsCall (cfsInit s₀) calls s₁ c → s₁.MinLe) ∧ s.MinLe
  /-- No call lets it go down. -/
  mono : ∀ c s₁ s₂, Makes cfsCall (cfsInit s₀) calls s₁ c → cfsCall s₁ c = some s₂ →
    s₁.minVruntime ≤ s₂.minVruntime
  /-- A new process is not ahead of a runnable one. -/
  fresh : ∀ entry nice s₁ i s₂, Makes cfsCall (cfsInit s₀) calls s₁ (.create entry nice) →
    cfsCreateProcess s₁ entry nice = some (some i, s₂) →
    ∀ j, s₁.Runnable j → (s₂.procs i).vruntime ≤ (s₁.procs j).vruntime

/-! ## One update -/

section Update

variable {s : Cfs} {c : Pid} {v : ℕ}

theorem le_updateMinVruntime (s : Cfs) : s.minVruntime ≤ (updateMinVruntime s).minVruntime := by
  simp only [updateMinVruntime]
  split_ifs <;> omega

theorem le_nextMin (s : Cfs) (l : Option Pid) : s.minVruntime ≤ s.nextMin l :=
  le_updateMinVruntime { s with leftmost := l }

theorem updateMinVruntime_le (hcur : s.current = some c) (hmin : s.minVruntime ≤ v)
    (h : (s.procs c).vruntime ≤ v ∨ ∃ l, s.leftmost = some l ∧ (s.procs l).vruntime ≤ v) :
    (updateMinVruntime s).minVruntime ≤ v := by
  simp only [updateMinVruntime, hcur]
  cases hl : s.leftmost with
  | none =>
    have hc : (s.procs c).vruntime ≤ v := by
      rcases h with hc | ⟨l, hl', -⟩
      · exact hc
      · simp [hl] at hl'
    dsimp only
    split_ifs <;> omega
  | some l =>
    have hcl : (s.procs c).vruntime ≤ v ∨ (s.procs l).vruntime ≤ v := by
      refine h.imp_right ?_
      rintro ⟨l', hl', hv⟩
      rw [hl, Option.some_inj] at hl'
      rwa [hl']
    dsimp only
    split_ifs <;> omega

theorem lt_updateMinVruntime (hcur : s.current = some c) (hc : v < (s.procs c).vruntime)
    (hl : ∀ l, s.leftmost = some l → v < (s.procs l).vruntime) :
    v < (updateMinVruntime s).minVruntime := by
  simp only [updateMinVruntime, hcur]
  cases hl' : s.leftmost with
  | none =>
    dsimp only
    split_ifs <;> omega
  | some l =>
    have := hl l hl'
    dsimp only
    split_ifs <;> omega

/-- The minimum after the current task is charged. -/
theorem minVruntime_updateCurr (h0 : (s.procs c).execStart ≠ 0) :
    (cfsUpdateCurr s c).minVruntime = (updateMinVruntime
      (({ s with counter := s.clock } : Cfs).modify c fun _ => s.charged c)).minVruntime := by
  rw [cfsUpdateCurr_eq]
  dsimp only
  rw [if_neg h0]
  rfl

end Update

/-! ## One tick -/

section Tick

variable {s s' : Cfs} {t t' : RBTree Pid} {c n : Pid}

theorem charged_vruntime_lt (h0 : (s.procs c).execStart ≠ 0) : (s.charged c).vruntime < 2 ^ 64 := by
  rw [Cfs.charged, if_neg h0]
  exact Nat.mod_lt _ (by decide)

theorem Clocked.execStart_ne_zero (h : Clocked s t) (hcur : s.current = some c) :
    (s.procs c).execStart ≠ 0 := by
  rw [(h.execStart c hcur).1]
  exact (h.execStart c hcur).2.1

/-- Charging the current task keeps the minimum below the runnable ones. -/
theorem Clocked.minLe_updateCurr (h : Clocked s t) (hmin : s.MinLe) (hcur : s.current = some c)
    (hv : (s.procs c).vruntime ≤ (s.charged c).vruntime) : (cfsUpdateCurr s c).MinLe := by
  obtain ⟨hprocs, -, -, -, -, -, hucur, -⟩ := cfsUpdateCurr_frame s c
  intro i hi
  rw [minVruntime_updateCurr (h.execStart_ne_zero hcur), hprocs]
  refine updateMinVruntime_le hcur ?_ ?_
  · rcases eq_or_ne i c with rfl | hic
    · rw [Function.update_self]
      exact (hmin i (.inl hcur)).trans hv
    · rw [Function.update_of_ne hic]
      refine hmin i ?_
      rw [Cfs.Runnable, hucur, hprocs, Function.update_of_ne hic] at hi
      exact hi
  · rcases eq_or_ne i c with rfl | hic
    · exact .inl le_rfl
    · -- A queued task is not before the first one.
      have hit : i ∈ t.toList := by
        rw [(h.sched.updateCurr hcur).runnable_iff, hucur, hcur, Option.some_inj] at hi
        exact hi.resolve_left hic.symm
      obtain ⟨n, l, hl⟩ := List.exists_cons_of_ne_nil (List.ne_nil_of_mem hit)
      have hnc : n ≠ c := fun hnc =>
        h.sched.current_not_mem hcur (by rw [hl, hnc]; exact List.mem_cons_self)
      have hleft : s.leftmost = some n := by rw [h.sched.queue.leftmost, hl, List.head?_cons]
      refine .inr ⟨n, hleft, ?_⟩
      rw [Function.update_of_ne hic, Cfs.modify_procs_ne _ _ hnc]
      exact h.sched.queue.first_le hl hit

/-- Whether the current task is preempted by a task that may be ahead of it or behind. -/
theorem checkPreempt_iff_behind (hlt : (s.procs c).vruntime < 2 ^ 64) :
    cfsCheckPreemptCurr s c n = true ↔
      (s.procs n).vruntime + minGranularity < (s.procs c).vruntime ∨
      (s.procs c).vruntime < (s.procs n).vruntime ∧
        (s.procs n).vruntime + minGranularity < (s.procs c).vruntime + 2 ^ 64 := by
  rw [cfsCheckPreemptCurr, decide_eq_true_iff, minGranularity]
  omega

/-- The current task was charged before, so that its charge is taken modulo `2 ^ 64`. -/
theorem Clocked.updateCurr_vruntime_lt (h : Clocked s t) (hcur : s.current = some c) :
    ((cfsUpdateCurr s c).procs c).vruntime < 2 ^ 64 := by
  rw [(cfsUpdateCurr_frame s c).1, Function.update_self]
  exact charged_vruntime_lt (h.execStart_ne_zero hcur)

/-- The virtual runtimes after a switch from `c`, which is charged, to `n`, the first of the
    queue, and what the minimum is made of. -/
structure Switched (s s' : Cfs) (t t' : RBTree Pid) (c n : Pid) (l : List Pid) : Prop where
  current : s.current = some c
  queue : t.toList = n :: l
  current' : s'.current = some n
  queue' : t'.toList.Perm (c :: l)
  not_mem : n ∉ l
  next : (s'.procs n).vruntime = (s.procs n).vruntime
  prev : (s'.procs c).vruntime = (s.charged c).vruntime
  rest : ∀ i ∈ l, (s'.procs i).vruntime = (s.procs i).vruntime
  updated : ∀ i, ((cfsUpdateCurr s c).procs i).vruntime = (s'.procs i).vruntime
  min : s'.minVruntime = (cfsUpdateCurr s c).nextMin t'.toList.head?

theorem Clocked.switched (h : Clocked s t) {l : List Pid} (hcur : s.current = some c)
    (hl : t.toList = n :: l) (hcur' : s'.current = some n) (hl' : t'.toList.Perm (c :: l))
    (hprocs : s'.procs = Function.update (Function.update s.procs c { s.charged c with
      onRq := true, state := .ready, execStart := 0 }) n { s.procs n with
      onRq := false, state := .running, execStart := s'.counter })
    (hmin' : s'.minVruntime = (cfsUpdateCurr s c).nextMin t'.toList.head?) :
    Switched s s' t t' c n l := by
  have hnt : n ∈ t.toList := by rw [hl]; exact List.mem_cons_self
  have hnc : n ≠ c := fun hnc => h.sched.current_not_mem hcur (hnc ▸ hnt)
  have hnl : n ∉ l := (List.nodup_cons.1 (hl ▸ h.sched.queue.repr.nodup)).1
  refine ⟨hcur, hl, hcur', hl', hnl, ?_, ?_, fun i hi => ?_, fun i => ?_, hmin'⟩
  · rw [hprocs, Function.update_self]
  · rw [hprocs, Function.update_of_ne hnc.symm, Function.update_self]
  · have hin : i ≠ n := fun hin => hnl (hin ▸ hi)
    have hic : i ≠ c := fun hic => h.sched.current_not_mem hcur
      (by rw [hl, ← hic]; exact List.mem_cons_of_mem _ hi)
    rw [hprocs, Function.update_of_ne hin, Function.update_of_ne hic]
  · rw [(cfsUpdateCurr_frame s c).1, hprocs]
    rcases eq_or_ne i n with rfl | hin
    · rw [Function.update_of_ne hnc, Function.update_self]
    · rw [Function.update_of_ne hin]
      rcases eq_or_ne i c with rfl | hic
      · rw [Function.update_self, Function.update_self]
      · rw [Function.update_of_ne hic, Function.update_of_ne hic]

section Switched

variable {l : List Pid} {m : Pid} {v : ℕ}

theorem Switched.updated_current (h : Switched s s' t t' c n l) :
    (cfsUpdateCurr s c).current = some c := by
  obtain ⟨-, -, -, -, -, -, hucur, -⟩ := cfsUpdateCurr_frame s c
  exact hucur.trans h.current

/-- A task that is runnable after the switch was so before. -/
theorem Switched.runnable (h : Switched s s' t t' c n l) (hsched : Sched s t) {i : Pid}
    (hi : i = n ∨ i ∈ t'.toList) : (cfsUpdateCurr s c).Runnable i := by
  rw [(hsched.updateCurr h.current).runnable_iff, h.updated_current, Option.some_inj, h.queue,
    List.mem_cons]
  rw [h.queue'.mem_iff, List.mem_cons] at hi
  tauto

/-- The minimum after a switch, by the task that is preempted and the first one of the queue. -/
theorem Switched.min_le (h : Switched s s' t t' c n l) (hm : t'.toList.head? = some m)
    (hu : (cfsUpdateCurr s c).minVruntime ≤ v)
    (hv : (s'.procs c).vruntime ≤ v ∨ (s'.procs m).vruntime ≤ v) : s'.minVruntime ≤ v := by
  rw [h.min, hm]
  refine updateMinVruntime_le h.updated_current hu ?_
  refine hv.imp (fun hv => ?_) fun hv => ⟨m, rfl, ?_⟩
  · rwa [← h.updated] at hv
  · rwa [← h.updated] at hv

/-- Without a tie, all queued tasks are ahead of the one that runs, and so is the minimum. -/
theorem Switched.lt_min (h : Switched s s' t t' c n l) (hsched : Sched s t)
    (hm : t'.toList.head? = some m)
    (hahead : (s.procs n).vruntime < (s.charged c).vruntime)
    (hnone : ¬∃ i ≠ n, (s.procs i).onRq = true ∧ (s.procs i).vruntime = (s.procs n).vruntime) :
    (s.procs n).vruntime < s'.minVruntime := by
  rw [h.min, hm]
  refine lt_updateMinVruntime h.updated_current ?_ fun k hk => ?_
  · rwa [show ((cfsUpdateCurr s c).procs c).vruntime = _ from h.updated c, h.prev]
  · obtain rfl : m = k := Option.some_inj.1 hk
    rw [show ((cfsUpdateCurr s c).procs m).vruntime = _ from h.updated m]
    rcases List.mem_cons.1 (h.queue'.mem_iff.1 (List.mem_of_mem_head? hm)) with rfl | hml
    · rwa [h.prev]
    · have hmt : m ∈ t.toList := by rw [h.queue]; exact List.mem_cons_of_mem _ hml
      rw [h.rest m hml]
      refine lt_of_le_of_ne (hsched.queue.first_le h.queue hmt) fun heq =>
        hnone ⟨m, ?_, ?_, heq.symm⟩
      · exact fun hmn => h.not_mem (hmn ▸ hml)
      · exact (hsched.queue.mem_iff m).1 hmt

end Switched

/-- After a switch, the minimum is right exactly if the task that runs is tied with a queued one,
    unless it is ahead of the one that was preempted. -/
theorem Clocked.minLe_switch_iff (h : Clocked s t) (hmin : s.MinLe) (hsched : Sched s' t')
    {l : List Pid} (hsw : Switched s s' t t' c n l)
    (hpreempt : cfsCheckPreemptCurr (cfsUpdateCurr s c) c n = true)
    (hv : (s.procs c).vruntime ≤ (s.charged c).vruntime) :
    s'.MinLe ↔ ((s.procs n).vruntime + minGranularity < (s.charged c).vruntime →
      ∃ i ≠ n, (s.procs i).onRq = true ∧ (s.procs i).vruntime = (s.procs n).vruntime) := by
  have humin := h.minLe_updateCurr hmin hsw.current hv
  -- The queue after the switch has a first task.
  obtain ⟨m, l', hm⟩ := List.exists_cons_of_ne_nil
    (List.ne_nil_of_mem (hsw.queue'.mem_iff.2 List.mem_cons_self))
  have hhead : t'.toList.head? = some m := by rw [hm, List.head?_cons]
  constructor
  · intro hle hahead
    by_contra hnone
    have hlt := hsw.lt_min h.sched hhead (by omega) hnone
    have hrun := hle n (.inl hsw.current')
    rw [hsw.next] at hrun
    omega
  · intro htied i hi
    rw [hsched.runnable_iff, hsw.current', Option.some_inj] at hi
    have humin' := (humin i (hsw.runnable h.sched (hi.imp_left Eq.symm))).trans_eq (hsw.updated i)
    rcases hi with rfl | hi
    · by_cases hle : (s.procs n).vruntime ≤ (s.charged c).vruntime
      · -- The current task was ahead: there is a tie.
        have huc := (hsw.updated c).trans hsw.prev
        have hun := (hsw.updated n).trans hsw.next
        rw [checkPreempt_iff_behind (h.updateCurr_vruntime_lt hsw.current), huc, hun] at hpreempt
        obtain ⟨j, hjn, hjq, hjv⟩ := htied (hpreempt.resolve_right fun hlt => not_lt.2 hle hlt.1)
        have hjl : j ∈ l := by
          have hjt := (h.sched.queue.mem_iff j).2 hjq
          rw [hsw.queue, List.mem_cons] at hjt
          exact hjt.resolve_left hjn
        have hjt' : j ∈ t'.toList := hsw.queue'.mem_iff.2 (List.mem_cons_of_mem _ hjl)
        refine hsw.min_le hhead humin' (.inr ((hsched.queue.first_le hm hjt').trans ?_))
        rw [hsw.rest j hjl, hsw.next, hjv]
      · -- The current task was behind: it is counted.
        refine hsw.min_le hhead humin' (.inl ?_)
        rw [hsw.prev, hsw.next]
        omega
    · exact hsw.min_le hhead humin' (.inr (hsched.queue.first_le hm hi))

/-- Before the first dispatch, no virtual runtime has moved. -/
def Cfs.AtRest (s : Cfs) : Prop :=
  s.current = none → s.minVruntime = 0 ∧ ∀ i, (s.procs i).vruntime = 0

/-- A tick keeps the minimum right exactly if a switch that it makes is tied. -/
theorem Clocked.minLe_tick_iff (h : Clocked s t) (hmin : s.MinLe) (hrest : s.AtRest)
    (hw : ∀ s', cfsSchedulerTick s = some s' → s.Unwrapped s')
    (hs' : cfsSchedulerTick s = some s') : s'.MinLe ↔ s.SwitchTied := by
  have hidle : s.current = none → s.SwitchTied := fun hcur c n hc => by
    rw [hcur] at hc
    cases hc
  obtain ⟨s₁, t₁, hs₁, -, hch, -⟩ := h.tick hw
  obtain rfl : s' = s₁ := Option.some_inj.1 (hs'.symm.trans hs₁)
  have hw := hw s' hs'
  obtain ⟨s₂, t', hs₂, hsched, hstep⟩ := cfsSchedulerTick_cases h.sched
  obtain rfl : s' = s₂ := Option.some_inj.1 (hs'.symm.trans hs₂)
  cases hstep with
  | idle hcur hl hs =>
    subst hs
    exact iff_of_true hmin (hidle hcur)
  | dispatch n l hcur hl hcur' hl' hcounter hprocs hmin' =>
    refine iff_of_true (fun i hi => ?_) (hidle hcur)
    obtain ⟨h0, hv⟩ := hrest hcur
    have hmin0 : s'.minVruntime = 0 := by
      rw [hmin', Cfs.nextMin]
      simp only [updateMinVruntime, hcur, hv, h0]
      cases l.head? <;> rfl
    rw [hmin0]
    exact Nat.zero_le _
  | goOn c hcur hs ht hstay =>
    subst hs ht
    have hself : (cfsUpdateCurr s c).procs c = s.charged c := by
      rw [(cfsUpdateCurr_frame s c).1, Function.update_self]
    have hv := (hch.current c hcur).2.2.2
    refine iff_of_true (h.minLe_updateCurr hmin hcur (hself ▸ hw.vruntime c)) ?_
    intro d n hd hn hahead
    obtain rfl : c = d := by rwa [hcur, Option.some_inj] at hd
    -- Ahead of the first task by more than the granularity, it would not go on.
    obtain ⟨l, hl⟩ : ∃ l, t'.toList = n :: l := by
      rw [h.sched.queue.leftmost] at hn
      exact List.head?_eq_some_iff.1 hn
    have hnc : s.current ≠ some n := (h.sched.first hl).2
    have hvn := (hch.others n hnc).2
    have hcheck := hstay n l hl
    rw [Bool.eq_false_iff, Ne, checkPreempt_iff_behind (h.updateCurr_vruntime_lt hcur), hv, hvn]
      at hcheck
    exact absurd (.inl hahead) hcheck
  | switch c n l hcur hl hpreempt hcur' hl' hcounter hprocs hmin' =>
    have hsw := h.switched hcur hl hcur' hl' hprocs hmin'
    rw [h.minLe_switch_iff hmin hsched hsw hpreempt (hsw.prev ▸ hw.vruntime c), ← hsw.prev,
      (hch.current c hcur).2.2.2]
    have hleft : s.leftmost = some n := by rw [h.sched.queue.leftmost, hl, List.head?_cons]
    refine ⟨fun htied d m hd hm => ?_, fun htied => htied c n hcur hleft⟩
    obtain rfl : c = d := by rwa [hcur, Option.some_inj] at hd
    obtain rfl : n = m := by rwa [hleft, Option.some_inj] at hm
    exact htied

/-- No call lets the minimum go down. -/
theorem Sched.minVruntime_mono (h : Sched s t) {call : CfsCall} (hs' : cfsCall s call = some s') :
    s.minVruntime ≤ s'.minVruntime := by
  have hupdate : ∀ c, s.minVruntime ≤ (cfsUpdateCurr s c).minVruntime := fun c => by
    rw [cfsUpdateCurr_eq]
    dsimp only
    split_ifs
    · exact le_rfl
    · exact le_updateMinVruntime
        (({ s with counter := s.clock } : Cfs).modify c fun _ => s.charged c)
  cases call with
  | create entry nice =>
    obtain ⟨r, s₁, t₁, hs₁, -, hcase⟩ := cfsCreateProcess_cases entry nice h
    rw [cfsCall, hs₁, Option.map_some, Option.some_inj] at hs'
    subst hs'
    rcases hcase with ⟨-, -, rfl, -⟩ | ⟨-, -, -, -, -, hmin, -⟩
    · exact le_rfl
    · exact hmin.ge
  | tick =>
    obtain ⟨s₁, t', hs₁, -, hstep⟩ := cfsSchedulerTick_cases h
    obtain rfl : s' = s₁ := Option.some_inj.1 (hs'.symm.trans hs₁)
    cases hstep with
    | idle hcur hl hs => rw [hs]
    | dispatch n l hcur hl hcur' hl' hcounter hprocs hmin' =>
      rw [hmin']
      exact le_nextMin s _
    | goOn c hcur hs ht hstay =>
      rw [hs]
      exact hupdate c
    | switch c n l hcur hl hpreempt hcur' hl' hcounter hprocs hmin' =>
      rw [hmin']
      exact (hupdate c).trans (le_nextMin _ _)

/-- After a tick there is a current task, unless there is none at all. -/
theorem Sched.atRest_tick (h : Sched s t) (hrest : s.AtRest) (hs' : cfsSchedulerTick s = some s') :
    s'.AtRest := by
  obtain ⟨s₁, t', hs₁, -, hstep⟩ := cfsSchedulerTick_cases h
  obtain rfl : s' = s₁ := Option.some_inj.1 (hs'.symm.trans hs₁)
  intro hnone
  cases hstep with
  | idle hcur hl hs =>
    subst hs
    exact hrest hcur
  | dispatch n l hcur hl hcur' hl' hcounter hprocs hmin' =>
    rw [hcur'] at hnone
    cases hnone
  | goOn c hcur hs ht hstay =>
    rw [hs, (cfsUpdateCurr_frame s c).2.2.2.2.2.2.1, hcur] at hnone
    cases hnone
  | switch c n l hcur hl hpreempt hcur' hl' hcounter hprocs hmin' =>
    rw [hcur'] at hnone
    cases hnone

/-- A creation keeps the minimum right: the new process starts with it. -/
theorem Sched.create_min (h : Sched s t) {entry : ℕ} {nice : ℤ}
    (hs' : cfsCall s (.create entry nice) = some s') :
    (s.MinLe → s'.MinLe) ∧ (s.AtRest → s'.AtRest) := by
  obtain ⟨r, s₁, t₁, hs₁, -, hcase⟩ := cfsCreateProcess_cases entry nice h
  rw [cfsCall, hs₁, Option.map_some, Option.some_inj] at hs'
  subst hs'
  rcases hcase with ⟨-, -, rfl, -⟩ | ⟨i, -, hiu, hprocs, hcur, hmin, -⟩
  · exact ⟨id, id⟩
  · have hself : (s₁.procs i).vruntime = s.minVruntime := by
      rw [hprocs, Function.update_self]
      rfl
    have hother : ∀ j, j ≠ i → s₁.procs j = s.procs j := fun j hj => by
      rw [hprocs, Function.update_of_ne hj]
    refine ⟨fun hle j hj => ?_, fun hrest hnone => ?_⟩
    · rcases eq_or_ne j i with rfl | hji
      · rw [hself, hmin]
      · rw [hmin, hother j hji]
        rw [Cfs.Runnable, hcur, hother j hji] at hj
        exact hle j hj
    · obtain ⟨h0, hv⟩ := hrest (hcur ▸ hnone)
      refine ⟨hmin.trans h0, fun j => ?_⟩
      rcases eq_or_ne j i with rfl | hji
      · rw [hself, h0]
      · rw [hother j hji, hv]

end Tick

/-! ## Runs -/

/-- Along a run in which nothing wraps, the minimum is right in every state exactly if every tick
    is tied. -/
theorem run_minLe_iff {s₀ : Cfs} {calls : List CfsCall} (hw : NeverWraps s₀ calls) :
    ∃ s, run cfsCall (cfsInit s₀) calls = some s ∧ (∃ t, Clocked s t) ∧ s.AtRest ∧
      (((∀ c s₁, Makes cfsCall (cfsInit s₀) calls s₁ c → s₁.MinLe) ∧ s.MinLe) ↔
        ∀ s₁, Makes cfsCall (cfsInit s₀) calls s₁ .tick → s₁.SwitchTied) := by
  induction calls using List.reverseRecOn with
  | nil =>
    refine ⟨cfsInit s₀, rfl, ⟨nil, sched_init s₀, fun c hc => by cases hc⟩,
      fun _ => ⟨rfl, fun _ => rfl⟩, iff_of_true ⟨fun c s₁ h => absurd h not_makes_nil, ?_⟩
      fun s₁ h => absurd h not_makes_nil⟩
    exact fun i _ => Nat.zero_le _
  | append_singleton cs c ih =>
    obtain ⟨s, hs, ⟨t, ht⟩, hrest, hiff⟩ := ih (hw.mono (List.prefix_append _ _))
    have hlast : Makes cfsCall (cfsInit s₀) (cs ++ [c]) s c := (makes_concat hs).2 (.inr ⟨rfl, rfl⟩)
    rw [run_concat, hs, Option.bind_some]
    -- The states before the last call are those of the shorter run.
    have hbefore : (∀ d s₁, Makes cfsCall (cfsInit s₀) (cs ++ [c]) s₁ d → s₁.MinLe) ↔
        (∀ d s₁, Makes cfsCall (cfsInit s₀) cs s₁ d → s₁.MinLe) ∧ s.MinLe := by
      refine ⟨fun h => ⟨fun d s₁ h₁ => h d s₁ ((makes_concat hs).2 (.inl h₁)), h c s hlast⟩, ?_⟩
      rintro ⟨h, hend⟩ d s₁ h₁
      rcases (makes_concat hs).1 h₁ with h₁ | ⟨rfl, -⟩
      · exact h d s₁ h₁
      · exact hend
    cases c with
    | create entry nice =>
      obtain ⟨s', t', hs', hsched'⟩ := cfsCall_sched ht.sched (.create entry nice)
      obtain ⟨hmin, hrest'⟩ := ht.sched.create_min hs'
      obtain ⟨r, s₂, t₂, hs₂, hclocked, -⟩ := ht.create entry nice
      obtain rfl : s₂ = s' := by rwa [cfsCall, hs₂, Option.map_some, Option.some_inj] at hs'
      refine ⟨s₂, hs', ⟨t₂, hclocked⟩, hrest' hrest, ?_⟩
      rw [hbefore, and_iff_left_of_imp fun h => hmin h.2, hiff]
      refine forall_congr' fun s₁ => imp_congr_left ?_
      rw [makes_concat hs]
      refine ⟨.inl, ?_⟩
      rintro (h₁ | ⟨-, hc⟩)
      · exact h₁
      · cases hc
    | tick =>
      have hw' := fun s' hs' => hw s s' hlast hs'
      obtain ⟨s', t', hs', hclocked, -⟩ := ht.tick hw'
      refine ⟨s', hs', ⟨t', hclocked⟩, ht.sched.atRest_tick hrest hs', ?_⟩
      rw [hbefore, and_congr_right fun h => ht.minLe_tick_iff h.2 hrest hw' hs', hiff]
      constructor
      · rintro ⟨h, htied⟩ s₁ h₁
        rcases (makes_concat hs).1 h₁ with h₁ | ⟨rfl, -⟩
        · exact h s₁ h₁
        · exact htied
      · exact fun h => ⟨fun s₁ h₁ => h s₁ ((makes_concat hs).2 (.inl h₁)), h s hlast⟩

/-- In a run of creations and ticks after `cfs_init` in which no counter of 64 bits wraps, the
    minimum is always at most the virtual runtime of every runnable task, does not go down, and
    puts no new process ahead of a runnable one, exactly if at every switch that preempts a task
    for being ahead, the task that runs is tied with another queued one. -/
theorem min_vruntime_iff (s₀ : Cfs) (calls : List CfsCall) (hw : NeverWraps s₀ calls) :
    ∃ s, run cfsCall (cfsInit s₀) calls = some s ∧
      (MinRight s₀ calls s ↔
        ∀ s₁, Makes cfsCall (cfsInit s₀) calls s₁ .tick → s₁.SwitchTied) := by
  obtain ⟨s, hs, -, -, hiff⟩ := run_minLe_iff hw
  refine ⟨s, hs, fun h => hiff.1 h.le, fun htied => ?_⟩
  have hle := hiff.2 htied
  have hsched : ∀ c s₁, Makes cfsCall (cfsInit s₀) calls s₁ c → ∃ t, Sched s₁ t :=
    fun c s₁ ⟨pre, _, hpre⟩ => by
      obtain ⟨s₂, hs₂, ht⟩ := run_sched s₀ pre
      obtain rfl : s₁ = s₂ := Option.some_inj.1 (hpre.symm.trans hs₂)
      exact ht
  refine ⟨hle, fun c s₁ s₂ h₁ h₂ => ?_, fun entry nice s₁ i s₂ h₁ h₂ j hj => ?_⟩
  · obtain ⟨t, ht⟩ := hsched c s₁ h₁
    exact ht.minVruntime_mono h₂
  · obtain ⟨t, ht⟩ := hsched _ s₁ h₁
    obtain ⟨r, s₃, t₃, hs₃, -, hcase⟩ := cfsCreateProcess_cases entry nice ht
    rw [h₂, Option.some_inj, Prod.mk.injEq] at hs₃
    obtain ⟨rfl, rfl⟩ := hs₃
    rcases hcase with ⟨hnone, -⟩ | ⟨i', hi', -, hprocs, -⟩
    · cases hnone
    · obtain rfl : i = i' := Option.some_inj.1 hi'
      rw [hprocs, Function.update_self]
      exact hle.1 _ s₁ h₁ j hj

/-- Three tasks of nice 0: at the first switch, the one that runs is tied with the third. -/
theorem min_vruntime_three_tasks : ∃ s, run cfsCall (cfsInit .boot)
      [.create 0 0, .create 0 0, .create 0 0, .tick, .tick, .tick] = some s ∧
    (MinRight .boot [.create 0 0, .create 0 0, .create 0 0, .tick, .tick, .tick] s ↔
      ∀ s₁, Makes cfsCall (cfsInit .boot)
        [.create 0 0, .create 0 0, .create 0 0, .tick, .tick, .tick] s₁ .tick → s₁.SwitchTied) :=
  min_vruntime_iff .boot _ (neverWraps_of_all (by decide +kernel))

/-- Two tasks of nice 0: after the first switch, the minimum is past the task that runs. -/
theorem min_vruntime_two_tasks : ¬ ∀ (s₀ : Cfs) (calls : List CfsCall), NeverWraps s₀ calls →
    ∃ s, run cfsCall (cfsInit s₀) calls = some s ∧ MinRight s₀ calls s := by
  intro h
  obtain ⟨s, hs, hright⟩ := h .boot [.create 0 0, .create 0 0, .tick, .tick, .tick]
    (neverWraps_of_all (by decide +kernel))
  have hpast : (run cfsCall (cfsInit .boot) [.create 0 0, .create 0 0, .tick, .tick, .tick]).all
      (fun s => decide (s.current = some 1 ∧ (s.procs 1).vruntime < s.minVruntime)) := by
    decide +kernel
  rw [hs, Option.all_some, decide_eq_true_iff] at hpast
  have := hright.le.2 1 (.inl hpast.1)
  omega

end Fru1tOs
