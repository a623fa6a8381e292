import Fru1tOs.Cfs.Queue

/-!
# Runs of the scheduler

What a call of the scheduler does, and the invariant of its runs (`Sched`): the
run queue is that of the processes whose `on_rq` is set, the current process is
running and not queued, and every other process that was created is ready and
queued.

A tick has four outcomes (`cfsSchedulerTick_cases`): there is nothing to do, the
first task is dispatched on an idle processor, the current task is charged and
goes on, or it is charged and replaced by the first task. A creation fills a free
slot, or finds none (`cfsCreateProcess_cases`). The invariant holds in every state
of every run (`cfs_consistent`).
-/

namespace Fru1tOs

open Lib RBTree

/-! ## The invariant -/

/-- The process was created since `cfs_init`, according to the messages printed. -/
def Cfs.Created (s : Cfs) (i : Pid) : Prop := ∃ nice weight, CfsEvent.created i nice weight ∈ s.log

/-- The invariant of the scheduler, whose run queue represents the tree `t`. -/
structure Sched (s : Cfs) (t : RBTree Pid) : Prop where
  queue : Queue s t
  running : ∀ c, s.current = some c → (s.procs c).state = .running ∧ (s.procs c).onRq = false
  waiting : ∀ i, s.current ≠ some i → (s.procs i).state ≠ .unused →
    (s.procs i).state = .ready ∧ (s.procs i).onRq = true
  unused : ∀ i, (s.procs i).state = .unused → (s.procs i).onRq = false
  created : ∀ i, s.Created i ↔ (s.procs i).state ≠ .unused
  weight : ∀ i, (s.procs i).state ≠ .unused → 15 ≤ (s.procs i).weight ∧ (s.procs i).weight ≤ 88761

namespace Sched

variable {s : Cfs} {t : RBTree Pid}

/-- The current process is not queued. -/
theorem current_not_mem (h : Sched s t) {c : Pid} (hc : s.current = some c) : c ∉ t.toList := by
  rw [h.queue.mem_iff, (h.running c hc).2]
  decide

theorem current_ne_unused (h : Sched s t) {c : Pid} (hc : s.current = some c) :
    (s.procs c).state ≠ .unused := by
  rw [(h.running c hc).1]
  decide

/-- A queued process was created. -/
theorem queued_ne_unused (h : Sched s t) {i : Pid} (hi : i ∈ t.toList) :
    (s.procs i).state ≠ .unused := fun hu => by
  have := (h.queue.mem_iff i).1 hi
  rw [h.unused i hu] at this
  exact absurd this (by decide)

/-- The first task of the queue. -/
theorem first (h : Sched s t) {n : Pid} {l : List Pid} (hl : t.toList = n :: l) :
    (s.procs n).onRq = true ∧ s.current ≠ some n := by
  have hn : n ∈ t.toList := by rw [hl]; exact List.mem_cons_self
  exact ⟨(h.queue.mem_iff n).1 hn, fun hc => h.current_not_mem hc hn⟩

end Sched

/-- `nice_to_weight` gives a weight of the table. -/
theorem niceToWeight_bounds (nice : ℤ) : 15 ≤ niceToWeight nice ∧ niceToWeight nice ≤ 88761 := by
  have htable : ∀ k < 40, 15 ≤ prioToWeight.getD k 0 ∧ prioToWeight.getD k 0 ≤ 88761 := by decide
  refine htable _ ?_
  split_ifs <;> omega

/-! ## The current task -/

section UpdateCurr

variable (s : Cfs) (c : Pid)

/-- The time that the next reading of the clock gives. -/
def Cfs.clock : ℕ := (s.counter + 1000000) % 2 ^ 64

/-- The time since the last charge of `c`, at the next reading of the clock. -/
def Cfs.elapsed : ℕ := (s.clock + 2 ^ 64 - (s.procs c).execStart) % 2 ^ 64

/-- The virtual runtime of `c` after it is charged. -/
def Cfs.chargedVruntime : ℕ :=
  ((s.procs c).vruntime + calcDeltaFair (s.elapsed c) (s.procs c).weight) % 2 ^ 64

/-- The process `c` after `cfs_update_curr`. -/
def Cfs.charged : CfsProcess :=
  let p := s.procs c
  if p.execStart = 0 then { p with execStart := s.clock }
  else
    { p with
      execStart := s.clock
      sumExecRuntime := (p.sumExecRuntime + s.elapsed c) % 2 ^ 64
      vruntime := s.chargedVruntime c }

@[simp] theorem charged_state : (s.charged c).state = (s.procs c).state := by
  rw [Cfs.charged]; split_ifs <;> rfl

@[simp] theorem charged_onRq : (s.charged c).onRq = (s.procs c).onRq := by
  rw [Cfs.charged]; split_ifs <;> rfl

@[simp] theorem charged_weight : (s.charged c).weight = (s.procs c).weight := by
  rw [Cfs.charged]; split_ifs <;> rfl

/-- `cfs_update_curr` in terms of the process it leaves. -/
theorem cfsUpdateCurr_eq : cfsUpdateCurr s c =
    let s' := ({ s with counter := s.clock } : Cfs).modify c fun _ => s.charged c
    if (s.procs c).execStart = 0 then s' else
      (updateMinVruntime s').print (.updated c (s.chargedVruntime c) (s.elapsed c)) := by
  have hclock : getTimeNs s = (s.clock, { s with counter := s.clock }) := rfl
  rw [cfsUpdateCurr, hclock]
  dsimp only
  by_cases h0 : (s.procs c).execStart = 0
  · rw [if_pos h0, if_pos h0, Cfs.charged, if_pos h0]
    rfl
  · rw [if_neg h0, if_neg h0, Cfs.charged, if_neg h0, ← Cfs.elapsed, ← Cfs.chargedVruntime]
    rfl

/-- `cfs_update_curr` changes the current process, the counter, the minimum and the
    messages. -/
theorem cfsUpdateCurr_frame :
    (cfsUpdateCurr s c).procs = Function.update s.procs c (s.charged c) ∧
    (cfsUpdateCurr s c).counter = s.clock ∧
    (cfsUpdateCurr s c).timeline = s.timeline ∧ (cfsUpdateCurr s c).leftmost = s.leftmost ∧
    (cfsUpdateCurr s c).nrRunning = s.nrRunning ∧
    (cfsUpdateCurr s c).totalWeight = s.totalWeight ∧
    (cfsUpdateCurr s c).current = s.current ∧
    ((cfsUpdateCurr s c).log = s.log ∨
      ∃ v d, (cfsUpdateCurr s c).log = s.log ++ [.updated c v d]) := by
  rw [cfsUpdateCurr_eq]
  dsimp only
  split_ifs with h0
  · exact ⟨rfl, rfl, rfl, rfl, rfl, rfl, rfl, .inl rfl⟩
  · exact ⟨rfl, rfl, rfl, rfl, rfl, rfl, rfl, .inr ⟨_, _, rfl⟩⟩

end UpdateCurr

/-! ## Messages -/

section Log

variable {s s' : Cfs} {e : CfsEvent}

/-- Messages that say nothing about the order of enqueueing nor about creations. -/
def CfsEvent.Quiet : CfsEvent → Prop
  | .updated .. | .scheduled .. | .preempting .. | .noFreeSlots => True
  | _ => False

theorem CfsEvent.Quiet.order (he : e.Quiet) (l : List Pid) : e.order l = l := by
  cases e <;> first | rfl | exact he.elim

/-- A message other than one of creation. -/
theorem created_concat (hlog : s'.log = s.log ++ [e]) (he : ∀ i nice w, e ≠ .created i nice w)
    (i : Pid) : s'.Created i ↔ s.Created i := by
  simp only [Cfs.Created, hlog, List.mem_append, List.mem_singleton]
  refine ⟨fun ⟨nice, w, h⟩ => ⟨nice, w, h.resolve_right fun h => he i nice w h.symm⟩,
    fun ⟨nice, w, h⟩ => ⟨nice, w, .inl h⟩⟩

theorem CfsEvent.Quiet.ne_created (he : e.Quiet) (i : Pid) (nice : ℤ) (w : ℕ) :
    e ≠ .created i nice w := by
  rintro rfl
  exact he

end Log

/-- The invariant depends on the queue, on the current process, on what was created,
    and on the states and the weights. -/
theorem Sched.congr {s s' : Cfs} {t : RBTree Pid} (h : Sched s t) (hq : Queue s' t)
    (hcur : s'.current = s.current) (hcreated : ∀ i, s'.Created i ↔ s.Created i)
    (hprocs : ∀ i, (s'.procs i).state = (s.procs i).state ∧
      (s'.procs i).onRq = (s.procs i).onRq ∧ (s'.procs i).weight = (s.procs i).weight) :
    Sched s' t where
  queue := hq
  running c hc := by
    rw [(hprocs c).1, (hprocs c).2.1]
    exact h.running c (hcur ▸ hc)
  waiting i hi := by
    rw [(hprocs i).1, (hprocs i).2.1]
    exact h.waiting i (hcur ▸ hi)
  unused i := by
    rw [(hprocs i).1, (hprocs i).2.1]
    exact h.unused i
  created i := by rw [hcreated, h.created, (hprocs i).1]
  weight i := by
    rw [(hprocs i).1, (hprocs i).2.2]
    exact h.weight i

section Tick

variable {s : Cfs} {t : RBTree Pid}

/-- Printing a message that is not about the queue. -/
theorem Sched.print (h : Sched s t) {e : CfsEvent} (he : e.Quiet) : Sched (s.print e) t := by
  have horder : enqueueOrder (s.print e).log = enqueueOrder s.log := by
    rw [Cfs.print_log, enqueueOrder_concat, he.order]
  exact h.congr (h.queue.congr rfl rfl rfl rfl horder (fun _ => rfl) fun _ _ => ⟨rfl, rfl⟩) rfl
    (created_concat rfl he.ne_created) fun _ => ⟨rfl, rfl, rfl⟩

/-- Charging the current process keeps the invariant, as it is not queued. -/
theorem Sched.updateCurr (h : Sched s t) {c : Pid} (hc : s.current = some c) :
    Sched (cfsUpdateCurr s c) t := by
  obtain ⟨hprocs, -, htl, hlm, hnr, htw, hcur, hlog⟩ := cfsUpdateCurr_frame s c
  have horder : enqueueOrder (cfsUpdateCurr s c).log = enqueueOrder s.log := by
    rcases hlog with hlog | ⟨v, d, hlog⟩
    · rw [hlog]
    · rw [hlog, enqueueOrder_concat]
      rfl
  have hcreated : ∀ i, (cfsUpdateCurr s c).Created i ↔ s.Created i := fun i => by
    rcases hlog with hlog | ⟨v, d, hlog⟩
    · rw [Cfs.Created, hlog, Cfs.Created]
    · exact created_concat hlog (fun _ _ _ => by simp) i
  have hsame : ∀ i, ((cfsUpdateCurr s c).procs i).state = (s.procs i).state ∧
      ((cfsUpdateCurr s c).procs i).onRq = (s.procs i).onRq ∧
      ((cfsUpdateCurr s c).procs i).weight = (s.procs i).weight := fun i => by
    rw [hprocs]
    by_cases hi : i = c
    · subst hi
      simp
    · rw [Function.update_of_ne hi]
      exact ⟨rfl, rfl, rfl⟩
  refine h.congr (h.queue.congr htl hlm hnr htw horder (fun i => (hsame i).2.1) fun i hi => ?_)
    hcur hcreated hsame
  have hic : i ≠ c := fun hic => h.current_not_mem hc (hic ▸ hi)
  rw [hprocs, Function.update_of_ne hic]
  exact ⟨rfl, rfl⟩

/-- The processor is given to a queued task. -/
theorem cfsDispatch_spec (h : Queue s t) {n : Pid} (hn : (s.procs n).onRq = true) :
    ∃ s' t', cfsDispatch s n = some s' ∧ Queue s' t' ∧ t'.toList = t.toList.erase n ∧
      s'.procs = Function.update s.procs n { s.procs n with
        onRq := false, state := .running, execStart := s.clock } ∧
      s'.current = some n ∧ s'.minVruntime = s.nextMin t'.toList.head? ∧
      s'.counter = s.clock ∧ s'.log = s.log ++ [.dequeued n] := by
  obtain ⟨s₁, t', hs₁, hq, hl, hprocs, hcur, hmin, hcounter, hlog⟩ := cfsDequeueTask_spec h hn
  have hn' : n ∉ t'.toList := by
    rw [hl]
    exact h.repr.nodup.not_mem_erase
  have hclock : getTimeNs s₁ = (s.clock, { s₁ with counter := s.clock }) := by
    rw [getTimeNs, hcounter]
    rfl
  set f : CfsProcess → CfsProcess :=
    fun p => { p with state := .running, execStart := s.clock } with hf
  set s' : Cfs := { ({ s₁ with counter := s.clock } : Cfs).modify n f with current := some n }
    with hs'
  refine ⟨s', t', ?_, ?_, hl, ?_, rfl, hmin, rfl, hlog⟩
  · simp only [cfsDispatch, hs₁, Option.bind_eq_bind, Option.bind_some, hclock,
      Option.pure_def, hs', hf]
  · exact hq.congr rfl rfl rfl rfl rfl
      (fun i => s₁.modify_field n i f CfsProcess.onRq fun _ => rfl)
      fun i _ => ⟨s₁.modify_field n i f CfsProcess.vruntime fun _ => rfl,
        s₁.modify_field n i f CfsProcess.weight fun _ => rfl⟩
  · have hupdate : s'.procs = Function.update s₁.procs n (f (s₁.procs n)) := rfl
    rw [hupdate, hprocs, Cfs.modify]
    simp only [Function.update_self, Function.update_idem, hf]

/-- The invariant after a queued task `n` became the current one, the one before it,
    if any, being queued in its place. -/
theorem Sched.dispatched {s' : Cfs} {t' : RBTree Pid} (h : Sched s t) (hq : Queue s' t') {n : Pid}
    (hn : n ∈ t.toList) (hcur' : s'.current = some n)
    (hnext : (s'.procs n).state = .running ∧ (s'.procs n).onRq = false ∧
      (s'.procs n).weight = (s.procs n).weight)
    (hprev : ∀ c, s.current = some c → (s'.procs c).state = .ready ∧ (s'.procs c).onRq = true ∧
      (s'.procs c).weight = (s.procs c).weight)
    (hother : ∀ i, i ≠ n → s.current ≠ some i → s'.procs i = s.procs i)
    (hcreated : ∀ i, s'.Created i ↔ s.Created i) : Sched s' t' := by
  have hstate : ∀ i, (s'.procs i).state = .unused ↔ (s.procs i).state = .unused := fun i => by
    by_cases hin : i = n
    · rw [hin, hnext.1]
      simpa using h.queued_ne_unused hn
    · by_cases hic : s.current = some i
      · rw [(hprev i hic).1]
        simpa using h.current_ne_unused hic
      · rw [hother i hin hic]
  refine ⟨hq, fun d hd => ?_, fun i hi hiu => ?_, fun i hiu => ?_, fun i => ?_, fun i hiu => ?_⟩
  · obtain rfl : n = d := by rwa [hcur', Option.some_inj] at hd
    exact ⟨hnext.1, hnext.2.1⟩
  · have hin : i ≠ n := fun hin => hi (by rw [hcur', hin])
    by_cases hic : s.current = some i
    · exact ⟨(hprev i hic).1, (hprev i hic).2.1⟩
    · rw [hother i hin hic] at hiu ⊢
      exact h.waiting i hic hiu
  · have hiu' := (hstate i).1 hiu
    have hin : i ≠ n := fun hin => h.queued_ne_unused hn (hin ▸ hiu')
    have hic : s.current ≠ some i := fun hic => h.current_ne_unused hic hiu'
    rw [hother i hin hic]
    exact h.unused i hiu'
  · rw [hcreated, h.created, Ne, Ne, hstate]
  · have hweight : (s'.procs i).weight = (s.procs i).weight := by
      by_cases hin : i = n
      · rw [hin]
        exact hnext.2.2
      · by_cases hic : s.current = some i
        · exact (hprev i hic).2.2
        · rw [hother i hin hic]
    rw [hweight]
    exact h.weight i (mt (hstate i).2 hiu)

/-- What a tick does, from a state whose run queue represents `t`. -/
inductive TickStep (s : Cfs) (t : RBTree Pid) (s' : Cfs) (t' : RBTree Pid) : Prop
  /-- The processor is idle, and no task is queued. -/
  | idle (hcur : s.current = none) (hl : t.toList = []) (hs : s' = s)
  /-- The processor is idle, and is given to the first task. -/
  | dispatch (n : Pid) (l : List Pid) (hcur : s.current = none) (hl : t.toList = n :: l)
      (hcur' : s'.current = some n) (hl' : t'.toList = l)
      (hcounter : s'.counter = s.clock)
      (hprocs : s'.procs = Function.update s.procs n { s.procs n with
        onRq := false, state := .running, execStart := s'.counter })
      (hmin : s'.minVruntime = s.nextMin l.head?)
  /-- The current task is charged, and goes on. -/
  | goOn (c : Pid) (hcur : s.current = some c) (hs : s' = cfsUpdateCurr s c) (ht : t' = t)
      (hstay : ∀ n l, t.toList = n :: l → cfsCheckPreemptCurr s' c n = false)
  /-- The current task is charged, and replaced by the first one. -/
  | switch (c n : Pid) (l : List Pid) (hcur : s.current = some c) (hl : t.toList = n :: l)
      (hpreempt : cfsCheckPreemptCurr (cfsUpdateCurr s c) c n = true)
      (hcur' : s'.current = some n) (hl' : t'.toList.Perm (c :: l))
      (hcounter : s'.counter = (cfsUpdateCurr s c).clock)
      (hprocs : s'.procs = Function.update (Function.update s.procs c { s.charged c with
          onRq := true, state := .ready, execStart := 0 }) n { s.procs n with
          onRq := false, state := .running, execStart := s'.counter })
      (hmin : s'.minVruntime = (cfsUpdateCurr s c).nextMin t'.toList.head?)

/-- The processor, idle, is given to the first task. -/
theorem tick_dispatch (h : Sched s t) (hcur : s.current = none) {n : Pid} {l : List Pid}
    (hl : t.toList = n :: l) :
    ∃ s' t', cfsSchedulerTick s = some s' ∧ Sched s' t' ∧ TickStep s t s' t' := by
  obtain ⟨hn, -⟩ := h.first hl
  obtain ⟨s₁, t', hs₁, hq, hl', hprocs, hcur', hmin, hcounter, hlog⟩ := cfsDispatch_spec h.queue hn
  have hleft : s.leftmost = some n := by rw [h.queue.leftmost, hl, List.head?_cons]
  rw [hl, List.erase_cons_head] at hl'
  have hsched : Sched s₁ t' := by
    refine h.dispatched hq (n := n) (by rw [hl]; exact List.mem_cons_self) hcur' ?_ ?_ ?_
      (created_concat hlog fun _ _ _ => by simp)
    · rw [hprocs, Function.update_self]
      exact ⟨rfl, rfl, rfl⟩
    · intro c hc
      rw [hcur] at hc
      cases hc
    · intro i hin _
      rw [hprocs, Function.update_of_ne hin]
  refine ⟨s₁.print (.scheduled n (s₁.procs n).vruntime), t', ?_, hsched.print trivial,
    .dispatch n l hcur hl hcur' hl' hcounter ?_ ?_⟩
  · simp only [cfsSchedulerTick, hcur, cfsPickNextTask, hleft, hs₁, Option.bind_eq_bind,
      Option.bind_some, Option.pure_def]
  · rw [Cfs.print_procs, hprocs, Cfs.print_counter, hcounter]
  · rw [Cfs.print_minVruntime, hmin, hl']

/-- The minimum depends on the current process and the virtual runtimes. -/
theorem nextMin_congr {s s' : Cfs} (hcur : s'.current = s.current)
    (hmin : s'.minVruntime = s.minVruntime)
    (hv : ∀ i, (s'.procs i).vruntime = (s.procs i).vruntime) (l : Option Pid) :
    s'.nextMin l = s.nextMin l := by
  simp only [Cfs.nextMin, updateMinVruntime, hcur, hmin, hv]

/-- The current task is charged, and replaced by the first one. -/
theorem tick_switch (h : Sched s t) {c : Pid} (hcur : s.current = some c) {n : Pid} {l : List Pid}
    (hl : t.toList = n :: l) (hpreempt : cfsCheckPreemptCurr (cfsUpdateCurr s c) c n = true) :
    ∃ s' t', cfsSchedulerTick s = some s' ∧ Sched s' t' ∧ TickStep s t s' t' := by
  set u := cfsUpdateCurr s c with hu
  obtain ⟨huprocs, -, -, hulm, -, -, hucur, -⟩ := cfsUpdateCurr_frame s c
  rw [← hu] at huprocs hulm hucur
  have hsu : Sched (u.print (.preempting c n)) t := (h.updateCurr hcur).print trivial
  have hcur₁ : (u.print (.preempting c n)).current = some c := by
    rw [Cfs.print_current, hucur, hcur]
  have hct := hsu.current_not_mem hcur₁
  obtain ⟨hn, hnc⟩ := h.first hl
  have hnc' : n ≠ c := fun hnc' => hnc (by rw [hcur, hnc'])
  -- The current task is put back on the queue.
  set f : CfsProcess → CfsProcess := fun p => { p with state := .ready, execStart := 0 } with hf
  set s₁ := (u.print (.preempting c n)).modify c f with hs₁
  have hq₁ : Queue s₁ t := hsu.queue.modify c (fun _ => rfl) (fun _ => rfl) fun _ => rfl
  have honRq : (s₁.procs c).onRq = false := by
    rw [hs₁, Cfs.modify_procs_same]
    exact (hsu.running c hcur₁).2
  have hweight : (s₁.procs c).weight ≤ 88761 := by
    rw [hs₁, Cfs.modify_procs_same]
    exact (hsu.weight c (hsu.current_ne_unused hcur₁)).2
  obtain ⟨s₂, t₂, hs₂, hq₂, hprocs₂, hcur₂, hmin₂, hcounter₂, hlog₂⟩ :=
    cfsEnqueueTask_spec hq₁ honRq hweight
  -- The first task is dispatched.
  have hn₂ : (s₂.procs n).onRq = true := by
    rw [hprocs₂, Cfs.modify_procs_ne _ _ hnc', hs₁, Cfs.modify_procs_ne _ _ hnc', Cfs.print_procs,
      huprocs, Function.update_of_ne hnc']
    exact hn
  obtain ⟨s₃, t₃, hs₃, hq₃, hl₃, hprocs₃, hcur₃, hmin₃, hcounter₃, hlog₃⟩ :=
    cfsDispatch_spec hq₂ hn₂
  have hcounter : s₃.counter = u.clock := by
    rw [hcounter₃, Cfs.clock, hcounter₂]
    rfl
  have hprocs : s₃.procs = Function.update (Function.update s.procs c { s.charged c with
      onRq := true, state := .ready, execStart := 0 }) n { s.procs n with
      onRq := false, state := .running, execStart := s₃.counter } := by
    rw [hprocs₃, hcounter₃, hprocs₂, Cfs.modify, hs₁, Cfs.modify, Cfs.print_procs, huprocs]
    simp only [Function.update_self, Function.update_idem, Function.update_of_ne hnc', hf]
  have hother : ∀ i, i ≠ n → i ≠ c → s₃.procs i = s.procs i := fun i hin hic => by
    rw [hprocs, Function.update_of_ne hin, Function.update_of_ne hic]
  have hcn : s₃.procs c = { s.charged c with onRq := true, state := .ready, execStart := 0 } := by
    rw [hprocs, Function.update_of_ne hnc'.symm, Function.update_self]
  have hnn : s₃.procs n = { s.procs n with
      onRq := false, state := .running, execStart := s₃.counter } := by
    rw [hprocs, Function.update_self]
  have hcreated : ∀ i, s₃.Created i ↔ s.Created i := fun i => by
    rw [created_concat hlog₃ fun _ _ _ => by simp, created_concat hlog₂ fun _ _ _ => by simp]
    refine (hsu.created i).trans (Iff.trans ?_ (h.created i).symm)
    rw [Cfs.print_procs, huprocs]
    by_cases hic : i = c
    · rw [hic, Function.update_self, charged_state]
    · rw [Function.update_of_ne hic]
  have hsched : Sched s₃ t₃ := by
    refine h.dispatched hq₃ (n := n) (by rw [hl]; exact List.mem_cons_self) hcur₃ ?_ ?_ ?_ hcreated
    · rw [hnn]
      exact ⟨rfl, rfl, rfl⟩
    · intro d hd
      obtain rfl : c = d := by rwa [hcur, Option.some_inj] at hd
      rw [hcn]
      exact ⟨rfl, rfl, charged_weight s c⟩
    · intro i hin hic
      exact hother i hin fun hi => hic (by rw [hcur, hi])
  have hl' : t₃.toList.Perm (c :: l) := by
    refine h.queue.perm_switch hq₃ hl hct (fun i hin hic => ?_) ?_ ?_
    · rw [hother i hin hic]
    · rw [hcn]
    · rw [hnn]
  refine ⟨s₃, t₃, ?_, hsched, .switch c n l hcur hl hpreempt hcur₃ hl' hcounter hprocs ?_⟩
  · have hleft : u.leftmost = some n := by rw [hulm, h.queue.leftmost, hl, List.head?_cons]
    simp only [cfsSchedulerTick, hcur, ← hu, cfsPickNextTask, hleft, hpreempt, if_true, ← hf, ← hs₁,
      hs₂, Option.bind_eq_bind, Option.bind_some, hs₃]
  · rw [hmin₃]
    refine nextMin_congr (s := u) (hcur₂.trans rfl) (hmin₂.trans rfl) (fun i => ?_) _
    rw [hprocs₂]
    exact (s₁.modify_field c i _ CfsProcess.vruntime fun _ => by rfl).trans
      ((u.print (.preempting c n)).modify_field c i f CfsProcess.vruntime fun _ => rfl)

/-- A tick does what `TickStep` says, and keeps the invariant. -/
theorem cfsSchedulerTick_cases (h : Sched s t) :
    ∃ s' t', cfsSchedulerTick s = some s' ∧ Sched s' t' ∧ TickStep s t s' t' := by
  cases hl : t.toList with
  | nil =>
    have hleft : s.leftmost = none := by rw [h.queue.leftmost, hl, List.head?_nil]
    cases hcur : s.current with
    | none =>
      refine ⟨s, t, ?_, h, .idle hcur hl rfl⟩
      simp only [cfsSchedulerTick, hcur, cfsPickNextTask, hleft]
    | some c =>
      refine ⟨cfsUpdateCurr s c, t, ?_, h.updateCurr hcur, .goOn c hcur rfl rfl ?_⟩
      · obtain ⟨-, -, -, hulm, -⟩ := cfsUpdateCurr_frame s c
        simp only [cfsSchedulerTick, hcur, cfsPickNextTask, hulm, hleft]
      · intro n l hl'
        rw [hl] at hl'
        exact absurd hl' (by simp)
  | cons n l =>
    cases hcur : s.current with
    | none => exact tick_dispatch h hcur hl
    | some c =>
      cases hpreempt : cfsCheckPreemptCurr (cfsUpdateCurr s c) c n with
      | true => exact tick_switch h hcur hl hpreempt
      | false =>
        refine ⟨cfsUpdateCurr s c, t, ?_, h.updateCurr hcur, .goOn c hcur rfl rfl ?_⟩
        · obtain ⟨-, -, -, hulm, -⟩ := cfsUpdateCurr_frame s c
          have hleft : (cfsUpdateCurr s c).leftmost = some n := by
            rw [hulm, h.queue.leftmost, hl, List.head?_cons]
          simp only [cfsSchedulerTick, hcur, cfsPickNextTask, hleft, hpreempt, Bool.false_eq_true,
            if_false]
        · intro n' l' hl'
          rw [hl, List.cons.injEq] at hl'
          rw [← hl'.1]
          exact hpreempt

end Tick

/-! ## Creation -/

section Create

variable {s : Cfs} {t : RBTree Pid} (entry : ℕ) (nice : ℤ)

/-- The process `i` after its creation. -/
def Cfs.fresh (s : Cfs) (i : Pid) : CfsProcess :=
  { s.procs i with
    state := .ready
    entry := entry
    nice := nice
    weight := niceToWeight nice
    vruntime := s.minVruntime
    execStart := 0
    sumExecRuntime := 0
    onRq := true }

/-- The queue, when a slot that is not queued is filled. -/
theorem Queue.fill (h : Queue s t) {s' : Cfs} {i : Pid} (hi : i ∉ t.toList) {p : CfsProcess}
    (honRq : p.onRq = (s.procs i).onRq) (hprocs : s'.procs = Function.update s.procs i p)
    (htimeline : s'.timeline = rbClearNode s.timeline i) (hleftmost : s'.leftmost = s.leftmost)
    (hnr : s'.nrRunning = s.nrRunning) (htw : s'.totalWeight = s.totalWeight)
    (horder : enqueueOrder s'.log = enqueueOrder s.log) : Queue s' t := by
  have hclear : Represents (rbClearNode s.timeline i) t := h.repr.congr rfl fun b hb =>
    setParent_mem_ne _ _ fun hbi => hi (hbi ▸ hb)
  have hq : Queue { s with timeline := rbClearNode s.timeline i } t := { h with repr := hclear }
  refine hq.congr htimeline hleftmost hnr htw horder (fun j => ?_) fun j hj => ?_
  · by_cases hj : j = i
    · rw [hj, hprocs, Function.update_self, honRq]
    · rw [hprocs, Function.update_of_ne hj]
  · have hji : j ≠ i := fun hji => hi (hji ▸ hj)
    rw [hprocs, Function.update_of_ne hji]
    exact ⟨rfl, rfl⟩

/-- The invariant, when a free slot is filled with a task that is queued. -/
theorem Sched.fill (h : Sched s t) {s' : Cfs} {t' : RBTree Pid} {i : Pid} {p : CfsProcess}
    (hq : Queue s' t') (hiu : (s.procs i).state = .unused) (hcur : s'.current = s.current)
    (hprocs : s'.procs = Function.update s.procs i p) (hp : p.state = .ready ∧ p.onRq = true)
    (hw : 15 ≤ p.weight ∧ p.weight ≤ 88761)
    (hcreated : ∀ j, s'.Created j ↔ j = i ∨ s.Created j) : Sched s' t' := by
  have hic : s.current ≠ some i := fun hic => h.current_ne_unused hic hiu
  refine ⟨hq, fun c hc => ?_, fun j hj hju => ?_, fun j hju => ?_, fun j => ?_, fun j hju => ?_⟩
  · rw [hcur] at hc
    have hci : c ≠ i := fun hci => hic (hci ▸ hc)
    rw [hprocs, Function.update_of_ne hci]
    exact h.running c hc
  · by_cases hji : j = i
    · rw [hji, hprocs, Function.update_self]
      exact hp
    · rw [hprocs, Function.update_of_ne hji] at hju ⊢
      exact h.waiting j (hcur ▸ hj) hju
  · by_cases hji : j = i
    · rw [hji, hprocs, Function.update_self, hp.1] at hju
      cases hju
    · rw [hprocs, Function.update_of_ne hji] at hju ⊢
      exact h.unused j hju
  · rw [hcreated, h.created]
    by_cases hji : j = i
    · rw [hji, hprocs, Function.update_self, hp.1]
      simp
    · rw [hprocs, Function.update_of_ne hji]
      simp [hji]
  · by_cases hji : j = i
    · rw [hji, hprocs, Function.update_self]
      exact hw
    · rw [hprocs, Function.update_of_ne hji] at hju ⊢
      exact h.weight j hju

/-- A creation fills a free slot and queues the process in it. -/
theorem create_free (h : Sched s t) {i : Pid}
    (hfind : (List.finRange maxProcesses).find? (fun i => (s.procs i).state = .unused) = some i) :
    ∃ s' t', cfsCreateProcess s entry nice = some (some i, s') ∧ Sched s' t' ∧
      s'.procs = Function.update s.procs i (s.fresh entry nice i) ∧ s'.current = s.current ∧
      s'.minVruntime = s.minVruntime ∧ s'.counter = s.counter := by
  have hiu : (s.procs i).state = .unused := by simpa using List.find?_some hfind
  have hit : i ∉ t.toList := fun hit => h.queued_ne_unused hit hiu
  set p : CfsProcess := { s.fresh entry nice i with onRq := false } with hp
  set s₁ : Cfs := ({ s.modify i (fun _ => p) with
    timeline := rbClearNode s.timeline i } : Cfs).print
      (.created i nice (niceToWeight nice)) with hs₁
  have hs₁i : s₁.procs i = p := s.modify_procs_same i fun _ => p
  have hq₁ : Queue s₁ t := h.queue.fill hit (p := p) (h.unused i hiu).symm rfl rfl rfl rfl rfl
    (enqueueOrder_concat s.log _)
  obtain ⟨s₂, t₂, hs₂, hq₂, hprocs₂, hcur₂, hmin₂, hcounter₂, hlog₂⟩ :=
    cfsEnqueueTask_spec hq₁ (i := i) (by rw [hs₁i])
      (by rw [hs₁i]; exact (niceToWeight_bounds nice).2)
  have hprocs : s₂.procs = Function.update s.procs i (s.fresh entry nice i) := by
    rw [hprocs₂, Cfs.modify, hs₁i, hs₁, Cfs.print_procs]
    simp only [Cfs.modify, Function.update_idem, hp, Cfs.fresh]
  have hcreated : ∀ j, s₂.Created j ↔ j = i ∨ s.Created j := fun j => by
    rw [created_concat hlog₂ fun _ _ _ => by simp]
    simp only [Cfs.Created, hs₁, Cfs.print_log, List.mem_append, List.mem_singleton]
    constructor
    · rintro ⟨nice', w, hj | hj⟩
      · exact .inr ⟨nice', w, hj⟩
      · simp only [CfsEvent.created.injEq] at hj
        exact .inl hj.1
    · rintro (rfl | ⟨nice', w, hj⟩)
      · exact ⟨_, _, .inr rfl⟩
      · exact ⟨nice', w, .inl hj⟩
  have hcreate : cfsCreateProcess s entry nice = (cfsEnqueueTask s₁ i).bind fun s =>
      some (some i, s) := by
    simp only [cfsCreateProcess, hfind]
    rfl
  refine ⟨s₂, t₂, by rw [hcreate, hs₂, Option.bind_some], ?_, hprocs, hcur₂, hmin₂, hcounter₂⟩
  exact h.fill hq₂ hiu hcur₂ hprocs ⟨rfl, rfl⟩ (niceToWeight_bounds nice) hcreated

/-- A creation fills a free slot, or there is none. -/
theorem cfsCreateProcess_cases (h : Sched s t) :
    ∃ r s' t', cfsCreateProcess s entry nice = some (r, s') ∧ Sched s' t' ∧
      ((r = none ∧ (∀ i, (s.procs i).state ≠ .unused) ∧ s' = s.print .noFreeSlots ∧ t' = t) ∨
        ∃ i, r = some i ∧ (s.procs i).state = .unused ∧
          s'.procs = Function.update s.procs i (s.fresh entry nice i) ∧ s'.current = s.current ∧
          s'.minVruntime = s.minVruntime ∧ s'.counter = s.counter) := by
  cases hfind : (List.finRange maxProcesses).find? fun i => (s.procs i).state = .unused with
  | none =>
    refine ⟨none, s.print .noFreeSlots, t, ?_, h.print trivial, .inl ⟨rfl, fun i => ?_, rfl, rfl⟩⟩
    · simp only [cfsCreateProcess, hfind]
    · simpa using List.find?_eq_none.1 hfind i (List.mem_finRange i)
  | some i =>
    obtain ⟨s', t', hs', hsched, hrest⟩ := create_free entry nice h hfind
    exact ⟨some i, s', t', hs', hsched, .inr ⟨i, rfl, by simpa using List.find?_some hfind, hrest⟩⟩

end Create

/-! ## Runs -/

/-- The invariant after `cfs_init`, from any state. -/
theorem sched_init (s : Cfs) : Sched (cfsInit s) nil where
  queue :=
    { repr := ⟨rfl, trivial, List.nodup_nil⟩
      rb := isRB_nil
      mem_iff := fun i => by simp [cfsInit]
      sorted := List.Pairwise.nil
      order := List.Perm.refl _
      leftmost := rfl
      nrRunning := rfl
      totalWeight := rfl
      weight_le := by simp }
  running c hc := by cases hc
  waiting i _ hi := absurd rfl hi
  unused i _ := rfl
  created i := by simp [Cfs.Created, cfsInit]
  weight i hi := absurd rfl hi

/-- Every call returns, and keeps the invariant. -/
theorem cfsCall_sched {s : Cfs} {t : RBTree Pid} (h : Sched s t) (c : CfsCall) :
    ∃ s' t', cfsCall s c = some s' ∧ Sched s' t' := by
  cases c with
  | create entry nice =>
    obtain ⟨r, s', t', hs', hsched, -⟩ := cfsCreateProcess_cases entry nice h
    exact ⟨s', t', by rw [cfsCall, hs', Option.map_some], hsched⟩
  | tick =>
    obtain ⟨s', t', hs', hsched, -⟩ := cfsSchedulerTick_cases h
    exact ⟨s', t', hs', hsched⟩

/-- The invariant along runs. -/
theorem run_sched (s₀ : Cfs) (calls : List CfsCall) :
    ∃ s, run cfsCall (cfsInit s₀) calls = some s ∧ ∃ t, Sched s t := by
  refine run_of_invariant (fun s c hs => ?_) ⟨nil, sched_init s₀⟩ calls
  obtain ⟨t, ht⟩ := hs
  obtain ⟨s', t', hs', ht'⟩ := cfsCall_sched ht c
  exact ⟨s', hs', t', ht'⟩

/-- The bookkeeping of the scheduler is consistent: the timeline is a red-black tree
    with the queued tasks, each once, in the order of their virtual runtimes and, among
    equal ones, of their enqueueing; the cached first node and the two counters are
    right; and a task that was created is either current and running, or ready and
    queued. -/
structure Cfs.Consistent (s : Cfs) : Prop where
  timeline : ∃ t : RBTree Pid, Represents s.timeline t ∧ t.IsRB ∧ t.toList.Nodup ∧
    (∀ i, i ∈ t.toList ↔ (s.procs i).onRq = true) ∧ t.toList.Pairwise s.GoesBefore ∧
    s.leftmost = t.toList.head? ∧ s.nrRunning = t.toList.length ∧
    s.totalWeight = (t.toList.map fun i => (s.procs i).weight).sum
  leftmost : s.leftmost = none ↔ s.timeline.root = none
  running : ∀ c, s.current = some c → (s.procs c).state = .running ∧ (s.procs c).onRq = false
  waiting : ∀ i, s.Created i → s.current ≠ some i →
    (s.procs i).state = .ready ∧ (s.procs i).onRq = true

theorem Sched.consistent {s : Cfs} {t : RBTree Pid} (h : Sched s t) : s.Consistent where
  timeline := ⟨t, h.queue.repr, h.queue.rb, h.queue.repr.nodup, h.queue.mem_iff, h.queue.sorted,
    h.queue.leftmost, h.queue.nrRunning, h.queue.totalWeight⟩
  leftmost := by
    rw [h.queue.leftmost, h.queue.repr.root, List.head?_eq_none_iff]
    cases t with
    | nil => simp
    | node c l a r => simp
  running := h.running
  waiting i hi hcur := h.waiting i hcur ((h.created i).1 hi)

/-- In every run of creations and ticks after `cfs_init`, every call returns and every
    state is consistent: no task is lost, queued twice, or both queued and running. -/
theorem cfs_consistent (s₀ : Cfs) (calls : List CfsCall) :
    ∃ s, run cfsCall (cfsInit s₀) calls = some s ∧ s.Consistent := by
  obtain ⟨s, hs, t, ht⟩ := run_sched s₀ calls
  exact ⟨s, hs, ht.consistent⟩

end Fru1tOs
