import Fru1tOs.Cfs.Basic
import Fru1tOs.Rbtree.Insert
import Fru1tOs.Rbtree.Erase

/-!
# The run queue

The run queue represents a red-black tree (`Queue`) holding the tasks whose
`on_rq` is set, ordered by virtual runtime and, among equal ones, by the time
they were enqueued; the leftmost pointer is its first node, and the two counters
are its length and the sum of its weights.

`cfs_enqueue_task` inserts a task after those of the same virtual runtime
(`cfsEnqueueTask_spec`), and `cfs_dequeue_task` removes one
(`cfsDequeueTask_spec`). Neither fails: the tree has at most `maxProcesses`
nodes, and no loop needs more passes than `cfsFuel`.
-/

namespace Fru1tOs

open Lib RBTree

/-! ## Writes -/

namespace Cfs

variable (s : Cfs) (i j : Pid) (f : CfsProcess → CfsProcess) (e : CfsEvent)

@[simp] theorem modify_procs_same : (s.modify i f).procs i = f (s.procs i) := by simp [modify]

theorem modify_procs_ne {i j : Pid} (h : j ≠ i) : (s.modify i f).procs j = s.procs j := by
  simp [modify, h]

/-- A write that keeps a field of the process keeps that of every process. -/
theorem modify_field {α : Type*} (g : CfsProcess → α) (hg : ∀ p, g (f p) = g p) :
    g ((s.modify i f).procs j) = g (s.procs j) := by
  by_cases hj : j = i
  · subst hj
    rw [modify_procs_same, hg]
  · rw [modify_procs_ne _ _ hj]

@[simp] theorem modify_timeline : (s.modify i f).timeline = s.timeline := rfl
@[simp] theorem modify_leftmost : (s.modify i f).leftmost = s.leftmost := rfl
@[simp] theorem modify_minVruntime : (s.modify i f).minVruntime = s.minVruntime := rfl
@[simp] theorem modify_nrRunning : (s.modify i f).nrRunning = s.nrRunning := rfl
@[simp] theorem modify_totalWeight : (s.modify i f).totalWeight = s.totalWeight := rfl
@[simp] theorem modify_current : (s.modify i f).current = s.current := rfl
@[simp] theorem modify_counter : (s.modify i f).counter = s.counter := rfl
@[simp] theorem modify_log : (s.modify i f).log = s.log := rfl

@[simp] theorem print_timeline : (s.print e).timeline = s.timeline := rfl
@[simp] theorem print_leftmost : (s.print e).leftmost = s.leftmost := rfl
@[simp] theorem print_minVruntime : (s.print e).minVruntime = s.minVruntime := rfl
@[simp] theorem print_nrRunning : (s.print e).nrRunning = s.nrRunning := rfl
@[simp] theorem print_totalWeight : (s.print e).totalWeight = s.totalWeight := rfl
@[simp] theorem print_current : (s.print e).current = s.current := rfl
@[simp] theorem print_counter : (s.print e).counter = s.counter := rfl
@[simp] theorem print_procs : (s.print e).procs = s.procs := rfl
@[simp] theorem print_log : (s.print e).log = s.log ++ [e] := rfl

end Cfs

section UpdateMin

variable (s : Cfs)

@[simp] theorem updateMinVruntime_timeline : (updateMinVruntime s).timeline = s.timeline := rfl
@[simp] theorem updateMinVruntime_leftmost : (updateMinVruntime s).leftmost = s.leftmost := rfl
@[simp] theorem updateMinVruntime_nrRunning : (updateMinVruntime s).nrRunning = s.nrRunning := rfl
@[simp] theorem updateMinVruntime_totalWeight :
    (updateMinVruntime s).totalWeight = s.totalWeight := rfl
@[simp] theorem updateMinVruntime_current : (updateMinVruntime s).current = s.current := rfl
@[simp] theorem updateMinVruntime_counter : (updateMinVruntime s).counter = s.counter := rfl
@[simp] theorem updateMinVruntime_procs : (updateMinVruntime s).procs = s.procs := rfl
@[simp] theorem updateMinVruntime_log : (updateMinVruntime s).log = s.log := rfl

end UpdateMin

/-! ## The order of enqueueing -/

/-- What a message says about the order of enqueueing. -/
def CfsEvent.order (l : List Pid) : CfsEvent → List Pid
  | .initialized => []
  | .enqueued i _ _ => l ++ [i]
  | .dequeued i => l.erase i
  | _ => l

/-- The tasks on the run queue in the order in which they were enqueued, according
    to the messages printed. -/
def enqueueOrder (log : List CfsEvent) : List Pid := log.foldl CfsEvent.order []

theorem enqueueOrder_concat (log : List CfsEvent) (e : CfsEvent) :
    enqueueOrder (log ++ [e]) = e.order (enqueueOrder log) := by
  rw [enqueueOrder, List.foldl_append]
  rfl

/-- The task `i` goes before `j`: it has a smaller virtual runtime, or an equal one
    and was enqueued before it. -/
def Cfs.GoesBefore (s : Cfs) (i j : Pid) : Prop :=
  (s.procs i).vruntime < (s.procs j).vruntime ∨
    ((s.procs i).vruntime = (s.procs j).vruntime ∧ List.Sublist [i, j] (enqueueOrder s.log))

theorem Cfs.GoesBefore.le {s : Cfs} {i j : Pid} (h : s.GoesBefore i j) :
    (s.procs i).vruntime ≤ (s.procs j).vruntime :=
  h.elim le_of_lt fun h => h.1.le

/-! ## The queue -/

/-- The run queue of `s` represents the tree `t`. -/
structure Queue (s : Cfs) (t : RBTree Pid) : Prop where
  repr : Represents s.timeline t
  rb : t.IsRB
  mem_iff : ∀ i, i ∈ t.toList ↔ (s.procs i).onRq = true
  sorted : t.toList.Pairwise s.GoesBefore
  order : (enqueueOrder s.log).Perm t.toList
  leftmost : s.leftmost = t.toList.head?
  nrRunning : s.nrRunning = t.toList.length
  totalWeight : s.totalWeight = (t.toList.map fun i => (s.procs i).weight).sum
  weight_le : ∀ i ∈ t.toList, (s.procs i).weight ≤ 88761

/-- The sum of the weights of at most `maxProcesses` tasks. -/
theorem sum_weights_le {l : List ℕ} (h : ∀ w ∈ l, w ≤ 88761) : l.sum ≤ l.length * 88761 := by
  induction l with
  | nil => simp
  | cons w l ih =>
    have hw := h w List.mem_cons_self
    have hl := ih fun w' hw' => h w' (List.mem_cons_of_mem _ hw')
    simp only [List.sum_cons, List.length_cons]
    omega

namespace Queue

variable {s s' : Cfs} {t : RBTree Pid}

theorem length_le (h : Queue s t) : t.toList.length ≤ maxProcesses := by
  simpa using h.repr.nodup.length_le_card

/-- With a task that is not queued, the queue is not full. -/
theorem length_lt (h : Queue s t) {i : Pid} (hi : i ∉ t.toList) :
    t.toList.length < maxProcesses := by
  have := (List.nodup_cons.2 ⟨hi, h.repr.nodup⟩).length_le_card
  simp only [List.length_cons, Fintype.card_fin] at this
  omega

theorem totalWeight_le (h : Queue s t) : s.totalWeight ≤ 710088 := by
  have hsum := sum_weights_le (l := t.toList.map fun i => (s.procs i).weight) fun w hw => by
    obtain ⟨i, hi, rfl⟩ := List.mem_map.1 hw
    exact h.weight_le i hi
  rw [List.length_map, ← h.totalWeight] at hsum
  exact hsum.trans (Nat.mul_le_mul_right 88761 h.length_le)

/-- The queue depends on the order of enqueueing, and on the queued tasks only. -/
theorem congr (h : Queue s t) (htimeline : s'.timeline = s.timeline)
    (hleftmost : s'.leftmost = s.leftmost) (hnr : s'.nrRunning = s.nrRunning)
    (htw : s'.totalWeight = s.totalWeight)
    (horder : enqueueOrder s'.log = enqueueOrder s.log)
    (honRq : ∀ i, (s'.procs i).onRq = (s.procs i).onRq)
    (hprocs : ∀ i ∈ t.toList, (s'.procs i).vruntime = (s.procs i).vruntime ∧
      (s'.procs i).weight = (s.procs i).weight) : Queue s' t where
  repr := by rw [htimeline]; exact h.repr
  rb := h.rb
  mem_iff i := by rw [honRq, h.mem_iff]
  sorted := by
    refine h.sorted.imp_of_mem fun hi hj hij => ?_
    rw [Cfs.GoesBefore, (hprocs _ hi).1, (hprocs _ hj).1, horder]
    exact hij
  order := by rw [horder]; exact h.order
  leftmost := by rw [hleftmost, h.leftmost]
  nrRunning := by rw [hnr, h.nrRunning]
  totalWeight := by
    rw [htw, h.totalWeight]
    congr 1
    exact List.map_congr_left fun i hi => (hprocs i hi).2.symm
  weight_le i hi := by rw [(hprocs i hi).2]; exact h.weight_le i hi

/-- A write that keeps what the queue depends on. -/
theorem modify (h : Queue s t) (c : Pid) {f : CfsProcess → CfsProcess}
    (honRq : ∀ p, (f p).onRq = p.onRq) (hv : ∀ p, (f p).vruntime = p.vruntime)
    (hw : ∀ p, (f p).weight = p.weight) : Queue (s.modify c f) t :=
  h.congr rfl rfl rfl rfl rfl (fun i => s.modify_field c i f CfsProcess.onRq honRq) fun i _ =>
    ⟨s.modify_field c i f CfsProcess.vruntime hv, s.modify_field c i f CfsProcess.weight hw⟩

/-- The tasks of the queue, when the first one has left and `c` has come. -/
theorem perm_switch {t' : RBTree Pid} (h : Queue s t) (h' : Queue s' t') {c n : Pid}
    {l : List Pid} (hl : t.toList = n :: l) (hc : c ∉ t.toList)
    (hother : ∀ i, i ≠ n → i ≠ c → (s'.procs i).onRq = (s.procs i).onRq)
    (hin : (s'.procs c).onRq = true) (hout : (s'.procs n).onRq = false) :
    t'.toList.Perm (c :: l) := by
  have hnd := h.repr.nodup
  rw [hl] at hnd hc
  obtain ⟨hnl, hnd⟩ := List.nodup_cons.1 hnd
  have hcl : c ∉ l := fun hcl => hc (List.mem_cons_of_mem _ hcl)
  have hnc : n ≠ c := fun hnc => hc (hnc ▸ List.mem_cons_self)
  refine (List.perm_ext_iff_of_nodup h'.repr.nodup (List.nodup_cons.2 ⟨hcl, hnd⟩)).2 fun i => ?_
  have hi := h.mem_iff i
  rw [hl, List.mem_cons] at hi
  rw [h'.mem_iff, List.mem_cons]
  by_cases hin' : i = n
  · rw [hin', hout]
    simp [hnc, hnl]
  · by_cases hic : i = c
    · rw [hic, hin]
      simp
    · rw [hother i hin' hic, ← hi]
      simp [hin', hic]

end Queue

/-! ## Enqueueing -/

section Enqueue

variable {s : Cfs} {t : RBTree Pid}

/-- The descent of `cfs_enqueue_task`, at a focus of the tree: what is before goes
    before the task, and what is after has a greater virtual runtime. -/
def DescentInv (s : Cfs) (t : RBTree Pid) (v : ℕ) (k : ℕ) :
    Option Pid × Option Pid × Side × Bool → Prop
  | (link, parent, side, leftmost) => ∃ (p : TreePath Pid) (u : RBTree Pid),
      plug p u = t ∧ u.height = k ∧ link = u.root ∧ parent = p.parent ∧ side = TreePath.side p ∧
      (leftmost = true ↔ p.before = []) ∧ (∀ j ∈ p.before, (s.procs j).vruntime ≤ v) ∧
      ∀ j ∈ p.after, v < (s.procs j).vruntime

/-- A pass of the descent goes down one side, or has found an empty place. -/
theorem cfsDescentPass_spec (h : Queue s t) (v k : ℕ)
    (st : Option Pid × Option Pid × Side × Bool) (hst : DescentInv s t v k st) :
    (∃ r, cfsDescentPass s v st = some (.done r) ∧ ∃ p : TreePath Pid, plug p nil = t ∧
      r = (p.parent, TreePath.side p, decide (p.before = [])) ∧
      (∀ j ∈ p.before, (s.procs j).vruntime ≤ v) ∧ ∀ j ∈ p.after, v < (s.procs j).vruntime) ∨
    ∃ st' k', cfsDescentPass s v st = some (.next st') ∧ k' < k ∧ DescentInv s t v k' st' := by
  obtain ⟨link, parent, side, leftmost⟩ := st
  obtain ⟨p, u, rfl, rfl, rfl, rfl, rfl, hlm, hbefore, hafter⟩ := hst
  cases u with
  | nil =>
    refine .inl ⟨_, rfl, p, rfl, ?_, hbefore, hafter⟩
    rw [Prod.mk.injEq, Prod.mk.injEq]
    exact ⟨rfl, rfl, by rw [Bool.eq_iff_iff, hlm, decide_eq_true_iff]⟩
  | node c l e r =>
    have hmem : s.timeline.mem e = ⟨p.parent, l.root, r.root, c⟩ := h.repr.subtree.1
    -- The queue is sorted: `l` goes before `e`, and `r` after it.
    have hsorted := h.sorted
    rw [toList_plug, List.append_assoc, List.pairwise_append] at hsorted
    obtain ⟨-, hsub, -⟩ := hsorted
    rw [List.pairwise_append, toList_node, List.pairwise_append, List.pairwise_cons] at hsub
    obtain ⟨⟨-, ⟨her, -⟩, hle⟩, -, -⟩ := hsub
    by_cases hv : v < (s.procs e).vruntime
    · refine .inr ⟨(l.root, some e, .left, leftmost), l.height, ?_, ?_, ⟨.left, c, e, r⟩ :: p, l,
        rfl, rfl, rfl, rfl, rfl, ?_, ?_, ?_⟩
      · simp [cfsDescentPass, hv, hmem]
      · simp only [height]
        omega
      · simpa [Frame.before] using hlm
      · simpa [Frame.before] using hbefore
      · intro j hj
        simp only [TreePath.after_cons, Frame.after, List.cons_append, List.mem_cons,
          List.mem_append] at hj
        rcases hj with rfl | hj | hj
        · exact hv
        · exact hv.trans_le (her j hj).le
        · exact hafter j hj
    · refine .inr ⟨(r.root, some e, .right, false), r.height, ?_, ?_, ⟨.right, c, e, l⟩ :: p, r,
        rfl, rfl, rfl, rfl, rfl, ?_, ?_, ?_⟩
      · simp [cfsDescentPass, hv, hmem]
      · simp only [height]
        omega
      · simp [Frame.before]
      · intro j hj
        simp only [TreePath.before_cons, Frame.before, List.mem_append, List.mem_cons,
          List.not_mem_nil, or_false] at hj
        rcases hj with hj | hj | rfl
        · exact hbefore j hj
        · exact (hle j hj e List.mem_cons_self).le.trans (not_lt.1 hv)
        · exact not_lt.1 hv
      · simpa [Frame.after] using hafter

/-- The descent of `cfs_enqueue_task` finds the place after the tasks of the same
    virtual runtime. -/
theorem cfsDescent_spec (h : Queue s t) (v : ℕ) :
    ∃ p : TreePath Pid, plug p nil = t ∧
      loop (cfsDescentPass s v) cfsFuel (s.timeline.root, none, .left, true) =
        some (p.parent, TreePath.side p, decide (p.before = [])) ∧
      (∀ j ∈ p.before, (s.procs j).vruntime ≤ v) ∧ ∀ j ∈ p.after, v < (s.procs j).vruntime := by
  have hinv : DescentInv s t v t.height (s.timeline.root, none, .left, true) :=
    ⟨[], t, rfl, rfl, h.repr.root, rfl, rfl, by simp, by simp, by simp⟩
  obtain ⟨r, hr, p, hp, rfl, hbefore, hafter⟩ := loop_of_variant (n := cfsFuel)
    (cfsDescentPass_spec h v) hinv (by
      have := t.height_le_length.trans h.length_le
      rw [cfsFuel]
      omega)
  exact ⟨p, hp, hr, hbefore, hafter⟩

/-- The state after the task `i` was put into the tree, as the first one or not. -/
def Cfs.enqueued (s : Cfs) (i : Pid) (timeline : RbState Pid) (first : Bool) : Cfs :=
  ({ s with
      timeline := timeline
      leftmost := if first then some i else s.leftmost
      nrRunning := (s.nrRunning + 1) % 2 ^ 32
      totalWeight := (s.totalWeight + (s.procs i).weight) % 2 ^ 64 }.modify i
      fun p => { p with onRq := true, state := .ready }).print
    (.enqueued i (s.procs i).vruntime (s.procs i).weight)

/-- `cfs_enqueue_task`, by what the descent and the insertion give. -/
theorem cfsEnqueueTask_eq {i : Pid} (hi : (s.procs i).onRq = false) {parent : Option Pid}
    {side : Side} {first : Bool} {timeline : RbState Pid}
    (hdescent : loop (cfsDescentPass s (s.procs i).vruntime) cfsFuel
      (s.timeline.root, none, .left, true) = some (parent, side, first))
    (hinsert : rbInsertColor cfsFuel (rbLink s.timeline i parent side) i = some timeline) :
    cfsEnqueueTask s i = some (s.enqueued i timeline first) := by
  simp only [cfsEnqueueTask, hi, Bool.false_eq_true, if_false, hdescent, Option.bind_eq_bind,
    Option.bind_some]
  cases first with
  | true =>
    simp only [if_true, hinsert, Option.bind_some]
    rfl
  | false =>
    simp only [Bool.false_eq_true, if_false, hinsert, Option.bind_some]
    rfl

/-- A task that is put after those of its virtual runtime, and is the last one enqueued, is in its
    place. -/
theorem Queue.sorted_insert {s' : Cfs} (h : Queue s t) {i : Pid} {l₁ l₂ : List Pid}
    (hl : t.toList = l₁ ++ l₂) (hbefore : ∀ j ∈ l₁, (s.procs j).vruntime ≤ (s.procs i).vruntime)
    (hafter : ∀ j ∈ l₂, (s.procs i).vruntime < (s.procs j).vruntime)
    (hv : ∀ j, (s'.procs j).vruntime = (s.procs j).vruntime)
    (horder : enqueueOrder s'.log = enqueueOrder s.log ++ [i]) :
    (l₁ ++ i :: l₂).Pairwise s'.GoesBefore := by
  have hmono : ∀ {j k}, s.GoesBefore j k → s'.GoesBefore j k := fun {j k} hjk => by
    rw [Cfs.GoesBefore, hv j, hv k, horder]
    exact hjk.imp id fun hjk => ⟨hjk.1, hjk.2.trans (List.sublist_append_left _ _)⟩
  have hsorted := h.sorted
  rw [hl, List.pairwise_append] at hsorted
  obtain ⟨h₁, h₂, h₁₂⟩ := hsorted
  rw [List.pairwise_append, List.pairwise_cons]
  refine ⟨h₁.imp hmono, ⟨fun j hj => .inl ?_, h₂.imp hmono⟩, fun j hj k hk => ?_⟩
  · rw [hv i, hv j]
    exact hafter j hj
  · rcases List.mem_cons.1 hk with rfl | hk
    · rw [Cfs.GoesBefore, hv j, hv k, horder]
      rcases (hbefore j hj).lt_or_eq with hlt | heq
      · exact .inl hlt
      · have hj' : j ∈ enqueueOrder s.log :=
          h.order.symm.subset (by rw [hl]; exact List.mem_append_left _ hj)
        exact .inr ⟨heq, (List.singleton_sublist.2 hj').append (List.Sublist.refl [k])⟩
    · exact hmono (h₁₂ j hj k hk)

/-- The queue with a task more, in its place. -/
theorem Queue.enqueued (h : Queue s t) {t' : RBTree Pid} {i : Pid}
    (hi : (s.procs i).onRq = false) (hw : (s.procs i).weight ≤ 88761) {timeline : RbState Pid}
    (hrepr : Represents timeline t') (hrb : t'.IsRB) {l₁ l₂ : List Pid}
    (hl : t.toList = l₁ ++ l₂) (hl' : t'.toList = l₁ ++ i :: l₂)
    (hbefore : ∀ j ∈ l₁, (s.procs j).vruntime ≤ (s.procs i).vruntime)
    (hafter : ∀ j ∈ l₂, (s.procs i).vruntime < (s.procs j).vruntime) :
    Queue (s.enqueued i timeline (decide (l₁ = []))) t' := by
  have hlt := h.length_lt (i := i) (by rw [h.mem_iff, hi]; decide)
  have htw := h.totalWeight_le
  set s' := s.enqueued i timeline (decide (l₁ = [])) with hs'
  have hprocs : s'.procs =
      (s.modify i fun p => { p with onRq := true, state := .ready }).procs := rfl
  have hv : ∀ j, (s'.procs j).vruntime = (s.procs j).vruntime := fun j => by
    rw [hprocs]
    exact s.modify_field i j _ CfsProcess.vruntime fun _ => rfl
  have hweight : ∀ j, (s'.procs j).weight = (s.procs j).weight := fun j => by
    rw [hprocs]
    exact s.modify_field i j _ CfsProcess.weight fun _ => rfl
  have horder : enqueueOrder s'.log = enqueueOrder s.log ++ [i] := enqueueOrder_concat s.log _
  have hmem : ∀ j, j ∈ t'.toList ↔ j = i ∨ j ∈ t.toList := fun j => by
    rw [hl', hl]
    simp only [List.mem_append, List.mem_cons]
    tauto
  refine ⟨hrepr, hrb, fun j => ?_, ?_, ?_, ?_, ?_, ?_, fun j hj => ?_⟩
  · rw [hmem, h.mem_iff, hprocs]
    by_cases hj : j = i
    · subst hj
      simp
    · rw [Cfs.modify_procs_ne _ _ hj]
      simp [hj]
  · rw [hl']
    exact h.sorted_insert hl hbefore hafter hv horder
  · rw [horder, hl']
    refine (h.order.append_right [i]).trans ?_
    rw [hl]
    exact (List.perm_append_singleton _ _).trans List.perm_middle.symm
  · have hleft : s'.leftmost = if decide (l₁ = []) then some i else s.leftmost := rfl
    rw [hleft, hl', h.leftmost, hl]
    cases l₁ with
    | nil => simp
    | cons j l => simp
  · have hnr : s'.nrRunning = (s.nrRunning + 1) % 2 ^ 32 := rfl
    have hlen : t'.toList.length = t.toList.length + 1 := by
      rw [hl', hl]
      simp only [List.length_append, List.length_cons]
      omega
    rw [maxProcesses] at hlt
    rw [hnr, h.nrRunning, hlen, Nat.mod_eq_of_lt (by omega)]
  · have htotal : s'.totalWeight = (s.totalWeight + (s.procs i).weight) % 2 ^ 64 := rfl
    have hmap : (t'.toList.map fun j => (s'.procs j).weight) =
        t'.toList.map fun j => (s.procs j).weight := List.map_congr_left fun j _ => hweight j
    rw [htotal, hmap, hl', Nat.mod_eq_of_lt (by omega), h.totalWeight, hl]
    simp only [List.map_append, List.map_cons, List.sum_append, List.sum_cons]
    omega
  · rw [hweight j]
    rcases (hmem j).1 hj with rfl | hj
    exacts [hw, h.weight_le j hj]

/-- `cfs_enqueue_task` of a task that is not queued. -/
theorem cfsEnqueueTask_spec (h : Queue s t) {i : Pid} (hi : (s.procs i).onRq = false)
    (hw : (s.procs i).weight ≤ 88761) :
    ∃ s' t', cfsEnqueueTask s i = some s' ∧ Queue s' t' ∧
      s'.procs = (s.modify i fun p => { p with onRq := true, state := .ready }).procs ∧
      s'.current = s.current ∧ s'.minVruntime = s.minVruntime ∧ s'.counter = s.counter ∧
      s'.log = s.log ++ [.enqueued i (s.procs i).vruntime (s.procs i).weight] := by
  have hnot : i ∉ t.toList := by rw [h.mem_iff, hi]; decide
  obtain ⟨p, rfl, hdescent, hbefore, hafter⟩ := cfsDescent_spec h (s.procs i).vruntime
  have hlt := h.length_lt hnot
  obtain ⟨tl, t', htl, hr', hrb', hl', -⟩ := rbInsert_spec cfsFuel h.repr h.rb hnot (by
    rw [cfsFuel]
    omega)
  have hl : (plug p nil : RBTree Pid).toList = p.before ++ p.after := by simp [toList_plug]
  exact ⟨_, t', cfsEnqueueTask_eq hi hdescent htl,
    h.enqueued hi hw hr' hrb' hl hl' hbefore hafter, rfl, rfl, rfl, rfl, rfl⟩

end Enqueue

/-! ## Dequeueing -/

section Dequeue

variable {s : Cfs} {t : RBTree Pid}

/-- What `update_min_vruntime` makes of the minimum: that of the current task and of
    the first one, if it is greater. -/
def Cfs.nextMin (s : Cfs) (leftmost : Option Pid) : ℕ :=
  (updateMinVruntime { s with leftmost := leftmost }).minVruntime

/-- The state after the task `i` was taken out of the tree. -/
def Cfs.dequeued (s : Cfs) (i : Pid) (timeline : RbState Pid) (leftmost : Option Pid) : Cfs :=
  (updateMinVruntime ({ s with
    leftmost := leftmost
    timeline := rbClearNode timeline i
    nrRunning := (s.nrRunning + 2 ^ 32 - 1) % 2 ^ 32
    totalWeight := (s.totalWeight + 2 ^ 64 - (s.procs i).weight) % 2 ^ 64 }.modify i
    fun p => { p with onRq := false })).print (.dequeued i)

/-- `cfs_dequeue_task`, by what the search for the next node and the removal give. -/
theorem cfsDequeueTask_eq {i : Pid} (hi : (s.procs i).onRq = true) {leftmost : Option Pid}
    {timeline : RbState Pid}
    (hleft : (if s.leftmost = some i then rbNext cfsFuel s.timeline i else some s.leftmost) =
      some leftmost) (herase : rbErase cfsFuel s.timeline i = some timeline) :
    cfsDequeueTask s i = some (s.dequeued i timeline leftmost) := by
  by_cases hfirst : s.leftmost = some i
  · rw [if_pos hfirst] at hleft
    simp only [cfsDequeueTask, hi, Bool.not_true, Bool.false_eq_true, if_false, hfirst, if_true,
      hleft, herase, Option.bind_eq_bind, Option.bind_some, Option.pure_def, Cfs.dequeued]
  · rw [if_neg hfirst, Option.some_inj] at hleft
    simp only [cfsDequeueTask, hi, Bool.not_true, Bool.false_eq_true, if_false, hfirst, herase,
      Option.bind_eq_bind, Option.bind_some, Option.pure_def, Cfs.dequeued, ← hleft]

theorem Cfs.dequeued_minVruntime (s : Cfs) (i : Pid) (timeline : RbState Pid)
    (leftmost : Option Pid) :
    (s.dequeued i timeline leftmost).minVruntime = s.nextMin leftmost := by
  have hv : ∀ (s : Cfs) j, ((s.modify i fun p => { p with onRq := false }).procs j).vruntime =
      (s.procs j).vruntime := fun s j => s.modify_field i j _ CfsProcess.vruntime fun _ => rfl
  simp only [Cfs.dequeued, Cfs.print_minVruntime, Cfs.nextMin, updateMinVruntime, hv,
    Cfs.modify_leftmost, Cfs.modify_current, Cfs.modify_minVruntime]

/-- The queue with a task less. -/
theorem Queue.dequeued (h : Queue s t) {t' : RBTree Pid} {i : Pid}
    (hi : (s.procs i).onRq = true) {timeline : RbState Pid} (hrepr : Represents timeline t')
    (hrb : t'.IsRB) (hl' : t'.toList = t.toList.erase i) :
    Queue (s.dequeued i timeline t'.toList.head?) t' := by
  have hnd := h.repr.nodup
  have hi' : i ∉ t'.toList := by
    rw [hl']
    exact hnd.not_mem_erase
  have hsub : t'.toList.Sublist t.toList := by
    rw [hl']
    exact List.erase_sublist
  have hperm : t.toList.Perm (i :: t'.toList) := by
    rw [hl']
    exact List.perm_cons_erase ((h.mem_iff i).2 hi)
  set s' := s.dequeued i timeline t'.toList.head? with hs'
  have hprocs : s'.procs = (s.modify i fun p => { p with onRq := false }).procs := rfl
  have hv : ∀ j, (s'.procs j).vruntime = (s.procs j).vruntime := fun j => by
    rw [hprocs]
    exact s.modify_field i j _ CfsProcess.vruntime fun _ => rfl
  have hweight : ∀ j, (s'.procs j).weight = (s.procs j).weight := fun j => by
    rw [hprocs]
    exact s.modify_field i j _ CfsProcess.weight fun _ => rfl
  have horder : enqueueOrder s'.log = (enqueueOrder s.log).erase i :=
    enqueueOrder_concat s.log (.dequeued i)
  refine ⟨hrepr.congr rfl fun b hb => ?_, hrb, fun j => ?_, ?_, ?_, rfl, ?_, ?_, fun j hj => ?_⟩
  · have hbi : b ≠ i := fun hbi => hi' (hbi ▸ hb)
    exact setParent_mem_ne timeline (some i) hbi
  · rw [hprocs, hl', hnd.mem_erase_iff, h.mem_iff]
    by_cases hj : j = i
    · subst hj
      simp
    · rw [Cfs.modify_procs_ne _ _ hj]
      simp [hj]
  · -- Neither of two tasks that stay is the one removed from the order.
    refine (h.sorted.sublist hsub).imp_of_mem fun {j k} hj hk hjk => ?_
    rw [Cfs.GoesBefore, hv j, hv k, horder]
    refine hjk.imp id fun hjk => ⟨hjk.1, ?_⟩
    have hnot : i ∉ [j, k] := by
      simp only [List.mem_cons, List.not_mem_nil, or_false, not_or]
      exact ⟨fun hij => hi' (hij ▸ hj), fun hik => hi' (hik ▸ hk)⟩
    have := hjk.2.erase i
    rwa [List.erase_of_not_mem hnot] at this
  · rw [horder, hl']
    exact h.order.erase i
  · have hnr : s'.nrRunning = (s.nrRunning + 2 ^ 32 - 1) % 2 ^ 32 := rfl
    have hlen := h.length_le
    rw [hperm.length_eq, List.length_cons, maxProcesses] at hlen
    rw [hnr, h.nrRunning, hperm.length_eq, List.length_cons]
    omega
  · have htotal : s'.totalWeight = (s.totalWeight + 2 ^ 64 - (s.procs i).weight) % 2 ^ 64 := rfl
    have hmap : (t'.toList.map fun j => (s'.procs j).weight) =
        t'.toList.map fun j => (s.procs j).weight := List.map_congr_left fun j _ => hweight j
    have hle := h.totalWeight_le
    have hsum := h.totalWeight
    rw [(hperm.map _).sum_eq, List.map_cons, List.sum_cons] at hsum
    rw [htotal, hmap]
    omega
  · rw [hweight j]
    exact h.weight_le j (hsub.subset hj)

/-- `cfs_dequeue_task` of a queued task. -/
theorem cfsDequeueTask_spec (h : Queue s t) {i : Pid} (hi : (s.procs i).onRq = true) :
    ∃ s' t', cfsDequeueTask s i = some s' ∧ Queue s' t' ∧ t'.toList = t.toList.erase i ∧
      s'.procs = (s.modify i fun p => { p with onRq := false }).procs ∧
      s'.current = s.current ∧ s'.minVruntime = s.nextMin t'.toList.head? ∧
      s'.counter = s.counter ∧ s'.log = s.log ++ [.dequeued i] := by
  have hmem : i ∈ t.toList := (h.mem_iff i).2 hi
  have hlen := h.length_le
  have hnd := h.repr.nodup
  obtain ⟨l₁, l₂, hl⟩ := List.append_of_mem hmem
  have hi₁ : i ∉ l₁ := fun h₁ => by
    rw [hl, List.nodup_append] at hnd
    exact hnd.2.2 i h₁ i List.mem_cons_self rfl
  have hnext := rbNext_spec cfsFuel h.repr hl (by rw [cfsFuel]; omega)
  obtain ⟨tl, t', htl, hr', hrb', hl', -⟩ :=
    rbErase_spec cfsFuel h.repr h.rb hmem (by rw [cfsFuel]; omega)
  -- The leftmost pointer moves only when the first task is the one removed.
  have hleft : (if s.leftmost = some i then rbNext cfsFuel s.timeline i else some s.leftmost) =
      some t'.toList.head? := by
    rw [h.leftmost, hnext, hl', hl, List.erase_append_right _ hi₁, List.erase_cons_head]
    cases l₁ with
    | nil => simp
    | cons j l₁ =>
      have hji : j ≠ i := fun hji => hi₁ (by rw [hji]; exact List.mem_cons_self)
      simp [hji]
  exact ⟨_, t', cfsDequeueTask_eq hi hleft htl, h.dequeued hi hr' hrb' hl', hl', rfl, rfl,
    s.dequeued_minVruntime i tl _, rfl, rfl⟩

end Dequeue

end Fru1tOs
