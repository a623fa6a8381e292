import Fru1tOs.Kernel.Sched

/-!
# Round robin

Between two dispatches of a process, no other one may wait all the time. This is so as long as
every dispatch goes on in circular order from the process before it. `process_exit` gives the
processor to the first ready process of the table instead, whatever the slot of the one that
exits. The order is kept if the ready processes are all before that slot, or all after it
(`Kernel.ExitsInOrder`).

The argument is about the place of the current process: from a dispatch of `p`, while `q` waits,
it is before `q` on the way round from `p` (`Before`), and it never comes back to `p`.
-/

namespace Fru1tOs

open Lib

/-- In a run of the calls after `scheduler_init`, between two consecutive dispatches of a process
    `p`, every other process `q` that is ready in all states between them is dispatched. -/
def RoundRobin (s₀ : Kernel) (calls : List KernelCall) : Prop :=
  ∀ pre c₁ between c₂ s₁ s₂ s₃, pre ++ [c₁] ++ between ++ [c₂] <+: calls →
    run kernelCall (schedulerInit s₀) pre = some s₁ → kernelCall s₁ c₁ = some s₂ →
    run kernelCall s₂ between = some s₃ →
    ∀ p, s₁.Dispatches c₁ p → s₃.Dispatches c₂ p →
      (∀ s c, Makes kernelCall s₂ between s c → ¬ s.Dispatches c p) →
      ∀ q ≠ p, (∀ s c, Makes kernelCall s₂ between s c → s.Ready q) → s₃.Ready q →
        ∃ s c, Makes kernelCall s₂ between s c ∧ s.Dispatches c q

/-- There are not both ready processes before the current one and after it in the table. -/
def Kernel.ExitsInOrder (s : Kernel) : Prop := ∀ c, s.currentProc = some c →
  ¬ ((∃ i < c, s.Ready i) ∧ ∃ i > c, s.Ready i)

instance (s : Kernel) : Decidable s.ExitsInOrder :=
  inferInstanceAs (Decidable (∀ c, s.currentProc = some c → _))

/-- On the way round from `p`, the slot `c` comes before `q`. -/
def Before (p c q : Pid) : Prop :=
  (c + maxProcesses - p) % maxProcesses < (q + maxProcesses - p) % maxProcesses

theorem before_self {p q : Pid} (h : q ≠ p) : Before p p q := by
  have hp := p.isLt
  have hq := q.isLt
  have hne : q.val ≠ p.val := fun he => h (Fin.ext he)
  simp only [Before, maxProcesses] at hp hq ⊢
  omega

/-- Going on from `c` to a slot that is not past `q`. -/
theorem Before.ahead {p c n q : Pid} (h : Before p c q) (hn : ahead c n ≤ ahead c q) (hnq : n ≠ q) :
    Before p n q ∧ n ≠ p := by
  have hp := p.isLt
  have hc := c.isLt
  have hnl := n.isLt
  have hq := q.isLt
  have hne : n.val ≠ q.val := fun he => hnq (Fin.ext he)
  rw [Ne, Fin.ext_iff]
  simp only [Before, Fru1tOs.ahead, maxProcesses] at h hn hp hc hnl hq ⊢
  omega

section Step

variable {s s' : Kernel} {c q : Pid} {call : KernelCall}

/-- While `q` is ready, a call dispatches none, or goes on from the current process to one that is
    not past `q`. -/
theorem KernelStep.goes_on (hstep : KernelStep s s' call) (h : KernelInv s)
    (hcur : s.currentProc = some c) (hq : s.Ready q) (hexit : call = .exit → s.ExitsInOrder) :
    ∃ n, s'.currentProc = some n ∧ ((n = c ∧ ∃ e, call = .create e) ∨ ahead c n ≤ ahead c q) := by
  cases hstep with
  | create entryPoint i hi hs =>
    subst hs
    exact ⟨c, hcur, .inl ⟨rfl, entryPoint, rfl⟩⟩
  | full entryPoint hfull hs =>
    subst hs
    exact ⟨c, hcur, .inl ⟨rfl, entryPoint, rfl⟩⟩
  | idle call hcall hnone hs =>
    rw [hcur] at hnone
    cases hnone
  | wait hnone hready hs => exact absurd hq (hready q)
  | first n hnone hn hle hs =>
    rw [hcur] at hnone
    cases hnone
  | switch call d n hcall hcur' hn hle hprocs hcpu hcurn hlog =>
    obtain rfl : c = d := by rwa [hcur, Option.some_inj] at hcur'
    exact ⟨n, hcurn, .inr (hle q hq)⟩
  | exitLast d hcur' hnone hs => exact absurd hq (hnone q)
  | exitNext d n hcur' hn hnd hle hs =>
    obtain rfl : c = d := by rwa [hcur, Option.some_inj] at hcur'
    subst hs
    refine ⟨n, rfl, .inr ?_⟩
    -- The first ready process is the next one, as all of them are on the same side.
    have hqc : q ≠ c := fun hqc => by
      rw [Kernel.Ready, hqc, h.current c hcur] at hq
      cases hq
    have hside := hexit rfl c hcur
    have hnq := hle q hq
    have hsame : (n < c ∧ q < c) ∨ (c < n ∧ c < q) := by
      rcases lt_or_gt_of_ne hnd with hlt | hgt
      · refine .inl ⟨hlt, (lt_or_gt_of_ne hqc).resolve_right fun hgt => ?_⟩
        exact hside ⟨⟨n, hlt, hn⟩, q, hgt, hq⟩
      · exact .inr ⟨hgt, hgt.trans_le hnq⟩
    have hc := c.isLt
    have hnl := n.isLt
    have hql := q.isLt
    simp only [Fin.lt_def, Fin.le_def] at hsame hnq
    simp only [ahead, maxProcesses] at hc hnl hql ⊢
    omega

end Step

/-! ## Runs -/

/-- While `q` waits, the current process stays before it, on the way round from `p`. -/
theorem stays_before {s₂ s₃ : Kernel} {p q : Pid} (h : KernelInv s₂)
    (hcur : s₂.currentProc = some p) (hqp : q ≠ p) {calls : List KernelCall}
    (hrun : run kernelCall s₂ calls = some s₃)
    (hexit : ∀ s, Makes kernelCall s₂ calls s .exit → s.ExitsInOrder)
    (hready : ∀ s c, Makes kernelCall s₂ calls s c → s.Ready q) (hq : s₃.Ready q) :
    KernelInv s₃ ∧ ∃ c, s₃.currentProc = some c ∧ Before p c q := by
  induction calls using List.reverseRecOn generalizing s₃ with
  | nil =>
    obtain rfl : s₂ = s₃ := Option.some_inj.1 hrun
    exact ⟨h, p, hcur, before_self hqp⟩
  | append_singleton calls c ih =>
    rw [run_concat, Option.bind_eq_some_iff] at hrun
    obtain ⟨s, hs, hs₃⟩ := hrun
    have hlast := (makes_concat hs).2 (.inr ⟨rfl, rfl⟩ : _ ∨ s = s ∧ c = c)
    have hqs := hready s c hlast
    obtain ⟨hinv, d, hd, hbefore⟩ := ih hs
      (fun s' h' => hexit s' ((makes_concat hs).2 (.inl h')))
      (fun s' c' h' => hready s' c' ((makes_concat hs).2 (.inl h'))) hqs
    obtain ⟨s', hs', hstep⟩ := kernelCall_cases hinv c
    obtain rfl : s₃ = s' := Option.some_inj.1 (hs₃.symm.trans hs')
    have hinv₃ := hstep.inv hinv
    obtain ⟨n, hn, hcase⟩ := hstep.goes_on hinv hd hqs fun hc => hexit s (hc ▸ hlast)
    refine ⟨hinv₃, n, hn, ?_⟩
    rcases hcase with ⟨rfl, -⟩ | hle
    · exact hbefore
    · -- The process that runs is not the one that is ready.
      refine (hbefore.ahead hle fun hnq => ?_).1
      rw [Kernel.Ready, ← hnq, hinv₃.current n hn] at hq
      cases hq

/-- In every run in which, at every `process_exit`, the ready processes are on one side of the
    current one, a process is not dispatched twice while another one waits. -/
theorem round_robin (s₀ : Kernel) (calls : List KernelCall)
    (hexit : ∀ s, Makes kernelCall (schedulerInit s₀) calls s .exit → s.ExitsInOrder) :
    (∃ s, run kernelCall (schedulerInit s₀) calls = some s) ∧ RoundRobin s₀ calls := by
  refine ⟨(kernel_run s₀ calls).imp fun _ => And.left, ?_⟩
  intro pre c₁ between c₂ s₁ s₂ s₃ hpre hs₁ hs₂ hs₃ p hp₁ hp₂ _ q hqp hready hq
  obtain ⟨s₁', hs₁', hinv₁⟩ := kernel_run s₀ pre
  obtain rfl : s₁ = s₁' := Option.some_inj.1 (hs₁.symm.trans hs₁')
  obtain ⟨s₂', hs₂', hstep₁⟩ := kernelCall_cases hinv₁ c₁
  obtain rfl : s₂ = s₂' := Option.some_inj.1 (hs₂.symm.trans hs₂')
  -- The calls between the two dispatches are calls of the run.
  have hmakes : ∀ mid s c, mid ++ [c] <+: between ++ [c₂] → run kernelCall s₂ mid = some s →
      Makes kernelCall (schedulerInit s₀) calls s c := fun mid s c hmid hs => by
    refine ⟨pre ++ [c₁] ++ mid, ?_, ?_⟩
    · refine List.IsPrefix.trans ?_ hpre
      simpa only [List.append_assoc, List.prefix_append_right_inj] using hmid
    · rw [run_append, run_concat, hs₁, Option.bind_some, hs₂, Option.bind_some, hs]
  obtain ⟨hinv₃, c, hc, hbefore⟩ := stays_before (hstep₁.inv hinv₁)
    (hstep₁.dispatched hs₂ hp₁) hqp hs₃
    (fun s ⟨mid, hmid, hs⟩ => hexit s
      (hmakes mid s _ (hmid.trans (List.prefix_append _ _)) hs)) hready hq
  obtain ⟨s₄, hs₄, hstep⟩ := kernelCall_cases hinv₃ c₂
  obtain ⟨n, hn, hcase⟩ := hstep.goes_on hinv₃ hc hq fun hc₂ => hexit s₃
    (hmakes between s₃ _ (by rw [hc₂]) hs₃)
  rcases hcase with ⟨-, e, rfl⟩ | hle
  · exact absurd hp₂ (not_dispatches_create s₃ e p)
  · obtain rfl : n = p := Option.some_inj.1 (hn.symm.trans (hstep.dispatched hs₄ hp₂))
    exact absurd rfl (hbefore.ahead hle hqp.symm).2

/-- Three processes that yield in turn, and the first one exits. -/
theorem round_robin_three : (∃ s, run kernelCall (schedulerInit .boot)
      [.create 0, .create 0, .create 0, .schedule, .yield, .yield, .yield, .exit] = some s) ∧
    RoundRobin .boot
      [.create 0, .create 0, .create 0, .schedule, .yield, .yield, .yield, .exit] := by
  refine round_robin .boot _ fun s h => ?_
  obtain ⟨k, hk, hcall, hs⟩ := h.exists_take
  have hall : ∀ k < 8,
      ([.create 0, .create 0, .create 0, .schedule, .yield, .yield, .yield, .exit] :
        List KernelCall)[k]? = some .exit →
      (run kernelCall (schedulerInit .boot) ([.create 0, .create 0, .create 0, .schedule, .yield,
        .yield, .yield, .exit].take k)).all fun s => decide s.ExitsInOrder := by
    decide +kernel
  have hk := hall k hk hcall
  rw [hs] at hk
  simpa using hk

/-- The process 1 exits while 0, created anew, and 2 are ready: 0 runs again, and 2 waits. -/
theorem exit_bypasses : ¬ ∀ (s₀ : Kernel) (calls : List KernelCall), RoundRobin s₀ calls := by
  intro h
  have hcheck : (run kernelCall (schedulerInit .boot)
        [.create 0, .create 0, .create 0]).any fun s₁ =>
      (kernelCall s₁ .schedule).any fun s₂ => (run kernelCall s₂ [.exit, .create 0]).any fun s₃ =>
        s₁.Dispatches .schedule 0 ∧ s₃.Dispatches .exit 0 ∧ s₃.Ready 2 ∧
          ∀ k < 2, (run kernelCall s₂ ([.exit, .create 0].take k)).all fun s =>
            ([.exit, .create 0] : List KernelCall)[k]?.all fun c =>
              s.Ready 2 ∧ ¬ s.Dispatches c 0 ∧ ¬ s.Dispatches c 2 := by
    decide +kernel
  obtain ⟨s₁, hs₁, hcheck⟩ := (Option.any_eq_true _ _).1 hcheck
  obtain ⟨s₂, hs₂, hcheck⟩ := (Option.any_eq_true _ _).1 hcheck
  obtain ⟨s₃, hs₃, hcheck⟩ := (Option.any_eq_true _ _).1 hcheck
  obtain ⟨hp₁, hp₂, hq, hall⟩ := of_decide_eq_true hcheck
  have hbetween : ∀ s c, Makes kernelCall s₂ [.exit, .create 0] s c →
      s.Ready 2 ∧ ¬ s.Dispatches c 0 ∧ ¬ s.Dispatches c 2 := fun s c hmade => by
    obtain ⟨k, hk, hc, hs⟩ := hmade.exists_take
    have hk := hall k hk
    rw [hs, hc] at hk
    simpa using hk
  obtain ⟨s, c, hmade, hdisp⟩ := h .boot [.create 0, .create 0, .create 0, .schedule, .exit,
    .create 0, .exit] [.create 0, .create 0, .create 0] .schedule [.exit, .create 0] .exit s₁ s₂ s₃
    (by decide) hs₁ hs₂ hs₃ 0 hp₁ hp₂ (fun s c hmade => (hbetween s c hmade).2.1) 2 (by decide)
    (fun s c hmade => (hbetween s c hmade).1) hq
  exact (hbetween s c hmade).2.2 hdisp

end Fru1tOs
