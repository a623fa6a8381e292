import Mathlib

/-!
# Bounded loops and runs

A `while` loop of a program working on memory may fail (a dereferenced null
pointer) and need not end. It is iterated here under a bound: `loop body n s`
makes at most `n` passes through `body`, and is `none` when a pass fails or when
the passes are used up. A loop is therefore shown to *end* by showing that its
bounded form is `some` for every bound past a variant (`loop_of_variant`). Two
loops whose passes correspond have corresponding results (`loop_rel`).

A *run* of a transition system makes the steps of a list of actions in turn
(`run`): a property that holds at first and is kept by every step holds of
every state reached, and no step fails (`run_of_invariant`). What is said of the
single steps of a run is said of the actions it makes, each in its state (`Makes`).
A goal is reached by a rank that no step increases, and that some steps decrease,
once there are more of them than the rank (`run_reaches`).
-/

namespace Lib

variable {σ ρ ι : Type*}

/-- What one pass through the body of a loop does: go on, or leave the loop. -/
inductive Pass (σ ρ : Type*)
  | next (s : σ)
  | done (r : ρ)
  deriving DecidableEq, Repr

/-- At most `n` passes through `body`, from `s`. -/
def loop (body : σ → Option (Pass σ ρ)) : ℕ → σ → Option ρ
  | 0, _ => none
  | n + 1, s =>
    match body s with
    | none => none
    | some (.done r) => some r
    | some (.next s') => loop body n s'

variable {body : σ → Option (Pass σ ρ)}

theorem loop_done {n : ℕ} {s : σ} {r : ρ} (h : body s = some (.done r)) :
    loop body (n + 1) s = some r := by
  rw [loop, h]

theorem loop_next {n : ℕ} {s s' : σ} (h : body s = some (.next s')) :
    loop body (n + 1) s = loop body n s' := by
  rw [loop, h]

/-- More passes are allowed than are made. -/
theorem loop_mono {m n : ℕ} {s : σ} {r : ρ} (h : loop body m s = some r) (hmn : m ≤ n) :
    loop body n s = some r := by
  induction m generalizing n s with
  | zero => cases h
  | succ m ih =>
    obtain ⟨n, rfl⟩ : ∃ k, n = k + 1 := ⟨n - 1, by omega⟩
    rw [loop] at h ⊢
    split at h
    · cases h
    · exact h
    · exact ih h (Nat.le_of_succ_le_succ hmn)

/-- The result of a loop does not depend on the bound. -/
theorem loop_unique {m n : ℕ} {s : σ} {r r' : ρ} (h : loop body m s = some r)
    (h' : loop body n s = some r') : r = r' :=
  Option.some.inj ((loop_mono h (le_max_left m n)).symm.trans (loop_mono h' (le_max_right m n)))

/-- The rule of loops: if, under the invariant `Inv k`, a pass does not fail, and
    either leaves with a result satisfying `Q` or keeps the invariant for a
    smaller `k`, the variant, then the loop ends, with a result satisfying `Q`. -/
theorem loop_of_variant {Inv : ℕ → σ → Prop} {Q : ρ → Prop}
    (hbody : ∀ k s, Inv k s → (∃ r, body s = some (.done r) ∧ Q r) ∨
      ∃ s' k', body s = some (.next s') ∧ k' < k ∧ Inv k' s')
    {n k : ℕ} {s : σ} (hs : Inv k s) (hn : k < n) : ∃ r, loop body n s = some r ∧ Q r := by
  induction n generalizing s k with
  | zero => exact absurd hn (Nat.not_lt_zero _)
  | succ n ih =>
    rcases hbody k s hs with ⟨r, hr, hQ⟩ | ⟨s', k', hs', hk, hInv⟩
    · exact ⟨r, loop_done hr, hQ⟩
    · rw [loop_next hs']
      exact ih hInv (by omega)

/-- The rule of loops, for one that is known to end: of what it leaves with. -/
theorem loop_induction {Inv : σ → Prop} {Q : ρ → Prop}
    (hnext : ∀ s s', Inv s → body s = some (.next s') → Inv s')
    (hdone : ∀ s r, Inv s → body s = some (.done r) → Q r)
    {n : ℕ} {s : σ} {r : ρ} (hs : Inv s) (h : loop body n s = some r) : Q r := by
  induction n generalizing s with
  | zero => cases h
  | succ n ih =>
    rw [loop] at h
    split at h
    · cases h
    · rename_i r' hbody
      obtain rfl : r' = r := Option.some_inj.1 h
      exact hdone s r' hs hbody
    · rename_i s' hbody
      exact ih (hnext s s' hs hbody) h

/-- The states in which a loop that is started in `s` makes its passes. -/
inductive Passes (body : σ → Option (Pass σ ρ)) (s : σ) : σ → Prop
  | start : Passes body s s
  | next {s₁ s₂ : σ} (h : Passes body s s₁) (hnext : body s₁ = some (.next s₂)) : Passes body s s₂

/-- The rule of the states of a loop: what holds at the start and is kept by a pass. -/
theorem Passes.induction {Inv : σ → Prop}
    (hnext : ∀ s s', Inv s → body s = some (.next s') → Inv s') {s s' : σ} (hs : Inv s)
    (h : Passes body s s') : Inv s' := by
  induction h with
  | start => exact hs
  | next _ hbody ih => exact hnext _ _ ih hbody

/-! ## Corresponding computations -/

section Rel

variable {σ' ρ' : Type*} {R : σ → σ' → Prop} {Q : ρ → ρ' → Prop}

/-- Computations that correspond, and go on in corresponding ways, correspond. -/
theorem optionRel_bind {x : Option σ} {y : Option σ'} {f : σ → Option ρ} {g : σ' → Option ρ'}
    (h : Option.Rel R x y) (hfg : ∀ a b, R a b → Option.Rel Q (f a) (g b)) :
    Option.Rel Q (x.bind f) (y.bind g) := by
  cases h with
  | some h => exact hfg _ _ h
  | none => exact .none

/-- Computations whose results correspond by a function. -/
theorem map_eq_of_optionRel {x : Option σ} {y : Option σ'} {f : σ → σ'}
    (h : Option.Rel (fun a b => b = f a) x y) : x.map f = y := by
  cases h with
  | some h => exact congrArg some h.symm
  | none => rfl

/-- Passes that both go on, or both leave the loop, with corresponding states or results. -/
inductive PassRel (R : σ → σ' → Prop) (Q : ρ → ρ' → Prop) : Pass σ ρ → Pass σ' ρ' → Prop
  | next {s : σ} {s' : σ'} (h : R s s') : PassRel R Q (.next s) (.next s')
  | done {r : ρ} {r' : ρ'} (h : Q r r') : PassRel R Q (.done r) (.done r')

/-- Loops whose passes correspond have corresponding results. -/
theorem loop_rel {body' : σ' → Option (Pass σ' ρ')}
    (h : ∀ s s', R s s' → Option.Rel (PassRel R Q) (body s) (body' s')) (n : ℕ) {s : σ} {s' : σ'}
    (hs : R s s') : Option.Rel Q (loop body n s) (loop body' n s') := by
  induction n generalizing s s' with
  | zero => exact .none
  | succ n ih =>
    have hpass := h s s' hs
    rw [loop, loop]
    generalize body s = x at hpass ⊢
    generalize body' s' = y at hpass ⊢
    cases hpass with
    | none => exact .none
    | some hpass =>
      cases hpass with
      | next hnext => exact ih hnext
      | done hdone => exact .some hdone

end Rel

/-! ## Runs -/

/-- The run of the actions `as` from `s`: `none` when a step fails. -/
def run (step : σ → ι → Option σ) (s : σ) (as : List ι) : Option σ := as.foldlM step s

variable {step : σ → ι → Option σ}

@[simp] theorem run_nil (s : σ) : run step s [] = some s := rfl

@[simp] theorem run_cons (s : σ) (a : ι) (as : List ι) :
    run step s (a :: as) = (step s a).bind fun s' => run step s' as := by
  rw [run, List.foldlM_cons]; rfl

theorem run_append (s : σ) (as bs : List ι) :
    run step s (as ++ bs) = (run step s as).bind fun s' => run step s' bs := by
  rw [run, List.foldlM_append]; rfl

/-- A run ending with the action `a` is a run followed by a step. -/
theorem run_concat (s : σ) (as : List ι) (a : ι) :
    run step s (as ++ [a]) = (run step s as).bind fun s' => step s' a := by
  rw [run_append]
  congr 1
  funext s'
  simp

/-- The rule of runs: steps that keep the invariant and do not fail. -/
theorem run_of_invariant {Inv : σ → Prop}
    (hstep : ∀ s a, Inv s → ∃ s', step s a = some s' ∧ Inv s') {s : σ} (hs : Inv s)
    (as : List ι) : ∃ s', run step s as = some s' ∧ Inv s' := by
  induction as generalizing s with
  | nil => exact ⟨s, rfl, hs⟩
  | cons a as ih =>
    obtain ⟨s₁, h₁, hs₁⟩ := hstep s a hs
    rw [run_cons, h₁]
    exact ih hs₁

/-- The rule of runs, for steps that may fail: of the states that are reached. -/
theorem run_induction {Inv : σ → Prop}
    (hstep : ∀ s a s', Inv s → step s a = some s' → Inv s') {s s' : σ} (hs : Inv s)
    {as : List ι} (h : run step s as = some s') : Inv s' := by
  induction as generalizing s with
  | nil =>
    rw [run_nil, Option.some_inj] at h
    exact h ▸ hs
  | cons a as ih =>
    rw [run_cons, Option.bind_eq_some_iff] at h
    obtain ⟨s₁, h₁, h⟩ := h
    exact ih (hstep s a s₁ hs h₁) h

/-- The rule of runs, for a property that a step keeps iff it is a good one: it holds in all states
    of the run iff all steps are good. -/
theorem run_always_iff {P : σ → Prop} {Ok : σ → ι → Prop} {s : σ} (hs : P s)
    (hstep : ∀ pre s₁ a s₂, run step s pre = some s₁ → P s₁ → step s₁ a = some s₂ →
      (P s₂ ↔ Ok s₁ a)) (as : List ι) :
    (∀ pre s₁, pre <+: as → run step s pre = some s₁ → P s₁) ↔
      ∀ pre a s₁ s₂, pre ++ [a] <+: as → run step s pre = some s₁ → step s₁ a = some s₂ →
        Ok s₁ a := by
  constructor
  · intro hall pre a s₁ s₂ hpre hrun h
    have hs₁ := hall pre s₁ ((List.prefix_append _ _).trans hpre) hrun
    have hrun' : run step s (pre ++ [a]) = some s₂ := by rw [run_concat, hrun, Option.bind_some, h]
    exact (hstep pre s₁ a s₂ hrun hs₁ h).1 (hall _ s₂ hpre hrun')
  · intro hok pre
    induction pre using List.reverseRecOn with
    | nil =>
      intro s₁ _ hrun
      exact Option.some.inj hrun ▸ hs
    | append_singleton pre a ih =>
      intro s₂ hpre hrun
      rw [run_concat, Option.bind_eq_some_iff] at hrun
      obtain ⟨s₁, hrun, h⟩ := hrun
      have hs₁ := ih s₁ ((List.prefix_append _ _).trans hpre) hrun
      exact (hstep pre s₁ a s₂ hrun hs₁ h).2 (hok pre a s₁ s₂ hpre hrun h)

/-- The rule of progress: if no step increases the rank, and those with the actions in `tick`
    decrease it, unless the goal is reached, then a run with more of these actions than the rank
    reaches the goal. -/
theorem run_reaches {Goal : σ → Prop} (Inv : σ → Prop) (rank : σ → ℕ) (tick : ι → Bool) {s : σ}
    {as : List ι}
    (hstep : ∀ pre a s₁, pre ++ [a] <+: as → run step s pre = some s₁ → Inv s₁ →
      ∃ s₂, step s₁ a = some s₂ ∧
        (Goal s₂ ∨ Inv s₂ ∧ rank s₂ + (if tick a then 1 else 0) ≤ rank s₁))
    (hs : Inv s) (hticks : rank s < as.countP tick) :
    ∃ pre s', pre <+: as ∧ run step s pre = some s' ∧ Goal s' := by
  induction as generalizing s with
  | nil => exact absurd hticks (Nat.not_lt_zero _)
  | cons a as ih =>
    obtain ⟨s₁, hs₁, hgoal | ⟨hInv, hrank⟩⟩ := hstep [] a s (by simp) rfl hs
    · exact ⟨[a], s₁, by simp, by simpa using hs₁, hgoal⟩
    · rw [List.countP_cons] at hticks
      obtain ⟨pre, s', hpre, hs', hgoal⟩ := ih (fun pre b s₂ hpre hs₂ =>
        hstep (a :: pre) b s₂ (List.cons_prefix_cons.2 ⟨rfl, hpre⟩)
          (by rw [run_cons, hs₁, Option.bind_some, hs₂])) hInv (by omega)
      exact ⟨a :: pre, s', List.cons_prefix_cons.2 ⟨rfl, hpre⟩,
        by rw [run_cons, hs₁, Option.bind_some, hs'], hgoal⟩

/-- The run of `as` from `s` makes the action `a` in the state `s₁`. -/
def Makes (step : σ → ι → Option σ) (s : σ) (as : List ι) (s₁ : σ) (a : ι) : Prop :=
  ∃ pre, pre ++ [a] <+: as ∧ run step s pre = some s₁

theorem not_makes_nil {s s₁ : σ} {a : ι} : ¬ Makes step s [] s₁ a := fun ⟨pre, h, _⟩ => by
  simp at h

/-- The actions of a run that ends with `b`: those before it, and `b`. -/
theorem makes_concat {s s' s₁ : σ} {as : List ι} {a b : ι} (h : run step s as = some s') :
    Makes step s (as ++ [b]) s₁ a ↔ Makes step s as s₁ a ∨ s₁ = s' ∧ a = b := by
  constructor
  · rintro ⟨pre, hpre, hs₁⟩
    rcases List.prefix_concat_iff.1 hpre with heq | hpre
    · obtain ⟨rfl, hab⟩ := List.append_inj' heq rfl
      rw [h, Option.some_inj] at hs₁
      exact .inr ⟨hs₁.symm, List.singleton_inj.1 hab⟩
    · exact .inl ⟨pre, hpre, hs₁⟩
  · rintro (⟨pre, hpre, hs₁⟩ | ⟨rfl, rfl⟩)
    · exact ⟨pre, hpre.trans (List.prefix_append _ _), hs₁⟩
    · exact ⟨as, List.prefix_rfl, h⟩

/-- An action of a run is found by the number of actions before it. -/
theorem Makes.exists_take {s s₁ : σ} {as : List ι} {a : ι} (h : Makes step s as s₁ a) :
    ∃ k < as.length, as[k]? = some a ∧ run step s (as.take k) = some s₁ := by
  obtain ⟨pre, ⟨rest, rfl⟩, hs₁⟩ := h
  refine ⟨pre.length, ?_, ?_, ?_⟩
  · simp only [List.length_append, List.length_singleton]
    omega
  · simp
  · rwa [List.append_assoc, List.take_left]

end Lib
