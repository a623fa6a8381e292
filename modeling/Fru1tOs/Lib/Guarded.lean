import Fru1tOs.Lib.Loop

/-!
# Guarded runs

A run of steps in any order, where what is proved of a step needs a guard on it, in the state before
it (`Guarded`). A simulation that guarded steps keep is kept in guarded runs: each step makes some
calls, and the run those of its steps (`Guarded.simulates`). Whether a run was guarded can be told
from a measure that the guarded steps keep and the others increase (`guarded_iff`).

Where the steps may fail and the guard can be computed, a run is checked by running it with the
guard (`ok_of_makes`).
-/

namespace Lib

variable {σ τ ι κ : Type*} {step : σ → ι → σ}

/-- All steps of a run are guarded. -/
def Guarded (step : σ → ι → σ) (ok : σ → ι → Prop) : σ → List ι → Prop
  | _, [] => True
  | s, a :: as => ok s a ∧ Guarded step ok (step s a) as

/-- The calls that the steps of a run make. -/
def callsOf (step : σ → ι → σ) (calls : σ → ι → List κ) : σ → List ι → List κ
  | _, [] => []
  | s, a :: as => calls s a ++ callsOf step calls (step s a) as

/-- A simulation is kept in a guarded run. -/
theorem Guarded.simulates {ok : σ → ι → Prop} {calls : σ → ι → List κ} {call : τ → κ → τ}
    (R : σ → τ → Prop)
    (hstep : ∀ s t a, R s t → ok s a → R (step s a) ((calls s a).foldl call t)) {s : σ} {t : τ}
    (hR : R s t) {as : List ι} (h : Guarded step ok s as) :
    R (as.foldl step s) ((callsOf step calls s as).foldl call t) := by
  induction as generalizing s t with
  | nil => exact hR
  | cons a as ih =>
    rw [callsOf, List.foldl_append]
    exact ih (hstep s t a hR h.1) h.2

section Measure

variable {ok : σ → ι → Prop} (Inv : σ → Prop) (μ : σ → ℤ)
  (hinv : ∀ s a, Inv s → Inv (step s a))
  (hkeep : ∀ s a, Inv s → ok s a → μ (step s a) = μ s)
  (hgrow : ∀ s a, Inv s → ¬ ok s a → μ s < μ (step s a))

include hinv hkeep hgrow

/-- The measure does not decrease. -/
theorem le_measure_foldl {s : σ} (hs : Inv s) (as : List ι) : μ s ≤ μ (as.foldl step s) := by
  induction as generalizing s with
  | nil => exact le_rfl
  | cons a as ih =>
    refine le_trans ?_ (ih (hinv s a hs))
    by_cases hok : ok s a
    · exact (hkeep s a hs hok).ge
    · exact (hgrow s a hs hok).le

/-- It stays the same in the guarded runs only. -/
theorem guarded_iff {s : σ} (hs : Inv s) (as : List ι) :
    μ (as.foldl step s) = μ s ↔ Guarded step ok s as := by
  induction as generalizing s with
  | nil => exact iff_of_true rfl trivial
  | cons a as ih =>
    rw [List.foldl_cons, Guarded]
    by_cases hok : ok s a
    · rw [← hkeep s a hs hok, ih (hinv s a hs), and_iff_right hok]
    · have hle := le_measure_foldl Inv μ hinv hkeep hgrow (hinv s a hs) as
      exact iff_of_false ((hgrow s a hs hok).trans_le hle).ne' fun h => hok h.1

end Measure

section Checked

variable {ok : σ → ι → Bool} {step : σ → ι → Option σ}

/-- Running with a guard that holds is running. -/
theorem run_of_checked {s s' : σ} {as : List ι}
    (h : run (fun s a => if ok s a then step s a else none) s as = some s') :
    run step s as = some s' := by
  induction as generalizing s with
  | nil => exact h
  | cons a as ih =>
    rw [run_cons, Option.bind_eq_some_iff] at h ⊢
    obtain ⟨s₁, h₁, h⟩ := h
    split_ifs at h₁
    exact ⟨s₁, h₁, ih h⟩

/-- The actions of a run that does not fail with the guard are guarded. -/
theorem ok_of_makes {s s₁ : σ} {as : List ι} {a : ι}
    (h : (run (fun s a => if ok s a then step s a else none) s as).isSome)
    (h₁ : Makes step s as s₁ a) : ok s₁ a := by
  obtain ⟨pre, ⟨rest, rfl⟩, hs₁⟩ := h₁
  obtain ⟨s', hs'⟩ := Option.isSome_iff_exists.1 h
  rw [run_append, Option.bind_eq_some_iff] at hs'
  obtain ⟨s₂, hs₂, -⟩ := hs'
  rw [run_concat, Option.bind_eq_some_iff] at hs₂
  obtain ⟨s₃, hs₃, hlast⟩ := hs₂
  obtain rfl := Option.some_inj.1 (hs₁.symm.trans (run_of_checked hs₃))
  by_contra hok
  rw [if_neg hok] at hlast
  cases hlast

end Checked

end Lib
