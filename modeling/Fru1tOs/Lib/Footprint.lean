import Mathlib

/-!
# Programs and their footprints

A program goes from state to state, each a control state and a memory, and every step reads some
cells of the memory and writes some (`Program`). Two states may differ in cells that are not read
(`Agree`): a step leaves such a difference where it is, but for the cells that it writes
(`Program.agree_step`).
-/

namespace Lib

variable {C A B : Type*}

/-- The states are the same but for some cells. -/
structure Agree (cells : Set A) (s t : C × (A → B)) : Prop where
  control : t.1 = s.1
  mem : ∀ x ∉ cells, t.2 x = s.2 x

namespace Agree

variable {cells cells' : Set A} {s t u : C × (A → B)}

theorem refl (cells : Set A) (s : C × (A → B)) : Agree cells s s := ⟨rfl, fun _ _ => rfl⟩

theorem trans (h : Agree cells s t) (h' : Agree cells t u) : Agree cells s u :=
  ⟨h'.control.trans h.control, fun x hx => (h'.mem x hx).trans (h.mem x hx)⟩

theorem mono (h : Agree cells s t) (hsub : cells ⊆ cells') : Agree cells' s t :=
  ⟨h.control, fun x hx => h.mem x fun hx' => hx (hsub hx')⟩

/-- The same change of the control states. -/
theorem map_control (h : Agree cells s t) (f : C → C) : Agree cells (f s.1, s.2) (f t.1, t.2) :=
  ⟨congrArg f h.control, h.mem⟩

end Agree

/-- A program, with the cells that a step reads and those that it writes: it changes no others, and
    what it does depends on nothing but the control state and what it reads. -/
structure Program (C A B : Type*) where
  step : C × (A → B) → C × (A → B)
  reads : C × (A → B) → Set A
  writes : C × (A → B) → Set A
  frame : ∀ s, ∀ x ∉ writes s, (step s).2 x = s.2 x
  local_writes : ∀ s t, t.1 = s.1 → (∀ x ∈ reads s, t.2 x = s.2 x) → writes t = writes s
  local_step : ∀ s t, t.1 = s.1 → (∀ x ∈ reads s, t.2 x = s.2 x) →
    (step t).1 = (step s).1 ∧ ∀ x ∈ writes s, (step t).2 x = (step s).2 x

/-- A step that reads none of the cells in which the states differ. -/
theorem Program.agree_step (p : Program C A B) {cells : Set A} {s t : C × (A → B)}
    (h : Agree cells s t) (hreads : Disjoint (p.reads s) cells) :
    Agree (cells \ p.writes s) (p.step s) (p.step t) := by
  have hread : ∀ x ∈ p.reads s, t.2 x = s.2 x := fun x hx =>
    h.mem x (Set.disjoint_left.1 hreads hx)
  obtain ⟨hcontrol, hwritten⟩ := p.local_step s t h.control hread
  refine ⟨hcontrol, fun x hx => ?_⟩
  by_cases hw : x ∈ p.writes s
  · exact hwritten x hw
  · have hw' : x ∉ p.writes t := by rwa [p.local_writes s t h.control hread]
    rw [p.frame t x hw', p.frame s x hw]
    exact h.mem x fun hc => hx ⟨hc, hw⟩

end Lib
