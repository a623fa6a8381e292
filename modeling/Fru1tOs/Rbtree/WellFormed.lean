import Fru1tOs.Rbtree.Erase
import Fru1tOs.Rbtree.Insert

/-!
# Well-formed trees of pointers

The contracts of `rb_insert_color` and `rb_erase`, for a caller that has the nodes in memory and
their in-order sequence, and no tree: a tree of pointers is *well-formed* (`RbWellFormed`) if it
represents some red-black tree.

* `rb_erase_wellFormed`: any node of a well-formed tree is erased, and the others stay in order;
* `rb_insert_wellFormed`: a node linked as a red leaf in any empty place (`EmptyPlace`) of a
  well-formed tree is inserted there.

Both end, with any bound for their loops that is larger than the number of nodes, and follow no null
pointer on the way.
-/

namespace Fru1tOs

open Lib RBTree RbNode

variable {P : Type*}

/-- The nodes in memory are a red-black tree, with the in-order sequence `l`: parent and child
    pointers agree, the root is black, no red node has a red child, and there are as many black
    nodes on every way down from the root. -/
def RbWellFormed (s : RbState P) (l : List P) : Prop :=
  ∃ t : RBTree P, Represents s t ∧ t.IsRB ∧ t.toList = l

/-- There is no child on the side `d` of the node `parent`, or no root. -/
def EmptyPlace (s : RbState P) (l : List P) (parent : Option P) (d : Side) : Prop :=
  match parent with
  | none => s.root = none
  | some q => q ∈ l ∧ (s.mem q).child d = none

/-- The sequence with `a` next to `parent`, on the side `d`, or alone. -/
def insertBeside [DecidableEq P] (a : P) (parent : Option P) (d : Side) (l : List P) : List P :=
  match parent with
  | none => [a]
  | some q => l.flatMap fun b =>
    if b = q then
      match d with
      | .left => [a, q]
      | .right => [q, a]
    else [b]

variable [DecidableEq P] {s : RbState P} {l : List P} {a : P} {parent : Option P} {d : Side}

/-- `rb_erase` of any node of a well-formed tree. -/
theorem rb_erase_wellFormed (h : RbWellFormed s l) (ha : a ∈ l) {fuel : ℕ}
    (hfuel : l.length < fuel) :
    ∃ s', rbErase fuel s a = some s' ∧ RbWellFormed s' (l.erase a) := by
  obtain ⟨t, hr, hrb, rfl⟩ := h
  obtain ⟨s', t', hs', hr', hrb', hl', -⟩ := rbErase_spec fuel hr hrb ha hfuel
  exact ⟨s', hs', t', hr', hrb', hl'⟩

/-- A black node with two red children. -/
def threeNodes : RbState ℕ where
  mem
    | 1 => ⟨some 2, none, none, .red⟩
    | 2 => ⟨none, some 1, some 3, .black⟩
    | 3 => ⟨some 2, none, none, .red⟩
    | _ => ⟨none, none, none, .black⟩
  root := some 2

theorem threeNodes_wellFormed : RbWellFormed threeNodes [1, 2, 3] :=
  ⟨node .black (node .red nil 1 nil) 2 (node .red nil 3 nil),
    ⟨rfl, by simp [Holds, threeNodes], by decide⟩,
    ⟨rfl, 1, by simp [RBTree.Balanced]⟩, rfl⟩

theorem rb_erase_wellFormed_three :
    ∃ s', rbErase 4 threeNodes 2 = some s' ∧ RbWellFormed s' [1, 3] :=
  rb_erase_wellFormed threeNodes_wellFormed (by decide) (by decide)

/-- What is around the node a new one is put beside. -/
theorem insertBeside_middle {l₁ l₂ : List P} {q : P} (h : (l₁ ++ q :: l₂).Nodup) :
    insertBeside a (some q) d (l₁ ++ q :: l₂) =
      l₁ ++ (if d = .left then [a, q] else [q, a]) ++ l₂ := by
  have hkeep : ∀ l : List P, q ∉ l → (l.flatMap fun b =>
      if b = q then if d = .left then [a, q] else [q, a] else [b]) = l := by
    intro l hl
    induction l with
    | nil => rfl
    | cons b l ih =>
      rw [List.mem_cons, not_or] at hl
      rw [List.flatMap_cons, if_neg fun e => hl.1 e.symm, ih hl.2, List.singleton_append]
  rw [List.nodup_middle, List.nodup_cons, List.mem_append, not_or] at h
  have heq : insertBeside a (some q) d (l₁ ++ q :: l₂) = (l₁ ++ q :: l₂).flatMap fun b =>
      if b = q then if d = .left then [a, q] else [q, a] else [b] := by
    cases d <;> rfl
  rw [heq, List.flatMap_append, List.flatMap_cons, hkeep l₁ h.1.1, hkeep l₂ h.1.2, if_pos rfl,
    List.append_assoc]

/-- An empty place is the hole of a path. -/
theorem EmptyPlace.exists_plug {t : RBTree P} (h : EmptyPlace s t.toList parent d)
    (hr : Represents s t) (a : P) : ∃ p : TreePath P, t = plug p nil ∧
      rbLink s a p.parent (TreePath.side p) = rbLink s a parent d ∧
      p.before ++ a :: p.after = insertBeside a parent d t.toList := by
  cases parent with
  | none => exact ⟨[], eq_nil_of_root (hr.root.symm.trans h), rfl, rfl⟩
  | some q =>
    obtain ⟨hq, hchild⟩ := h
    obtain ⟨p, c, l, r, rfl⟩ := exists_plug_of_mem hq
    rw [show s.mem q = ⟨p.parent, l.root, r.root, c⟩ from hr.subtree.1] at hchild
    have hnodup := hr.nodup
    rw [toList_plug_node] at hnodup ⊢
    rw [insertBeside_middle hnodup]
    cases d with
    | left =>
      obtain rfl : l = nil := eq_nil_of_root hchild
      refine ⟨⟨.left, c, q, r⟩ :: p, rfl, rfl, ?_⟩
      simp [Frame.before, Frame.after]
    | right =>
      obtain rfl : r = nil := eq_nil_of_root hchild
      refine ⟨⟨.right, c, q, l⟩ :: p, rfl, rfl, ?_⟩
      simp [Frame.before, Frame.after]

/-- A node linked as a red leaf in an empty place of a well-formed tree, and `rb_insert_color`. -/
theorem rb_insert_wellFormed (h : RbWellFormed s l) (ha : a ∉ l) (hplace : EmptyPlace s l parent d)
    {fuel : ℕ} (hfuel : l.length < fuel) :
    ∃ s', rbInsertColor fuel (rbLink s a parent d) a = some s' ∧
      RbWellFormed s' (insertBeside a parent d l) := by
  obtain ⟨t, hr, hrb, rfl⟩ := h
  obtain ⟨p, rfl, hlink, hlist⟩ := hplace.exists_plug hr a
  obtain ⟨s', t', hs', hr', hrb', hl', -⟩ := rbInsert_spec fuel hr hrb ha hfuel
  rw [hlink] at hs'
  exact ⟨s', hs', t', hr', hrb', hl'.trans hlist⟩

theorem rb_insert_wellFormed_three :
    ∃ s', rbInsertColor 4 (rbLink threeNodes 4 (some 3) .right) 4 = some s' ∧
      RbWellFormed s' [1, 2, 3, 4] := by
  have hplace : EmptyPlace threeNodes [1, 2, 3] (some 3) .right := ⟨by decide, rfl⟩
  exact rb_insert_wellFormed threeNodes_wellFormed (by decide) hplace (by decide)

end Fru1tOs
