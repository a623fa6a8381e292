import Fru1tOs.Rbtree.Basic

/-!
# What a tree of pointers represents

A tree in memory represents (`Represents`) an `RBTree` of addresses: every node of the
latter is in memory with its colour, its children and its parent, the root
pointer is its root, and no address occurs twice. Parent pointers are thus
consistent, by definition.

An operation is followed at a *focus* `plug p t`: it changes the subtree `t` in
the hole of the path `p`, and at most the pointer down to it from the node above
(`Represents.replace`). What is beside the focus does not change.
-/

namespace Fru1tOs

open Lib RBTree

variable {P : Type*}

namespace RbNode

/-- The node with the children `x` on the side `d` and `y` on the other one. -/
def ofSide (d : Side) (parent x y : Option P) (c : Color) : RbNode P :=
  match d with
  | .left => ⟨parent, x, y, c⟩
  | .right => ⟨parent, y, x, c⟩

section Fields

variable (n : RbNode P) (d : Side) (par x y v : Option P) (c c' : Color)

@[simp] theorem parent_ofSide : (ofSide d par x y c).parent = par := by cases d <;> rfl
@[simp] theorem color_ofSide : (ofSide d par x y c).color = c := by cases d <;> rfl
@[simp] theorem child_ofSide : (ofSide d par x y c).child d = x := by cases d <;> rfl
@[simp] theorem child_other_ofSide : (ofSide d par x y c).child d.other = y := by cases d <;> rfl
@[simp] theorem setChild_ofSide : (ofSide d par x y c).setChild d v = ofSide d par v y c := by
  cases d <;> rfl
@[simp] theorem setChild_other_ofSide :
    (ofSide d par x y c).setChild d.other v = ofSide d par x v c := by cases d <;> rfl
@[simp] theorem setParent_ofSide : (ofSide d par x y c).setParent v = ofSide d v x y c := by
  cases d <;> rfl
@[simp] theorem setColor_ofSide : (ofSide d par x y c).setColor c' = ofSide d par x y c' := by
  cases d <;> rfl
@[simp] theorem ofSide_other : ofSide d.other par x y c = ofSide d par y x c := by cases d <;> rfl
@[simp] theorem child_setParent : (n.setParent v).child d = n.child d := by cases d <;> rfl
@[simp] theorem parent_setChild : (n.setChild d v).parent = n.parent := by cases d <;> rfl
@[simp] theorem setParent_self : n.setParent n.parent = n := rfl
@[simp] theorem setChild_child : n.setChild d (n.child d) = n := by cases d <;> rfl

theorem left_eq_child : n.left = n.child .left := rfl

end Fields

end RbNode

open RbNode

/-- The tree is in memory, below the parent `par`. -/
def Holds (m : P → RbNode P) : Option P → RBTree P → Prop
  | _, nil => True
  | par, node c l a r => m a = ⟨par, l.root, r.root, c⟩ ∧ Holds m (some a) l ∧ Holds m (some a) r

/-- The path is in memory, with a child `h` in its hole. -/
def HoldsPath (m : P → RbNode P) : TreePath P → Option P → Prop
  | [], _ => True
  | f :: p, h => m f.key = ofSide f.side (TreePath.parent p) h f.sib.root f.color ∧
      Holds m (some f.key) f.sib ∧ HoldsPath m p (some f.key)

variable {m m' : P → RbNode P}

@[simp] theorem holds_nil (par : Option P) : Holds m par nil := trivial

@[simp] theorem holds_bin {par : Option P} {d : Side} {c : Color} {x y : RBTree P} {a : P} :
    Holds m par (bin d c x a y) ↔
      m a = ofSide d par x.root y.root c ∧ Holds m (some a) x ∧ Holds m (some a) y := by
  cases d <;> simp only [bin, Holds, ofSide]
  tauto

@[simp] theorem holdsPath_nil (h : Option P) : HoldsPath m [] h := trivial

@[simp] theorem holdsPath_cons {f : Frame P} {p : TreePath P} {h : Option P} :
    HoldsPath m (f :: p) h ↔ m f.key = ofSide f.side (TreePath.parent p) h f.sib.root f.color ∧
      Holds m (some f.key) f.sib ∧ HoldsPath m p (some f.key) := Iff.rfl

/-- A tree is in memory iff its parts are, at a focus. -/
theorem holds_plug {p : TreePath P} {t : RBTree P} :
    Holds m none (plug p t) ↔ HoldsPath m p t.root ∧ Holds m p.parent t := by
  induction p generalizing t with
  | nil => simp
  | cons f p ih =>
    rw [plug_cons, ih, Frame.fill, root_bin, holds_bin, holdsPath_cons, TreePath.parent_cons]
    tauto

/-! ## Frames -/

/-- A tree depends only on the memory of its nodes. -/
theorem Holds.congr {par : Option P} {t : RBTree P} (h : Holds m par t)
    (hm : ∀ b ∈ t.toList, m' b = m b) : Holds m' par t := by
  induction t generalizing par with
  | nil => trivial
  | node c l a r ihl ihr =>
    obtain ⟨ha, hl, hr⟩ := h
    refine ⟨?_, ihl hl fun b hb => hm b ?_, ihr hr fun b hb => hm b ?_⟩
    · rw [hm a (by simp), ha]
    · simp [hb]
    · simp [hb]

/-- A path depends only on the memory of its elements. -/
theorem HoldsPath.congr {p : TreePath P} {h : Option P} (hp : HoldsPath m p h)
    (hm : ∀ b ∈ p.elems, m' b = m b) : HoldsPath m' p h := by
  induction p generalizing h with
  | nil => trivial
  | cons f p ih =>
    obtain ⟨hf, hs, hp⟩ := hp
    refine ⟨?_, hs.congr fun b hb => hm b ?_, ih hp fun b hb => hm b ?_⟩
    · rw [hm _ (TreePath.mem_elems_cons.2 (.inl rfl)), hf]
    · exact TreePath.mem_elems_cons.2 (.inr (.inl hb))
    · exact TreePath.mem_elems_cons.2 (.inr (.inr hb))

/-- A path gets another child in its hole when the node above points to it. -/
theorem HoldsPath.replace {p : TreePath P} {h h' : Option P} (hp : HoldsPath m p h)
    (hparent : ∀ f q, p = f :: q → m' f.key = (m f.key).setChild f.side h')
    (hrest : ∀ b ∈ p.elems, p.parent ≠ some b → m' b = m b)
    (hnodup : ∀ f q, p = f :: q → f.key ∉ f.sib.toList ∧ f.key ∉ TreePath.elems q) :
    HoldsPath m' p h' := by
  cases p with
  | nil => trivial
  | cons f q =>
    obtain ⟨hf, hs, hq⟩ := hp
    obtain ⟨hsib, hup⟩ := hnodup f q rfl
    have hne : ∀ b, b ∈ f.sib.toList ∨ b ∈ TreePath.elems q → m' b = m b := by
      intro b hb
      refine hrest b (TreePath.mem_elems_cons.2 (.inr hb)) fun e => ?_
      obtain rfl : f.key = b := by simpa using e
      exact hb.elim hsib hup
    refine ⟨?_, hs.congr fun b hb => hne b (.inl hb), hq.congr fun b hb => hne b (.inr hb)⟩
    rw [hparent f q rfl, hf, setChild_ofSide]

/-! ## Representation -/

/-- The state represents the tree `t`. -/
structure Represents (s : RbState P) (t : RBTree P) : Prop where
  root : s.root = t.root
  holds : Holds s.mem none t
  nodup : t.toList.Nodup

namespace Represents

variable {s s' : RbState P} {p : TreePath P} {t t' : RBTree P}

theorem path (h : Represents s (plug p t)) : HoldsPath s.mem p t.root := (holds_plug.1 h.holds).1

theorem subtree (h : Represents s (plug p t)) : Holds s.mem p.parent t := (holds_plug.1 h.holds).2

/-- The elements of the subtree are not on the path. -/
theorem not_mem_path (h : Represents s (plug p t)) {b : P} (hb : b ∈ t.toList) : b ∉ p.elems :=
  not_mem_of_nodup h.nodup hb

/-- The node above the hole is not in the subtree. -/
theorem parent_not_mem (h : Represents s (plug p t)) {q : P} (hq : p.parent = some q) :
    q ∉ t.toList :=
  fun hmem => h.not_mem_path hmem (TreePath.mem_elems_of_parent hq)

/-- The node above the hole is on the path once. -/
theorem parent_once {f : Frame P} (h : Represents s (plug (f :: p) t)) :
    f.key ∉ f.sib.toList ∧ f.key ∉ TreePath.elems p := by
  have hfill := nodup_of_plug (p := p) (t := f.fill t) h.nodup
  rw [Frame.fill, nodup_bin] at hfill
  refine ⟨hfill.2.2.2.1, ?_⟩
  refine Represents.not_mem_path (s := s) (p := p) (t := f.fill t) h ?_
  rw [Frame.fill, mem_bin]
  exact .inr (.inl rfl)

/-- The root pointer changes only when the whole tree is replaced. -/
theorem root_plug (p : TreePath P) (t t' : RBTree P) :
    (plug p t').root = if p = [] then t'.root else (plug p t).root := by
  induction p generalizing t t' with
  | nil => simp
  | cons f p ih =>
    rw [plug_cons, plug_cons, ih (f.fill t) (f.fill t')]
    cases p <;> simp [Frame.fill]

/-- The rule of focused changes: to replace the subtree `t` by `t'`, put `t'` in
    memory, redirect to it the pointer of the node above, and keep what is
    beside the focus. -/
theorem replace (h : Represents s (plug p t))
    (hroot : s'.root = if p = [] then t'.root else s.root)
    (hparent : ∀ f q, p = f :: q → s'.mem f.key = (s.mem f.key).setChild f.side t'.root)
    (hrest : ∀ b ∈ p.elems, p.parent ≠ some b → s'.mem b = s.mem b)
    (hsub : Holds s'.mem p.parent t') (hnodup : (plug p t').toList.Nodup) :
    Represents s' (plug p t') where
  root := by rw [hroot, h.root, root_plug p t t']
  holds := holds_plug.2 ⟨h.path.replace hparent hrest fun f q e => by subst e; exact h.parent_once,
    hsub⟩
  nodup := hnodup

/-- Focused changes that leave the path as it is. -/
theorem replace_same (h : Represents s (plug p t)) (hroot : s'.root = s.root)
    (hp : ∀ b ∈ p.elems, s'.mem b = s.mem b) (ht : t'.root = t.root)
    (hsub : Holds s'.mem p.parent t') (hnodup : (plug p t').toList.Nodup) :
    Represents s' (plug p t') where
  root := by
    rw [hroot, h.root, root_plug p t t', ht]
    cases p <;> simp
  holds := holds_plug.2 ⟨ht ▸ h.path.congr hp, hsub⟩
  nodup := hnodup

/-- A representation depends only on the memory of the nodes of the tree. -/
theorem congr (h : Represents s t) (hroot : s'.root = s.root)
    (hm : ∀ b ∈ t.toList, s'.mem b = s.mem b) : Represents s' t where
  root := hroot.trans h.root
  holds := h.holds.congr hm
  nodup := h.nodup

/-- The node at the root of a focus. -/
theorem mem_bin {d : Side} {c : Color} {x y : RBTree P} {a : P}
    (h : Represents s (plug p (bin d c x a y))) :
    s.mem a = ofSide d p.parent x.root y.root c :=
  (holds_bin.1 h.subtree).1

/-- The node above a focus. -/
theorem mem_parent {d : Side} {c : Color} {q : P} {y : RBTree P}
    (h : Represents s (plug (⟨d, c, q, y⟩ :: p) t)) : s.mem q = ofSide d p.parent t.root y.root c :=
  h.path.1

/-- The node above a focus has its root as a child on one side only. -/
theorem child_parent_iff {f : Frame P} {a : P} (h : Represents s (plug (f :: p) t))
    (ht : t.root = some a) (e : Side) : (s.mem f.key).child e = some a ↔ e = f.side := by
  rw [h.path.1, ht]
  by_cases he : e = f.side
  · subst he
    simp
  · obtain rfl := Side.eq_other_of_ne he
    rw [child_other_ofSide]
    refine ⟨fun hs => ?_, fun hs => absurd hs he⟩
    have hpath : a ∈ TreePath.elems (f :: p) :=
      TreePath.mem_elems_cons.2 (.inr (.inl (mem_toList_of_root hs)))
    exact absurd hpath (h.not_mem_path (mem_toList_of_root ht))

/-- The color of the root of a subtree is that of its node in memory. -/
theorem isBlack_root {par : Option P} (h : Holds s.mem par t) :
    s.isBlack t.root = decide (t.color = .black) := by
  cases t with
  | nil => rfl
  | node c l a r =>
    simp only [root_node, RbState.isBlack, h.1, color_node]
    rfl

theorem isRed_root {par : Option P} (h : Holds s.mem par t) :
    s.isRed t.root = decide (t.color = .red) := by
  cases t with
  | nil => rfl
  | node c l a r =>
    simp only [root_node, RbState.isRed, h.1, color_node]
    rfl

end Represents

/-! ## Single writes -/

section Writes

variable [DecidableEq P] {s : RbState P} {p : TreePath P}

@[simp] theorem modify_root (s : RbState P) (a : P) (f : RbNode P → RbNode P) :
    (s.modify a f).root = s.root := rfl

@[simp] theorem modify_mem_same (s : RbState P) (a : P) (f : RbNode P → RbNode P) :
    (s.modify a f).mem a = f (s.mem a) := by simp [RbState.modify]

theorem modify_mem_ne (s : RbState P) {a b : P} (f : RbNode P → RbNode P) (h : b ≠ a) :
    (s.modify a f).mem b = s.mem b := by simp [RbState.modify, h]

@[simp] theorem setParent_mem_same (s : RbState P) (a : P) (v : Option P) :
    (s.setParent a v).mem a = (s.mem a).setParent v := modify_mem_same _ _ _

@[simp] theorem setChild_mem_same (s : RbState P) (a : P) (d : Side) (v : Option P) :
    (s.setChild a d v).mem a = (s.mem a).setChild d v := modify_mem_same _ _ _

@[simp] theorem setColor_mem_same (s : RbState P) (a : P) (c : Color) :
    (s.setColor a c).mem a = (s.mem a).setColor c := modify_mem_same _ _ _

theorem setParent_mem_ne (s : RbState P) {a b : P} (v : Option P) (h : b ≠ a) :
    (s.setParent a v).mem b = s.mem b := modify_mem_ne _ _ h

theorem setChild_mem_ne (s : RbState P) {a b : P} (d : Side) (v : Option P) (h : b ≠ a) :
    (s.setChild a d v).mem b = s.mem b := modify_mem_ne _ _ h

theorem setColor_mem_ne (s : RbState P) {a b : P} (c : Color) (h : b ≠ a) :
    (s.setColor a c).mem b = s.mem b := modify_mem_ne _ _ h

@[simp] theorem setParent_root (s : RbState P) (a : P) (v : Option P) :
    (s.setParent a v).root = s.root := rfl

@[simp] theorem setChild_root (s : RbState P) (a : P) (d : Side) (v : Option P) :
    (s.setChild a d v).root = s.root := rfl

@[simp] theorem setColor_root (s : RbState P) (a : P) (c : Color) :
    (s.setColor a c).root = s.root := rfl

omit [DecidableEq P] in
@[simp] theorem setRoot_root (s : RbState P) (v : Option P) : (s.setRoot v).root = v := rfl

omit [DecidableEq P] in
@[simp] theorem setRoot_mem (s : RbState P) (v : Option P) : (s.setRoot v).mem = s.mem := rfl

/-- Redirecting the parent of the root of a subtree. -/
theorem Holds.setParent? {par v : Option P} {t : RBTree P} (h : Holds s.mem par t)
    (hnodup : t.toList.Nodup) : Holds (s.setParent? t.root v).mem v t := by
  cases t with
  | nil => trivial
  | node c l a r =>
    obtain ⟨ha, hl, hr⟩ := h
    rw [show (node c l a r : RBTree P) = bin .left c l a r from rfl, nodup_bin] at hnodup
    obtain ⟨-, -, hal, har, -⟩ := hnodup
    refine ⟨?_, hl.congr fun b hb => ?_, hr.congr fun b hb => ?_⟩
    · simp [RbState.setParent?, ha, RbNode.setParent]
    · exact setParent_mem_ne s v fun e => hal (e ▸ hb)
    · exact setParent_mem_ne s v fun e => har (e ▸ hb)

theorem setParent?_mem_of_ne {s : RbState P} {a v : Option P} {b : P} (h : a ≠ some b) :
    (s.setParent? a v).mem b = s.mem b := by
  cases a with
  | none => rfl
  | some a => exact setParent_mem_ne s v fun e => h (congrArg some e.symm)

@[simp] theorem setParent?_root (s : RbState P) (a v : Option P) :
    (s.setParent? a v).root = s.root := by cases a <;> rfl

/-- Painting the node at a focus. -/
theorem Represents.setColor {d : Side} {c : Color} {x y : RBTree P} {a : P}
    (h : Represents s (plug p (bin d c x a y))) (c' : Color) :
    Represents (s.setColor a c') (plug p (bin d c' x a y)) := by
  have hnodup := nodup_bin.1 (nodup_of_plug h.nodup)
  obtain ⟨ha, hx, hy⟩ := holds_bin.1 h.subtree
  have hne : ∀ b, b ≠ a → (s.setColor a c').mem b = s.mem b := fun b hb => setColor_mem_ne s c' hb
  refine h.replace_same rfl (fun b hb => hne b ?_) (by simp) ?_ ?_
  · exact fun e => h.not_mem_path (RBTree.mem_bin.2 (.inr (.inl e))) hb
  · refine holds_bin.2 ⟨by simp [ha], ?_, ?_⟩
    · exact hx.congr fun b hb => hne b fun e => hnodup.2.2.1 (e ▸ hb)
    · exact hy.congr fun b hb => hne b fun e => hnodup.2.2.2.1 (e ▸ hb)
  · rw [toList_plug_congr p (t := bin d c x a y) (by cases d <;> rfl)]
    exact h.nodup

end Writes

end Fru1tOs
