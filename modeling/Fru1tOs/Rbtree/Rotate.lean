import Fru1tOs.Rbtree.Repr

/-!
# Rotations

A rotation at a focus turns the subtree in its hole, and nothing else: the
represented tree is the rotated one (`rbRotate_spec`), with the same in-order
sequence (`toList_rotate`), and the memory outside of the tree is untouched.
-/

namespace Fru1tOs

open Lib RBTree RbNode

variable {P : Type*} [DecidableEq P] {s s' : RbState P} {p : TreePath P}

/-- The memory outside of `l` is the same in both states. -/
def Untouched (l : List P) (s s' : RbState P) : Prop := ∀ b ∉ l, s'.mem b = s.mem b

omit [DecidableEq P] in
theorem Untouched.refl (l : List P) (s : RbState P) : Untouched l s s := fun _ _ => rfl

omit [DecidableEq P] in
theorem Untouched.trans {l : List P} {s₁ s₂ s₃ : RbState P} (h : Untouched l s₁ s₂)
    (h' : Untouched l s₂ s₃) : Untouched l s₁ s₃ :=
  fun b hb => (h' b hb).trans (h b hb)

omit [DecidableEq P] in
theorem Untouched.mono {l l' : List P} {s s' : RbState P} (h : Untouched l s s')
    (hl : ∀ b ∈ l, b ∈ l') : Untouched l' s s' :=
  fun b hb => h b fun hb' => hb (hl b hb')

theorem untouched_setColor {l : List P} {a : P} (ha : a ∈ l) (s : RbState P) (c : Color) :
    Untouched l s (s.setColor a c) :=
  fun _ hb => setColor_mem_ne s c fun e => hb (e ▸ ha)

omit [DecidableEq P] in
/-- A rotation keeps the in-order sequence. -/
theorem toList_rotate (d : Side) (c c' : Color) (x y z : RBTree P) (a b : P) :
    (bin d c' (bin d c x a y) b z).toList = (bin d c x a (bin d c' y b z)).toList := by
  cases d <;> simp [bin]

/-- The write that redirects to `v` the pointer down to `node`, from its parent
    (tested on the side `d` first) or from the root. -/
def redirect (d : Side) (s : RbState P) (parent : Option P) (node : P) (v : Option P) :
    RbState P :=
  match parent with
  | some p =>
    if (s.mem p).child d = some node then s.setChild p d v else s.setChild p d.other v
  | none => s.setRoot v

theorem rbReplaceChild_eq (s : RbState P) (parent : Option P) (node : P) (v : Option P) :
    rbReplaceChild s parent node v = redirect .left s parent node v := rfl

/-- The redirection hits the node above the focus, on the side of the focus. -/
theorem redirect_cons {d : Side} {f : Frame P} {a : P} {v : Option P} {t : RBTree P}
    (h : Represents s (plug (f :: p) t)) (ht : t.root = some a)
    (hs : s'.mem f.key = s.mem f.key) :
    redirect d s' (some f.key) a v = s'.setChild f.key f.side v := by
  rw [redirect]
  split_ifs with hc
  · rw [hs, h.child_parent_iff ht] at hc
    rw [hc]
  · rw [hs, h.child_parent_iff ht] at hc
    rw [Side.eq_other_of_ne (Ne.symm hc)]

theorem redirect_mem_ne {d : Side} {parent v : Option P} {a b : P} (hb : parent ≠ some b) :
    (redirect d s parent a v).mem b = s.mem b := by
  cases parent with
  | none => rfl
  | some q =>
    have hq : b ≠ q := fun e => hb (by rw [e])
    rw [redirect]
    split_ifs
    · exact setChild_mem_ne _ _ _ hq
    · exact setChild_mem_ne _ _ _ hq

theorem redirect_root {d : Side} {parent v : Option P} {a : P} :
    (redirect d s parent a v).root = if parent = none then v else s.root := by
  cases parent with
  | none => rfl
  | some q =>
    simp only [redirect, reduceCtorEq, if_false]
    split_ifs <;> rfl

/-- `rb_rotate_left` and `rb_rotate_right`, at a focus. -/
theorem rbRotate_spec {d : Side} {c c' : Color} {x y z : RBTree P} {a b : P}
    (h : Represents s (plug p (bin d c x a (bin d c' y b z)))) :
    ∃ s', rbRotate d s a = some s' ∧ Represents s' (plug p (bin d c' (bin d c x a y) b z)) ∧
      Untouched (plug p (bin d c x a (bin d c' y b z))).toList s s' := by
  have hnodup := nodup_of_plug h.nodup
  obtain ⟨ha, hx, hbyz⟩ := holds_bin.1 h.subtree
  obtain ⟨hb, hy, hz⟩ := holds_bin.1 hbyz
  rw [root_bin] at ha
  obtain ⟨-, hnyz, hax, habyz, hxb⟩ := nodup_bin.1 hnodup
  obtain ⟨hny, -, hby, hbz, hyz⟩ := nodup_bin.1 hnyz
  simp only [RBTree.mem_bin, not_or] at habyz hxb
  have hab : a ≠ b := habyz.2.1
  -- The states after each write of the rotation.
  set s₁ := s.setChild a d.other y.root with hs₁
  set s₂ := s₁.setParent? y.root (some a) with hs₂
  set s₃ := s₂.setChild b d (some a) with hs₃
  set s₄ := s₃.setParent b p.parent with hs₄
  set s₅ := redirect d s₄ p.parent a (some b) with hs₅
  set s₆ := s₅.setParent a (some b) with hs₆
  have hstep : rbRotate d s a = some s₆ := by
    have hb₁ : (s₁.mem b).child d = y.root := by
      rw [hs₁, setChild_mem_ne _ _ _ hab.symm, hb, child_ofSide]
    rw [rbRotate, ha, child_other_ofSide, parent_ofSide]
    simp only [Option.bind_eq_bind, Option.bind_some, hb, child_ofSide, ← hs₁, hb₁, ← hs₂, ← hs₃,
      ← hs₄]
    rfl
  have hroot_y : ∀ e, y.root = some e → e ∈ y.toList := fun e he => mem_toList_of_root he
  have hya : y.root ≠ some a := fun e => habyz.1 (hroot_y a e)
  have hyb : y.root ≠ some b := fun e => hby (hroot_y b e)
  have hpar : ∀ q, p.parent = some q → q ∉ (bin d c x a (bin d c' y b z)).toList :=
    fun q hq => h.parent_not_mem hq
  simp only [RBTree.mem_bin, not_or] at hpar
  have hpa : p.parent ≠ some a := fun e => (hpar a e).2.1 rfl
  have hpb : p.parent ≠ some b := fun e => (hpar b e).2.2.2.1 rfl
  -- What the memory holds in the end.
  have hrest : ∀ e, e ≠ a → e ≠ b → y.root ≠ some e → p.parent ≠ some e →
      s₆.mem e = s.mem e := by
    intro e hea heb hey hep
    rw [hs₆, setParent_mem_ne _ _ hea, hs₅, redirect_mem_ne hep, hs₄, setParent_mem_ne _ _ heb,
      hs₃, setChild_mem_ne _ _ _ heb, hs₂, setParent?_mem_of_ne hey, hs₁,
      setChild_mem_ne _ _ _ hea]
  have hma : s₆.mem a = ofSide d (some b) x.root y.root c := by
    rw [hs₆, setParent_mem_same, hs₅, redirect_mem_ne hpa, hs₄, setParent_mem_ne _ _ hab, hs₃,
      setChild_mem_ne _ _ _ hab, hs₂, setParent?_mem_of_ne hya, hs₁, setChild_mem_same, ha]
    simp
  have hmb : s₆.mem b = ofSide d p.parent (some a) z.root c' := by
    rw [hs₆, setParent_mem_ne _ _ hab.symm, hs₅, redirect_mem_ne hpb, hs₄, setParent_mem_same, hs₃,
      setChild_mem_same, hs₂, setParent?_mem_of_ne hyb, hs₁, setChild_mem_ne _ _ _ hab.symm, hb]
    simp
  have hmy : Holds s₆.mem (some a) y := by
    have h₁ : Holds s₁.mem (some b) y := hy.congr fun e he =>
      setChild_mem_ne _ _ _ fun e' => habyz.1 (e' ▸ he)
    refine (h₁.setParent? hny (v := some a)).congr fun e he => ?_
    have hea : e ≠ a := fun e' => habyz.1 (e' ▸ he)
    have heb : e ≠ b := fun e' => hby (e' ▸ he)
    have hep : p.parent ≠ some e := fun e' => (hpar e e').2.2.1 he
    rw [hs₆, setParent_mem_ne _ _ hea, hs₅, redirect_mem_ne hep, hs₄, setParent_mem_ne _ _ heb,
      hs₃, setChild_mem_ne _ _ _ heb]
  have hmx : Holds s₆.mem (some a) x := by
    refine hx.congr fun e he => hrest e ?_ ?_ ?_ ?_
    · exact fun e' => hax (e' ▸ he)
    · exact fun e' => (hxb e he).2.1 e'
    · exact fun e' => (hxb e he).1 (hroot_y e e')
    · exact fun e' => (hpar e e').1 he
  have hmz : Holds s₆.mem (some b) z := by
    refine hz.congr fun e he => hrest e ?_ ?_ ?_ ?_
    · exact fun e' => habyz.2.2 (e' ▸ he)
    · exact fun e' => hbz (e' ▸ he)
    · exact fun e' => hyz e (hroot_y e e') he
    · exact fun e' => (hpar e e').2.2.2.2 he
  have hmem : ∀ e, e ∉ (bin d c x a (bin d c' y b z)).toList → p.parent ≠ some e →
      s₆.mem e = s.mem e := by
    intro e he hep
    simp only [RBTree.mem_bin, not_or] at he
    exact hrest e he.2.1 he.2.2.2.1 (fun e' => he.2.2.1 (hroot_y e e')) hep
  refine ⟨s₆, hstep, ?_, ?_⟩
  · refine h.replace ?_ ?_ ?_ ?_ ?_
    · rw [hs₆, setParent_root, hs₅, redirect_root, root_bin]
      cases p with
      | nil => simp
      | cons f p => simp [hs₄, hs₃, hs₂, hs₁]
    · rintro f q rfl
      have hfa : f.key ≠ a := fun e => hpa (by rw [TreePath.parent_cons, e])
      have hfb : f.key ≠ b := fun e => hpb (by rw [TreePath.parent_cons, e])
      have hfy : y.root ≠ some f.key := fun e => (hpar f.key rfl).2.2.1 (hroot_y _ e)
      have hf₄ : s₄.mem f.key = s.mem f.key := by
        rw [hs₄, setParent_mem_ne _ _ hfb, hs₃, setChild_mem_ne _ _ _ hfb, hs₂,
          setParent?_mem_of_ne hfy, hs₁, setChild_mem_ne _ _ _ hfa]
      rw [hs₆, setParent_mem_ne _ _ hfa, hs₅, TreePath.parent_cons,
        redirect_cons h (root_bin _ _ _ _ _) hf₄, setChild_mem_same, hf₄, root_bin]
    · exact fun e he hep => hmem e (fun he' => h.not_mem_path he' he) hep
    · exact holds_bin.2 ⟨by rw [root_bin, hmb], holds_bin.2 ⟨hma, hmx, hmy⟩, hmz⟩
    · rw [toList_plug_congr p (toList_rotate d c c' x y z a b)]
      exact h.nodup
  · intro e he
    rw [mem_plug, not_or] at he
    exact hmem e he.2 fun hp => he.1 (TreePath.mem_elems_of_parent hp)

end Fru1tOs
