import Fru1tOs.Rbtree.Erase
import Fru1tOs.Rbtree.Walk

/-!
# What the operations read

The operations on a tree follow its pointers, so that they read no node but those of the tree. Two
memories that are the same on a set of nodes, which the pointers do not leave (`SameOn`), are not
told apart: an operation fails in both or in none, and leaves them the same on the set.

* `rbNext_sameOn`, `rbErase_sameOn`: for `rb_next` and `rb_erase`.
-/

namespace Fru1tOs

open Lib RBTree RbNode

variable {P : Type*}

/-- The pointer is null, or points to a node of `A`. -/
def PointsInto (A : List P) (v : Option P) : Prop := ∀ a, v = some a → a ∈ A

/-- The two memories are the same on `A`, and no pointer leaves it. -/
structure SameOn (A : List P) (s s' : RbState P) : Prop where
  root : s'.root = s.root
  mem : ∀ a ∈ A, s'.mem a = s.mem a
  root_into : PointsInto A s.root
  parent_into : ∀ a ∈ A, PointsInto A (s.mem a).parent
  child_into : ∀ a ∈ A, ∀ d, PointsInto A ((s.mem a).child d)

variable {A : List P} {s s' : RbState P} {a : P} {v v' o o' : Option P} {d : Side}

theorem pointsInto_some (ha : a ∈ A) : PointsInto A (some a) := fun b hb => by
  obtain rfl := Option.some.inj hb
  exact ha

/-- The pointers of a tree in memory lead to its nodes, but for the parent of its root. -/
theorem Holds.pointsInto {m : P → RbNode P} {par : Option P} {t : RBTree P} (h : Holds m par t)
    (ha : a ∈ t.toList) : ((m a).parent = par ∨ PointsInto t.toList (m a).parent) ∧
      ∀ d, PointsInto t.toList ((m a).child d) := by
  induction t generalizing par with
  | nil => cases ha
  | node c l x r ihl ihr =>
    obtain ⟨hx, hl, hr⟩ := h
    have hmem : ∀ b, b ∈ (node c l x r).toList ↔ b ∈ l.toList ∨ b = x ∨ b ∈ r.toList := by
      simp
    -- In a subtree, pointers lead to it or to `x`.
    have hsub : ∀ u : RBTree P, (∀ b ∈ u.toList, b ∈ (node c l x r).toList) →
        ((m a).parent = some x ∨ PointsInto u.toList (m a).parent) ∧
          (∀ d, PointsInto u.toList ((m a).child d)) →
        ((m a).parent = par ∨ PointsInto (node c l x r).toList (m a).parent) ∧
          ∀ d, PointsInto (node c l x r).toList ((m a).child d) := by
      rintro u hu ⟨hparent, hchild⟩
      refine ⟨.inr fun b hb => ?_, fun d b hb => hu b (hchild d b hb)⟩
      rcases hparent with hparent | hparent
      · rw [hparent, Option.some_inj] at hb
        exact (hmem b).2 (.inr (.inl hb.symm))
      · exact hu b (hparent b hb)
    rcases (hmem a).1 ha with ha | rfl | ha
    · exact hsub l (fun b hb => (hmem b).2 (.inl hb)) (ihl hl ha)
    · refine ⟨.inl (by rw [hx]), fun d b hb => ?_⟩
      rw [hx] at hb
      cases d with
      | left => exact (hmem b).2 (.inl (mem_toList_of_root hb))
      | right => exact (hmem b).2 (.inr (.inr (mem_toList_of_root hb)))
    · exact hsub r (fun b hb => (hmem b).2 (.inr (.inr hb))) (ihr hr ha)

/-- The pointers of a tree do not leave it. -/
theorem Represents.sameOn {t : RBTree P} (h : Represents s t) (hroot : s'.root = s.root)
    (hmem : ∀ a ∈ t.toList, s'.mem a = s.mem a) : SameOn t.toList s s' where
  root := hroot
  mem := hmem
  root_into a ha := mem_toList_of_root (h.root.symm.trans ha)
  parent_into a ha := by
    rcases (h.holds.pointsInto ha).1 with hnone | hinto
    · rw [hnone]
      exact fun b hb => by cases hb
    · exact hinto
  child_into a ha := (h.holds.pointsInto ha).2

namespace SameOn

/-! ## Reads -/

theorem parent_eq (h : SameOn A s s') (ha : a ∈ A) : (s'.mem a).parent = (s.mem a).parent := by
  rw [h.mem a ha]

theorem child_eq (h : SameOn A s s') (ha : a ∈ A) (d : Side) :
    (s'.mem a).child d = (s.mem a).child d := by
  rw [h.mem a ha]

theorem isBlack_eq (h : SameOn A s s') (hv : PointsInto A v) : s'.isBlack v = s.isBlack v := by
  cases v with
  | none => rfl
  | some a => rw [RbState.isBlack, RbState.isBlack, h.mem a (hv a rfl)]

theorem isRed_eq (h : SameOn A s s') (hv : PointsInto A v) : s'.isRed v = s.isRed v := by
  cases v with
  | none => rfl
  | some a => rw [RbState.isRed, RbState.isRed, h.mem a (hv a rfl)]

/-! ## Writes -/

variable [DecidableEq P]

theorem modify (h : SameOn A s s') (ha : a ∈ A) {f f' : RbNode P → RbNode P}
    (hf : f' (s.mem a) = f (s.mem a)) (hparent : PointsInto A (f (s.mem a)).parent)
    (hchild : ∀ d, PointsInto A ((f (s.mem a)).child d)) :
    SameOn A (s.modify a f) (s'.modify a f') where
  root := h.root
  mem b hb := by
    rcases eq_or_ne b a with rfl | hba
    · rw [modify_mem_same, modify_mem_same, h.mem b hb, hf]
    · rw [modify_mem_ne _ _ hba, modify_mem_ne _ _ hba, h.mem b hb]
  root_into := h.root_into
  parent_into b hb := by
    rcases eq_or_ne b a with rfl | hba
    · rw [modify_mem_same]
      exact hparent
    · rw [modify_mem_ne _ _ hba]
      exact h.parent_into b hb
  child_into b hb := by
    rcases eq_or_ne b a with rfl | hba
    · rw [modify_mem_same]
      exact hchild
    · rw [modify_mem_ne _ _ hba]
      exact h.child_into b hb

theorem setChild (h : SameOn A s s') (ha : a ∈ A) (d : Side) (hv : PointsInto A v) (e : v' = v) :
    SameOn A (s.setChild a d v) (s'.setChild a d v') := by
  subst e
  refine h.modify ha rfl (by rw [parent_setChild]; exact h.parent_into a ha) fun d' => ?_
  rcases eq_or_ne d' d with rfl | hd
  · cases d' <;> exact hv
  · obtain rfl := Side.eq_other_of_ne hd
    have hkeep : ((s.mem a).setChild d v').child d.other = (s.mem a).child d.other := by
      cases d <;> rfl
    rw [hkeep]
    exact h.child_into a ha _

theorem setParent (h : SameOn A s s') (ha : a ∈ A) (hv : PointsInto A v) (e : v' = v) :
    SameOn A (s.setParent a v) (s'.setParent a v') := by
  subst e
  refine h.modify ha rfl hv fun d => ?_
  rw [child_setParent]
  exact h.child_into a ha d

theorem setColor (h : SameOn A s s') (ha : a ∈ A) {c c' : Color} (e : c' = c) :
    SameOn A (s.setColor a c) (s'.setColor a c') := by
  subst e
  exact h.modify ha rfl (h.parent_into a ha) (h.child_into a ha)

theorem setParent? (h : SameOn A s s') (ho : PointsInto A o) (eo : o' = o) (hv : PointsInto A v)
    (e : v' = v) : SameOn A (s.setParent? o v) (s'.setParent? o' v') := by
  subst eo
  cases o' with
  | none => exact h
  | some a => exact h.setParent (ho a rfl) hv e

omit [DecidableEq P] in
theorem setRoot (h : SameOn A s s') (hv : PointsInto A v) (e : v' = v) :
    SameOn A (s.setRoot v) (s'.setRoot v') :=
  ⟨e, h.mem, hv, h.parent_into, h.child_into⟩

end SameOn

variable [DecidableEq P]

/-! ## Rotations -/

theorem rbRotate_sameOn (h : SameOn A s s') (ha : a ∈ A) (d : Side) :
    Option.Rel (SameOn A) (rbRotate d s a) (rbRotate d s' a) := by
  rw [rbRotate, rbRotate, h.child_eq ha, h.parent_eq ha]
  have hparent := h.parent_into a ha
  rcases hup : (s.mem a).child d.other with _ | up
  · exact .none
  have hup : up ∈ A := h.child_into a ha _ up hup
  generalize (s.mem a).parent = parent at hparent ⊢
  dsimp only [Option.bind_eq_bind, Option.bind_some, Option.pure_def]
  have h₁ := h.setChild ha d.other (h.child_into up hup d) (h.child_eq hup d)
  generalize s.setChild a d.other ((s.mem up).child d) = s₁ at h₁ ⊢
  generalize s'.setChild a d.other ((s'.mem up).child d) = s₁' at h₁ ⊢
  have h₂ := ((h₁.setParent? (h₁.child_into up hup d) (h₁.child_eq hup d) (pointsInto_some ha)
    rfl).setChild hup d (pointsInto_some ha) rfl).setParent hup hparent rfl
  generalize (((s₁.setParent? ((s₁.mem up).child d) (some a)).setChild up d (some a)).setParent up
    parent) = s₂ at h₂ ⊢
  generalize (((s₁'.setParent? ((s₁'.mem up).child d) (some a)).setChild up d (some a)).setParent up
    parent) = s₂' at h₂ ⊢
  refine .some (SameOn.setParent ?_ ha (pointsInto_some hup) rfl)
  cases parent with
  | none => exact h₂.setRoot (pointsInto_some hup) rfl
  | some p =>
    have hp : p ∈ A := hparent p rfl
    dsimp only
    rw [h₂.child_eq hp]
    split_ifs
    · exact h₂.setChild hp d (pointsInto_some hup) rfl
    · exact h₂.setChild hp d.other (pointsInto_some hup) rfl

/-! ## The rebalancing of a removal -/

theorem rbEraseColorNephew_sameOn (h : SameOn A s s') {parent sibling : P} (hp : parent ∈ A)
    (hs : sibling ∈ A) (d : Side) :
    Option.Rel (fun r r' => SameOn A r.1 r'.1 ∧ r'.2 = r.2 ∧ r.2 ∈ A)
      (rbEraseColorNephew d s parent sibling) (rbEraseColorNephew d s' parent sibling) := by
  rw [rbEraseColorNephew, rbEraseColorNephew, h.child_eq hs, h.child_eq hs,
    h.isBlack_eq (h.child_into sibling hs _)]
  split_ifs
  · rcases hnear : (s.mem sibling).child d with _ | near
    · exact .none
    have hn : near ∈ A := h.child_into sibling hs d near hnear
    dsimp only [Option.bind_eq_bind, Option.bind_some]
    refine optionRel_bind (rbRotate_sameOn ((h.setColor hn rfl).setColor hs rfl) hs d.other)
      fun s₁ s₁' h₁ => ?_
    rw [h₁.child_eq hp]
    rcases hchild : (s₁.mem parent).child d.other with _ | sibling'
    · exact .none
    · exact .some ⟨h₁, rfl, h₁.child_into parent hp _ sibling' hchild⟩
  · exact .some ⟨h, rfl, hs⟩

/-- The states of the loop of `rb_erase_color` correspond. -/
def SamePlace (A : List P) (st st' : RbState P × Option P × Option P) : Prop :=
  SameOn A st.1 st'.1 ∧ st'.2 = st.2 ∧ PointsInto A st.2.1 ∧ PointsInto A st.2.2

/-- A tree and a pointer, as the loop of `rb_erase_color` leaves them, correspond. -/
def SameEnd (A : List P) (r r' : RbState P × Option P) : Prop :=
  SameOn A r.1 r'.1 ∧ r'.2 = r.2 ∧ PointsInto A r.2

theorem rbEraseColorBlack_sameOn (h : SameOn A s s') {parent sibling : P} (hp : parent ∈ A)
    (hs : sibling ∈ A) (d : Side) :
    Option.Rel (PassRel (SamePlace A) (SameEnd A))
      (rbEraseColorBlack d s parent sibling) (rbEraseColorBlack d s' parent sibling) := by
  rw [rbEraseColorBlack, rbEraseColorBlack, h.mem sibling hs,
    h.isBlack_eq (v := (s.mem sibling).left) (h.child_into sibling hs .left),
    h.isBlack_eq (v := (s.mem sibling).right) (h.child_into sibling hs .right)]
  split_ifs
  · have h₁ := h.setColor hs (c := .red) rfl
    refine .some (.next ⟨h₁, ?_, pointsInto_some hp, h₁.parent_into parent hp⟩)
    dsimp only
    rw [h₁.parent_eq hp]
  · refine optionRel_bind (rbEraseColorNephew_sameOn h hp hs d) ?_
    rintro ⟨s₁, sibling₁⟩ ⟨s₁', sibling₁'⟩ ⟨h₁, heq, hs₁⟩
    dsimp only at h₁ heq hs₁
    subst heq
    have h₂ := (h₁.setColor hs₁ (congrArg RbNode.color (h₁.mem parent hp))).setColor hp
      (c := .black) rfl
    dsimp only
    rw [h₂.child_eq hs₁]
    rcases hfar : (((s₁.setColor sibling₁' (s₁.mem parent).color).setColor parent .black).mem
      sibling₁').child d.other with _ | far
    · exact .none
    have hf : far ∈ A := h₂.child_into sibling₁' hs₁ _ far hfar
    dsimp only [Option.bind_eq_bind, Option.bind_some]
    refine optionRel_bind (rbRotate_sameOn (h₂.setColor hf rfl) hp d) fun s₃ s₃' h₃ => ?_
    exact .some (.done ⟨h₃, h₃.root, h₃.root_into⟩)

theorem rbEraseColorSide_sameOn (h : SameOn A s s') {parent : P} (hp : parent ∈ A) (d : Side) :
    Option.Rel (PassRel (SamePlace A) (SameEnd A))
      (rbEraseColorSide d s parent) (rbEraseColorSide d s' parent) := by
  rw [rbEraseColorSide, rbEraseColorSide, h.child_eq hp, h.isRed_eq (h.child_into parent hp _)]
  have hchild := h.child_into parent hp d.other
  generalize (s.mem parent).child d.other = sibling at hchild ⊢
  -- Once the sibling is black.
  have hblack : ∀ s₁ s₁' : RbState P, SameOn A s₁ s₁' → ∀ v, PointsInto A v →
      Option.Rel (PassRel (SamePlace A) (SameEnd A))
        (v.bind fun sib => rbEraseColorBlack d s₁ parent sib)
        (v.bind fun sib => rbEraseColorBlack d s₁' parent sib) := by
    intro s₁ s₁' h₁ v hv
    cases v with
    | none => exact .none
    | some sib => exact rbEraseColorBlack_sameOn h₁ hp (hv sib rfl) d
  split_ifs
  · cases sibling with
    | none => exact .none
    | some red =>
      have hred : red ∈ A := hchild red rfl
      dsimp only [Option.bind_eq_bind, Option.bind_some]
      refine optionRel_bind (rbRotate_sameOn ((h.setColor hred rfl).setColor hp rfl) hp d)
        fun s₁ s₁' h₁ => ?_
      rw [h₁.child_eq hp]
      exact hblack s₁ s₁' h₁ _ (h₁.child_into parent hp _)
  · exact hblack s s' h sibling hchild

theorem rbEraseColorPass_sameOn {st st' : RbState P × Option P × Option P}
    (h : SamePlace A st st') : Option.Rel (PassRel (SamePlace A) (SameEnd A))
      (rbEraseColorPass st) (rbEraseColorPass st') := by
  obtain ⟨s, node, parent⟩ := st
  obtain ⟨s', node', parent'⟩ := st'
  obtain ⟨h, heq, hnode, hparent⟩ := h
  obtain ⟨rfl, rfl⟩ := Prod.mk.inj heq
  dsimp only at h hnode hparent
  rw [rbEraseColorPass, rbEraseColorPass, h.isBlack_eq hnode, h.root]
  split_ifs
  · cases parent' with
    | none => exact .none
    | some p =>
      have hp : p ∈ A := hparent p rfl
      dsimp only [Option.bind_eq_bind, Option.bind_some]
      rw [h.mem p hp]
      split_ifs
      · exact rbEraseColorSide_sameOn h hp .left
      · exact rbEraseColorSide_sameOn h hp .right
  · exact .some (.done ⟨h, rfl, hnode⟩)

theorem rbEraseColor_sameOn (h : SameOn A s s') {node parent : Option P} (hnode : PointsInto A node)
    (hparent : PointsInto A parent) (fuel : ℕ) :
    Option.Rel (SameOn A) (rbEraseColor fuel s node parent) (rbEraseColor fuel s' node parent) := by
  have hstart : SamePlace A (s, node, parent) (s', node, parent) := ⟨h, rfl, hnode, hparent⟩
  refine optionRel_bind (loop_rel (fun _ _ => rbEraseColorPass_sameOn) fuel hstart) ?_
  rintro ⟨s₁, node₁⟩ ⟨s₁', node₁'⟩ ⟨h₁, heq, hinto⟩
  dsimp only at h₁ heq hinto
  subst heq
  cases node₁' with
  | none => exact .some h₁
  | some n => exact .some (h₁.setColor (hinto n rfl) rfl)

/-! ## The splice of a removal -/

theorem rbReplaceChild_sameOn (h : SameOn A s s') {parent new : Option P}
    (hparent : PointsInto A parent) (hnew : PointsInto A new) (old : P) :
    SameOn A (rbReplaceChild s parent old new) (rbReplaceChild s' parent old new) := by
  cases parent with
  | none => exact h.setRoot hnew rfl
  | some p =>
    have hp : p ∈ A := hparent p rfl
    rw [rbReplaceChild, rbReplaceChild, h.mem p hp]
    split_ifs
    · exact h.setChild hp .left hnew rfl
    · exact h.setChild hp .right hnew rfl

/-- The arguments of the rebalancing correspond, with the same colour. -/
def SameSplice (A : List P) (r r' : RbState P × Option P × Option P × Color) : Prop :=
  SameOn A r.1 r'.1 ∧ r'.2 = r.2 ∧ PointsInto A r.2.1 ∧ PointsInto A r.2.2.1

theorem rbEraseOne_sameOn (h : SameOn A s s') (ha : a ∈ A) {child : Option P}
    (hchild : PointsInto A child) :
    SameSplice A (rbEraseOne s a child) (rbEraseOne s' a child) := by
  have hparent := h.parent_into a ha
  rw [rbEraseOne, rbEraseOne, h.mem a ha]
  exact ⟨rbReplaceChild_sameOn (h.setParent? hchild rfl hparent rfl) hparent hchild a, rfl, hchild,
    hparent⟩

theorem rbSubstitute_sameOn (h : SameOn A s s') {old node : P} (hold : old ∈ A) (hnode : node ∈ A) :
    Option.Rel (SameOn A) (rbSubstitute s old node) (rbSubstitute s' old node) := by
  have h₁ : SameOn A (s.modify node fun _ => s.mem old) (s'.modify node fun _ => s'.mem old) :=
    h.modify hnode (h.mem old hold) (h.parent_into old hold) (h.child_into old hold)
  rw [rbSubstitute, rbSubstitute]
  dsimp only
  generalize s.modify node (fun _ => s.mem old) = s₁ at h₁ ⊢
  generalize s'.modify node (fun _ => s'.mem old) = s₁' at h₁ ⊢
  rw [h₁.parent_eq hold]
  have h₂ := rbReplaceChild_sameOn h₁ (h₁.parent_into old hold) (pointsInto_some hnode) old
  generalize rbReplaceChild s₁ (s₁.mem old).parent old (some node) = s₂ at h₂ ⊢
  generalize rbReplaceChild s₁' (s₁.mem old).parent old (some node) = s₂' at h₂ ⊢
  rw [h₂.mem old hold]
  rcases hleft : (s₂.mem old).left with _ | left
  · exact .none
  have hl : left ∈ A := h₂.child_into old hold .left left hleft
  have h₃ := h₂.setParent hl (pointsInto_some hnode) rfl
  exact .some (h₃.setParent? (h₃.child_into old hold .right)
    (congrArg RbNode.right (h₃.mem old hold)) (pointsInto_some hnode) rfl)

/-! ## The walk -/

omit [DecidableEq P] in
theorem rbLeftmost_sameOn (h : SameOn A s s') (ha : a ∈ A) (fuel : ℕ) :
    Option.Rel (fun r r' => r' = r ∧ r ∈ A) (rbLeftmost fuel s a) (rbLeftmost fuel s' a) := by
  refine loop_rel (R := fun r r' => r' = r ∧ r ∈ A) ?_ fuel ⟨rfl, ha⟩
  rintro b _ ⟨rfl, hb⟩
  rw [rbLeftmostPass, rbLeftmostPass, h.mem _ hb]
  rcases hl : (s.mem _).left with _ | l
  · exact .some (.done ⟨rfl, hb⟩)
  · exact .some (.next ⟨rfl, h.child_into _ hb .left l hl⟩)

theorem rbClimbPass_sameOn (h : SameOn A s s') (ha : a ∈ A) :
    Option.Rel (PassRel (fun r r' => r' = r ∧ r ∈ A) fun r r' => r' = r)
      (rbClimbPass s a) (rbClimbPass s' a) := by
  rw [rbClimbPass, rbClimbPass, h.mem a ha]
  rcases hparent : (s.mem a).parent with _ | p
  · exact .some (.done rfl)
  have hp : p ∈ A := h.parent_into a ha p hparent
  dsimp only
  rw [h.mem p hp]
  split_ifs
  · exact .some (.next ⟨rfl, hp⟩)
  · exact .some (.done rfl)

/-- `rb_next` reads no node out of the tree. -/
theorem rbNext_sameOn (h : SameOn A s s') (ha : a ∈ A) (fuel : ℕ) :
    Option.Rel (fun r r' => r' = r) (rbNext fuel s a) (rbNext fuel s' a) := by
  rw [rbNext, rbNext, h.mem a ha]
  rcases hright : (s.mem a).right with _ | r
  · refine loop_rel (R := fun r r' => r' = r ∧ r ∈ A) ?_ fuel ⟨rfl, ha⟩
    rintro b _ ⟨rfl, hb⟩
    exact rbClimbPass_sameOn h hb
  · refine optionRel_bind (rbLeftmost_sameOn h (h.child_into a ha .right r hright) fuel) ?_
    rintro b _ ⟨rfl, -⟩
    exact .some rfl

/-! ## Removal -/

theorem rbEraseTwo_sameOn (h : SameOn A s s') {old right : P} (hold : old ∈ A) (hright : right ∈ A)
    (fuel : ℕ) : Option.Rel (SameSplice A) (rbEraseTwo fuel s old right)
      (rbEraseTwo fuel s' old right) := by
  rw [rbEraseTwo, rbEraseTwo]
  refine optionRel_bind (rbLeftmost_sameOn h hright fuel) ?_
  intro next next' hnext
  obtain ⟨rfl, hn⟩ := hnext
  rw [h.mem next' hn]
  have hchild : PointsInto A (s.mem next').right := h.child_into next' hn .right
  have hparent := h.parent_into next' hn
  have h₁ := rbReplaceChild_sameOn (h.setParent? hchild rfl hparent rfl) hparent hchild next'
  dsimp only
  generalize rbReplaceChild (s.setParent? (s.mem next').right (s.mem next').parent)
    (s.mem next').parent next' (s.mem next').right = s₁ at h₁ ⊢
  generalize rbReplaceChild (s'.setParent? (s.mem next').right (s.mem next').parent)
    (s.mem next').parent next' (s.mem next').right = s₁' at h₁ ⊢
  rw [h₁.parent_eq hn]
  refine optionRel_bind (rbSubstitute_sameOn h₁ hold hn) fun s₂ s₂' h₂ =>
    .some ⟨h₂, rfl, hchild, ?_⟩
  dsimp only
  split_ifs
  · exact pointsInto_some hn
  · exact hparent

/-- `rb_erase` reads no node out of the tree, and leaves the same tree. -/
theorem rbErase_sameOn (h : SameOn A s s') (ha : a ∈ A) (fuel : ℕ) :
    Option.Rel (SameOn A) (rbErase fuel s a) (rbErase fuel s' a) := by
  have hfix : ∀ r r', SameSplice A r r' → Option.Rel (SameOn A)
      (if r.2.2.2 = .black then rbEraseColor fuel r.1 r.2.1 r.2.2.1 else some r.1)
      (if r'.2.2.2 = .black then rbEraseColor fuel r'.1 r'.2.1 r'.2.2.1 else some r'.1) := by
    rintro ⟨s₁, child, parent, c⟩ ⟨s₁', _⟩ ⟨h₁, rfl, hchild, hparent⟩
    dsimp only at h₁ hchild hparent ⊢
    split_ifs
    · exact rbEraseColor_sameOn h₁ hchild hparent fuel
    · exact .some h₁
  have hleft := h.child_into a ha .left
  have hright := h.child_into a ha .right
  rw [rbErase, rbErase, h.mem a ha]
  rcases hl : (s.mem a).left with _ | l
  · exact optionRel_bind (.some (rbEraseOne_sameOn h ha hright)) hfix
  · rcases hr : (s.mem a).right with _ | r
    · have hl' : PointsInto A (some l) := pointsInto_some (hleft l hl)
      exact optionRel_bind (.some (rbEraseOne_sameOn h ha hl')) hfix
    · exact optionRel_bind (rbEraseTwo_sameOn h ha (hright r hr) fuel) hfix

end Fru1tOs
