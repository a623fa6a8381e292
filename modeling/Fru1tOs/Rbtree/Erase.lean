import Fru1tOs.Rbtree.EraseColor
import Fru1tOs.Rbtree.Walk

/-!
# Removal

`rb_erase` splices a node out, and rebalances if the node spliced out was black.
A node with at most one child is replaced by it (`rbEraseOne_spec`). A node with
two children is replaced by its successor, which is first spliced out of the
right subtree, where it has no left child, and then put in the place of the node
(`rbEraseTwo_spec`).

The result is a red-black tree, whose in-order sequence is the old one without
the node (`rbErase_spec`).
-/

namespace Fru1tOs

open Lib RBTree RbNode

variable {P : Type*}

/-- What a path accepts does not depend on its elements. -/
theorem fits_congr_key {q p : TreePath P} {d : Side} {c : Color} {l : RBTree P} (a b : P)
    {c' : Color} {n : ℕ} (h : Fits (q ++ ⟨d, c, a, l⟩ :: p) c' n) :
    Fits (q ++ ⟨d, c, b, l⟩ :: p) c' n := by
  induction q generalizing c' n with
  | nil =>
    rw [List.nil_append] at h ⊢
    cases c
    · exact h
    · exact h
  | cons f q ih =>
    obtain ⟨e, cf, k, s⟩ := f
    rw [List.cons_append] at h ⊢
    cases cf with
    | red => exact ⟨h.1, h.2.1, h.2.2.1, ih h.2.2.2⟩
    | black => exact ⟨h.1, ih h.2⟩

variable [DecidableEq P] {s s' : RbState P} {p : TreePath P} {t : RBTree P}

/-! ## One child -/

/-- The splice of a node with at most one child `x`. -/
theorem rbEraseOne_spec {c : Color} {l r x : RBTree P} {a : P}
    (h : Represents s (plug p (node c l a r))) (hx : (l = nil ∧ x = r) ∨ (r = nil ∧ x = l)) :
    ∃ s', rbEraseOne s a x.root = (s', x.root, p.parent, c) ∧ Represents s' (plug p x) ∧
      Untouched (plug p x).toList s s' := by
  have ha : s.mem a = ⟨p.parent, l.root, r.root, c⟩ := h.subtree.1
  have hxlist : ∀ b, b ∈ x.toList → b ∈ (node c l a r).toList := by
    rcases hx with ⟨rfl, rfl⟩ | ⟨rfl, rfl⟩ <;> intro b hb <;> simp [hb]
  have hxmem : Holds s.mem (some a) x := by
    rcases hx with ⟨-, rfl⟩ | ⟨-, rfl⟩
    exacts [h.subtree.2.2, h.subtree.2.1]
  have hxnodup : x.toList.Nodup := by
    have hnd := nodup_of_plug h.nodup
    rw [show (node c l a r : RBTree P) = bin .left c l a r from rfl, nodup_bin] at hnd
    rcases hx with ⟨-, rfl⟩ | ⟨-, rfl⟩
    exacts [hnd.2.1, hnd.1]
  set s₁ := s.setParent? x.root p.parent with hs₁
  set s₂ := redirect .left s₁ p.parent a x.root with hs₂
  have hroot_x : ∀ e, x.root = some e → e ∈ x.toList := fun e he => mem_toList_of_root he
  have hpar_x : ∀ e, p.parent = some e → e ∉ x.toList := fun e he hx =>
    h.parent_not_mem he (hxlist e hx)
  have hrest : ∀ e, e ∉ x.toList → p.parent ≠ some e → s₂.mem e = s.mem e := by
    intro e hex hep
    rw [hs₂, redirect_mem_ne hep, hs₁, setParent?_mem_of_ne fun e' => hex (hroot_x e e')]
  refine ⟨s₂, ?_, ?_, ?_⟩
  · rw [rbEraseOne, ha]
    rfl
  · refine h.replace ?_ ?_ ?_ ?_ ?_
    · rw [hs₂, redirect_root]
      cases p with
      | nil => simp
      | cons f p => simp [hs₁]
    · rintro f q rfl
      have hf₁ : s₁.mem f.key = s.mem f.key :=
        setParent?_mem_of_ne fun e => hpar_x f.key rfl (hroot_x _ e)
      rw [hs₂, TreePath.parent_cons, redirect_cons h (root_node _ _ _ _) hf₁, setChild_mem_same,
        hf₁]
    · exact fun e he hep => hrest e (fun hex => h.not_mem_path (hxlist e hex) he) hep
    · refine (hxmem.setParent? hxnodup (v := p.parent)).congr fun e he => ?_
      rw [hs₂, redirect_mem_ne fun hep => hpar_x e hep he]
    · have hnd := nodup_plug.1 h.nodup
      exact nodup_plug.2 ⟨hnd.1, hxnodup, fun e he => hnd.2.2 e (hxlist e he)⟩
  · intro e he
    rw [mem_plug, not_or] at he
    exact hrest e he.2 fun hp => he.1 (TreePath.mem_elems_of_parent hp)

/-! ## Two children -/

/-- A node `b` which is not in the tree takes the place of `a`. -/
theorem rbSubstitute_spec {c : Color} {l r : RBTree P} {a b e : P}
    (h : Represents s (plug p (node c l a r))) (hb : b ∉ (plug p (node c l a r)).toList)
    (hl : l.root = some e) :
    ∃ s', rbSubstitute s a b = some s' ∧ Represents s' (plug p (node c l b r)) ∧
      Untouched (b :: (plug p (node c l a r)).toList) s s' := by
  have hab : a ≠ b := by
    rintro rfl
    exact hb (mem_plug.2 (.inr (by simp)))
  rw [mem_plug, not_or] at hb
  obtain ⟨hbp, hbt⟩ := hb
  simp only [toList_node, List.mem_append, List.mem_cons, not_or] at hbt
  obtain ⟨hbl, -, hbr⟩ := hbt
  have ha : s.mem a = ⟨p.parent, l.root, r.root, c⟩ := h.subtree.1
  have hnd := nodup_of_plug h.nodup
  rw [show (node c l a r : RBTree P) = bin .left c l a r from rfl, nodup_bin] at hnd
  obtain ⟨hndl, hndr, hal, har, hlr⟩ := hnd
  have hpar : ∀ q, p.parent = some q → q ≠ a ∧ q ≠ b ∧ q ∉ l.toList ∧ q ∉ r.toList := by
    intro q hq
    have hq' := h.parent_not_mem hq
    simp only [toList_node, List.mem_append, List.mem_cons, not_or] at hq'
    refine ⟨hq'.2.1, ?_, hq'.1, hq'.2.2⟩
    rintro rfl
    exact hbp (TreePath.mem_elems_of_parent hq)
  set s₁ := s.modify b (fun _ => s.mem a) with hs₁
  have ha₁ : s₁.mem a = s.mem a := modify_mem_ne _ _ hab
  set s₂ := redirect .left s₁ p.parent a (some b) with hs₂
  have hpa : p.parent ≠ some a := fun e' => (hpar a e').1 rfl
  have hpb : p.parent ≠ some b := fun e' => (hpar b e').2.1 rfl
  have ha₂ : s₂.mem a = s.mem a := by rw [hs₂, redirect_mem_ne hpa, ha₁]
  have hel : e ∈ l.toList := mem_toList_of_root hl
  have hae : a ≠ e := fun e' => hal (e' ▸ hel)
  have hbe : b ≠ e := fun e' => hbl (e' ▸ hel)
  have hrootr : ∀ x, r.root = some x → x ∈ r.toList := fun x hx => mem_toList_of_root hx
  set s₃ := s₂.setParent e (some b) with hs₃
  set s₄ := s₃.setParent? r.root (some b) with hs₄
  have ha₃ : s₃.mem a = s.mem a := by rw [hs₃, setParent_mem_ne _ _ hae, ha₂]
  have hrest : ∀ x, x ≠ b → x ≠ e → r.root ≠ some x → p.parent ≠ some x → s₄.mem x = s.mem x := by
    intro x hxb hxe hxr hxp
    rw [hs₄, setParent?_mem_of_ne hxr, hs₃, setParent_mem_ne _ _ hxe, hs₂, redirect_mem_ne hxp,
      hs₁, modify_mem_ne _ _ hxb]
  have hmb : s₄.mem b = ⟨p.parent, l.root, r.root, c⟩ := by
    rw [hs₄, setParent?_mem_of_ne fun e' => hbr (hrootr b e'), hs₃, setParent_mem_ne _ _ hbe, hs₂,
      redirect_mem_ne hpb, hs₁, modify_mem_same, ha]
  have hml : Holds s₄.mem (some b) l := by
    have h₂ : Holds s₂.mem (some a) l := h.subtree.2.1.congr fun x hx => by
      have hxb : x ≠ b := fun e' => hbl (e' ▸ hx)
      rw [hs₂, redirect_mem_ne fun e' => (hpar x e').2.2.1 hx, hs₁, modify_mem_ne _ _ hxb]
    have h₃ := h₂.setParent? (v := some b) hndl
    rw [hl] at h₃
    refine h₃.congr fun x hx => ?_
    rw [hs₄, setParent?_mem_of_ne fun e' => hlr x hx (hrootr x e')]
    rfl
  have hmr : Holds s₄.mem (some b) r := by
    have h₃ : Holds s₃.mem (some a) r := h.subtree.2.2.congr fun x hx => by
      have hxb : x ≠ b := fun e' => hbr (e' ▸ hx)
      have hxe : x ≠ e := fun e' => hlr e hel (e' ▸ hx)
      rw [hs₃, setParent_mem_ne _ _ hxe, hs₂, redirect_mem_ne fun e' => (hpar x e').2.2.2 hx, hs₁,
        modify_mem_ne _ _ hxb]
    exact h₃.setParent? hndr
  have hnodup : (plug p (node c l b r)).toList.Nodup := by
    have hnd := nodup_plug.1 h.nodup
    have hnode : (bin .left c l b r).toList.Nodup := nodup_bin.2 ⟨hndl, hndr, hbl, hbr, hlr⟩
    refine nodup_plug.2 ⟨hnd.1, hnode, fun x hx => ?_⟩
    simp only [toList_node, List.mem_append, List.mem_cons] at hx hnd
    rcases hx with hx | rfl | hx
    exacts [hnd.2.2 x (.inl hx), hbp, hnd.2.2 x (.inr (.inr hx))]
  refine ⟨s₄, ?_, ?_, ?_⟩
  · have hleft : (s₂.mem a).left = some e := by rw [ha₂, ha, hl]
    have hright : (s₃.mem a).right = r.root := by rw [ha₃, ha]
    rw [rbSubstitute, ← hs₁, ha₁, ha, rbReplaceChild_eq, ← hs₂]
    simp only [hleft, Option.bind_eq_bind, Option.bind_some, ← hs₃, hright]
    rfl
  · refine h.replace ?_ ?_ ?_ ⟨hmb, hml, hmr⟩ hnodup
    · rw [hs₄, setParent?_root, hs₃, setParent_root, hs₂, redirect_root]
      cases p with
      | nil => simp
      | cons f p => simp [hs₁]
    · rintro f q rfl
      obtain ⟨hfa, hfb, hfl, hfr⟩ := hpar f.key rfl
      have hfe : f.key ≠ e := fun e' => hfl (e' ▸ hel)
      have hf₁ : s₁.mem f.key = s.mem f.key := modify_mem_ne _ _ hfb
      rw [hs₄, setParent?_mem_of_ne fun e' => hfr (hrootr _ e'), hs₃, setParent_mem_ne _ _ hfe, hs₂,
        TreePath.parent_cons, redirect_cons h (root_node _ _ _ _) hf₁, setChild_mem_same, hf₁]
      rfl
    · intro x hx hxp
      have hxt : x ∉ (node c l a r).toList := fun hx' => h.not_mem_path hx' hx
      simp only [toList_node, List.mem_append, List.mem_cons, not_or] at hxt
      exact hrest x (fun e' => hbp (e' ▸ hx)) (fun e' => hxt.1 (e' ▸ hel))
        (fun e' => hxt.2.2 (hrootr x e')) hxp
  · intro x hx
    rw [List.mem_cons, not_or, mem_plug, not_or] at hx
    obtain ⟨hxb, hxp, hxt⟩ := hx
    simp only [toList_node, List.mem_append, List.mem_cons, not_or] at hxt
    exact hrest x hxb (fun e' => hxt.1 (e' ▸ hel)) (fun e' => hxt.2.2 (hrootr x e'))
      fun hp => hxp (TreePath.mem_elems_of_parent hp)

/-- The splice of a node with two children: its successor `b`, found in the right
    subtree `r` below frames that are all on the left, takes its place, and the
    right subtree `x` of the successor is left at the place of the latter. -/
theorem rbEraseTwo_spec {fuel : ℕ} {c : Color} {l r : RBTree P} {a e e' : P}
    (h : Represents s (plug p (node c l a r))) (hl : l.root = some e) (hr : r.root = some e')
    (hfuel : r.height ≤ fuel) :
    ∃ s' q c' b x, r = plug q (node c' nil b x) ∧ q.before = [] ∧
      rbEraseTwo fuel s a e' =
        some (s', x.root, TreePath.parent (q ++ ⟨.right, c, b, l⟩ :: p), c') ∧
      Represents s' (plug (q ++ ⟨.right, c, b, l⟩ :: p) x) ∧
      Untouched (plug p (node c l a r)).toList s s' := by
  -- The successor, and the whole tree seen from it.
  obtain ⟨q, c', b, x, hb, hq, hside⟩ : ∃ q c' b x, rbLeftmost fuel s e' = some b ∧
      plug q (node c' nil b x) = r ∧ ∀ f ∈ q, f.side = .left := by
    cases r with
    | nil => simp at hr
    | node cr lr ar rr =>
      obtain rfl : ar = e' := by simpa using hr
      exact rbLeftmost_spec _ h.subtree.2.2 hfuel
  subst hq
  have hsucc : Represents s (plug (q ++ ⟨.right, c, a, l⟩ :: p) (node c' nil b x)) := by
    rw [plug_append]
    exact h
  have hmemb : s.mem b = ⟨TreePath.parent (q ++ ⟨.right, c, a, l⟩ :: p), none, x.root, c'⟩ :=
    hsucc.subtree.1
  -- It is spliced out, as a node without a left child.
  obtain ⟨s₁, hs₁, hr₁, hu₁⟩ := rbEraseOne_spec hsucc (.inl ⟨rfl, rfl⟩)
  have hold : Represents s₁ (plug p (node c l a (plug q x))) := by
    rw [plug_append] at hr₁
    exact hr₁
  have hbnot : b ∉ (plug p (node c l a (plug q x))).toList := by
    have hnd := hsucc.nodup
    have heq : (plug p (node c l a (plug q x))).toList =
        (plug (q ++ ⟨.right, c, a, l⟩ :: p) x).toList := by rw [plug_append]; rfl
    rw [heq, mem_plug, not_or]
    have hb := hsucc.not_mem_path (b := b) (by simp)
    have hndx := nodup_of_plug hnd
    simp only [toList_node, toList_nil, List.nil_append, List.nodup_cons] at hndx
    exact ⟨hb, hndx.1⟩
  have hb₁ : s₁.mem b = s.mem b := by
    refine hu₁ b ?_
    rw [plug_append]
    exact hbnot
  -- It is put in the place of the node.
  obtain ⟨s₂, hs₂, hr₂, hu₂⟩ := rbSubstitute_spec hold hbnot hl
  have hparent : (if (s₁.mem b).parent = some a then some b
      else TreePath.parent (q ++ ⟨.right, c, a, l⟩ :: p)) =
      TreePath.parent (q ++ ⟨.right, c, b, l⟩ :: p) := by
    rw [hb₁, hmemb]
    cases q with
    | nil => simp
    | cons f q =>
      have hne : f.key ≠ a := by
        rintro rfl
        have hnd := nodup_of_plug h.nodup
        rw [show (node c l f.key (plug (f :: q) (node c' nil b x)) : RBTree P) =
          bin .left c l f.key (plug (f :: q) (node c' nil b x)) from rfl, nodup_bin] at hnd
        exact hnd.2.2.2.1 (mem_plug.2 (.inl (TreePath.mem_elems_of_parent rfl)))
      simp [hne]
  refine ⟨s₂, q, c', b, x, rfl, before_eq_nil hside, ?_, ?_, ?_⟩
  · have h₁ : s₁ = rbReplaceChild (s.setParent? x.root (s.mem b).parent) (s.mem b).parent b
        x.root := by
      rw [rbEraseOne] at hs₁
      exact (congrArg Prod.fst hs₁).symm
    simp only [rbEraseTwo, hb, Option.bind_eq_bind, Option.bind_some]
    rw [hmemb] at h₁ ⊢
    simp only [← h₁, hs₂, Option.bind_some, hparent]
    rfl
  · rw [plug_append]
    exact hr₂
  · have hsub₁ : ∀ y ∈ (plug (q ++ ⟨.right, c, a, l⟩ :: p) x).toList,
        y ∈ (plug p (node c l a (plug q (node c' nil b x)))).toList := by
      intro y hy
      rw [plug_append] at hy
      change y ∈ (plug p (node c l a (plug q x))).toList at hy
      simp only [mem_plug, toList_node, toList_nil, List.mem_append, List.mem_cons,
        List.nil_append] at hy ⊢
      tauto
    refine (hu₁.mono hsub₁).trans (hu₂.mono fun y hy => ?_)
    simp only [mem_plug, toList_node, toList_nil, List.mem_append, List.mem_cons,
      List.nil_append] at hy ⊢
    tauto

/-! ## Removal -/

/-- The only child `x` of a node of colour `c` and black height `n`. -/
def OnlyChild (c : Color) (x : RBTree P) (n : ℕ) : Prop :=
  match c with
  | .red => x.color = .black ∧ x.Balanced n
  | .black => ∃ k, n = k + 1 ∧ x.Balanced k

omit [DecidableEq P] in
theorem onlyChild_right {c : Color} {l x : RBTree P} {a : P} {n : ℕ}
    (h : (node c l a x).Balanced n) : OnlyChild c x n := by
  cases c with
  | red => exact ⟨h.2.1, h.2.2.2⟩
  | black => exact ⟨h.choose, h.choose_spec.1, h.choose_spec.2.2⟩

omit [DecidableEq P] in
theorem onlyChild_left {c : Color} {r x : RBTree P} {a : P} {n : ℕ}
    (h : (node c x a r).Balanced n) : OnlyChild c x n := by
  cases c with
  | red => exact ⟨h.1, h.2.2.1⟩
  | black => exact ⟨h.choose, h.choose_spec.1, h.choose_spec.2.1⟩

omit [DecidableEq P] in
/-- A balanced subtree is one black node short of the next height. -/
theorem short_of_balanced {x : RBTree P} {n : ℕ} (h : x.Balanced n) : Short x n := by
  cases hc : x.color with
  | black => exact .inl ⟨hc, h⟩
  | red =>
    obtain ⟨x₁, y, x₂, rfl⟩ := exists_bin_of_red hc .left
    refine .inr ⟨hc, ?_⟩
    rw [blacken_bin, balanced_black]
    exact (balanced_red.1 h).2.2

/-- The end of `rb_erase`: a node of colour `c` has been spliced out at a place
    where its only child `x` is left, and the tree is rebalanced if it was black. -/
theorem erase_finish (fuel : ℕ) {n : ℕ} {c : Color} {x : RBTree P} (h : Represents s (plug p x))
    (hfits : Fits p c n) (hx : OnlyChild c x n) (hfuel : p.length + 1 < fuel) :
    ∃ s', (if c = .black then rbEraseColor fuel s x.root p.parent else some s) = some s' ∧
      Rebalanced (plug p x).toList s s' := by
  cases c with
  | red =>
    refine ⟨s, by simp, _, h, ?_, rfl, Untouched.refl _ _⟩
    exact isRB_plug.2 ⟨n, hx.1 ▸ hfits.black, hx.2⟩
  | black =>
    obtain ⟨k, rfl, hk⟩ := hx
    obtain ⟨s', hs', hreb⟩ := rbEraseColor_spec h hfits (short_of_balanced hk) hfuel
    exact ⟨s', by simpa using hs', hreb⟩

omit [DecidableEq P] in
/-- A focus splits the in-order sequence at its root. -/
theorem toList_plug_node (p : TreePath P) (c : Color) (l r : RBTree P) (a : P) :
    (plug p (node c l a r)).toList = (p.before ++ l.toList) ++ a :: (r.toList ++ p.after) := by
  rw [toList_plug, toList_node]
  simp

/-- The in-order sequence without the root of a focus. -/
theorem toList_erase {c : Color} {l r : RBTree P} {a : P}
    (h : (plug p (node c l a r)).toList.Nodup) :
    (plug p (node c l a r)).toList.erase a = (p.before ++ l.toList) ++ (r.toList ++ p.after) := by
  rw [toList_plug_node] at h ⊢
  have hnot : a ∉ p.before ++ l.toList := by
    rw [List.nodup_middle, List.nodup_cons] at h
    exact fun hmem => h.1 (List.mem_append_left _ hmem)
  rw [List.erase_append_right _ hnot, List.erase_cons_head]

/-- `rb_erase` at a focus, once the splice is known. -/
theorem rbErase_of_splice {fuel n : ℕ} {l : List P} {a : P} {c : Color} {x : RBTree P}
    {s₁ : RbState P} {e : Option (RbState P × Option P × Option P × Color)}
    (he : e = some (s₁, x.root, p.parent, c))
    (hs : rbErase fuel s a = e.bind fun (s, child, parent, c) =>
      if c = .black then rbEraseColor fuel s child parent else some s)
    (h : Represents s₁ (plug p x)) (hfits : Fits p c n) (hx : OnlyChild c x n)
    (hl : (plug p x).toList = l.erase a) (hu : Untouched l s s₁)
    (hfuel : p.length + 1 < fuel) :
    ∃ s' t', rbErase fuel s a = some s' ∧ Represents s' t' ∧ t'.IsRB ∧ t'.toList = l.erase a ∧
      Untouched l s s' := by
  obtain ⟨s', hs', t', hr', hrb', hl', hu'⟩ := erase_finish fuel h hfits hx hfuel
  refine ⟨s', t', ?_, hr', hrb', hl'.trans hl, hu.trans (hu'.mono fun b hb => ?_)⟩
  · rw [hs, he, Option.bind_some]
    exact hs'
  · rw [hl] at hb
    exact List.mem_of_mem_erase hb

/-- `rb_erase`: on a red-black tree, it removes the node, and the tree is
    red-black again. Its loops make no more passes than the tree is high, and one. -/
theorem rbErase_of_height (fuel : ℕ) {a : P} (h : Represents s t) (hrb : t.IsRB)
    (ha : a ∈ t.toList) (hfuel : t.height < fuel) :
    ∃ s' t', rbErase fuel s a = some s' ∧ Represents s' t' ∧ t'.IsRB ∧
      t'.toList = t.toList.erase a ∧ Untouched t.toList s s' := by
  obtain ⟨p, c, l, r, rfl⟩ := exists_plug_of_mem ha
  have hmema : s.mem a = ⟨p.parent, l.root, r.root, c⟩ := h.subtree.1
  obtain ⟨n, hfits, hbal⟩ := isRB_plug.1 hrb
  have hlen := length_add_height_le p (node c l a r)
  rw [height] at hlen
  -- A node with at most one child `x`, which is left at its place.
  have hone : ∀ x : RBTree P, (l = nil ∧ x = r) ∨ (r = nil ∧ x = l) →
      (rbErase fuel s a = (some (rbEraseOne s a x.root)).bind fun (s, child, parent, c) =>
        if c = .black then rbEraseColor fuel s child parent else some s) →
      ∃ s' t', rbErase fuel s a = some s' ∧ Represents s' t' ∧ t'.IsRB ∧
        t'.toList = (plug p (node c l a r)).toList.erase a ∧
        Untouched (plug p (node c l a r)).toList s s' := by
    intro x hx hs
    obtain ⟨s₁, hs₁, hr₁, hu₁⟩ := rbEraseOne_spec h hx
    have hl₁ : (plug p x).toList = (plug p (node c l a r)).toList.erase a := by
      rw [toList_erase h.nodup, toList_plug]
      rcases hx with ⟨rfl, rfl⟩ | ⟨rfl, rfl⟩ <;> simp
    refine rbErase_of_splice (congrArg some hs₁) hs hr₁ hfits ?_ hl₁ (hu₁.mono fun b hb => ?_)
      (by omega)
    · rcases hx with ⟨-, rfl⟩ | ⟨-, rfl⟩
      exacts [onlyChild_right hbal, onlyChild_left hbal]
    · rw [hl₁] at hb
      exact List.mem_of_mem_erase hb
  rcases hl : l.root with _ | e
  · refine hone r (.inl ⟨eq_nil_of_root hl, rfl⟩) ?_
    rw [rbErase, hmema, hl]
    rfl
  rcases hr : r.root with _ | e'
  · refine hone l (.inr ⟨eq_nil_of_root hr, rfl⟩) ?_
    rw [rbErase, hmema, hl, hr]
    rfl
  -- A node with two children: the place is that of its successor.
  obtain ⟨s₁, q, c', b, x, rfl, hq, hs₁, hr₁, hu₁⟩ := rbEraseTwo_spec h hl hr (by omega : _ ≤ fuel)
  have hrb' : (plug (q ++ ⟨.right, c, a, l⟩ :: p) (node c' nil b x)).IsRB := by
    rw [plug_append]
    exact hrb
  obtain ⟨m, hfits', hbal'⟩ := isRB_plug.1 hrb'
  have hl₁ : (plug (q ++ ⟨.right, c, b, l⟩ :: p) x).toList =
      (plug p (node c l a (plug q (node c' nil b x)))).toList.erase a := by
    rw [toList_erase h.nodup, plug_append]
    change (plug p (node c l b (plug q x))).toList = _
    rw [toList_plug_node, toList_plug q, toList_plug q, hq]
    simp
  have hlen' := length_add_height_le (q ++ ⟨.right, c, a, l⟩ :: p) (node c' nil b x)
  rw [plug_append, height, List.length_append, List.length_cons] at hlen'
  change _ ≤ (plug p (node c l a (plug q (node c' nil b x)))).height at hlen'
  refine rbErase_of_splice hs₁ ?_ hr₁ (fits_congr_key a b hfits') (onlyChild_right hbal') hl₁ hu₁
    (by rw [List.length_append, List.length_cons]; omega)
  rw [rbErase, hmema, hl, hr]
  rfl

theorem rbErase_spec (fuel : ℕ) {a : P} (h : Represents s t) (hrb : t.IsRB) (ha : a ∈ t.toList)
    (hfuel : t.toList.length < fuel) :
    ∃ s' t', rbErase fuel s a = some s' ∧ Represents s' t' ∧ t'.IsRB ∧
      t'.toList = t.toList.erase a ∧ Untouched t.toList s s' :=
  rbErase_of_height fuel h hrb ha (t.height_le_length.trans_lt hfuel)

end Fru1tOs
