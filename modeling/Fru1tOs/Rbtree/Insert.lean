import Fru1tOs.Rbtree.Rotate

/-!
# Insertion

A red leaf is linked in an empty place of a red-black tree, and
`rb_insert_color` rebalances. In the middle of its loop, at the red node it is
at, the tree is red-black except that the parent may be red as well: the path
above accepts a *black* subtree of the same height (`InsertInv`). A pass either
leaves the loop, or moves this node up, with a shorter path.

The result is a red-black tree with the same in-order sequence
(`rbInsertColor_spec`, `rbInsert_spec`).
-/

namespace Fru1tOs

open Lib RBTree RbNode

variable {P : Type*} [DecidableEq P] {s s' : RbState P} {p : TreePath P}

/-- The invariant of `rb_insert_color`, at the node `a` with `k` nodes above it:
    the tree holds `l`, in order, and the memory outside of it is that of `s₀`. -/
def InsertInv (l : List P) (s₀ : RbState P) (k : ℕ) : RbState P × P → Prop
  | (s, a) => ∃ (p : TreePath P) (t : RBTree P) (n : ℕ), p.length = k ∧ t.root = some a ∧
      t.color = .red ∧ Represents s (plug p t) ∧ Fits p .black n ∧ t.Balanced n ∧
      (plug p t).toList = l ∧ Untouched l s₀ s

/-- The outer case: the parent `q` of the node at the root of `N` is painted
    black, the grandparent `g` red, and `g` is rotated away. -/
theorem insert_outer {d : Side} {N S u : RBTree P} {q g : P}
    (h : Represents s (plug p (bin d .black (bin d .red N q S) g u))) :
    ∃ s', rbRotate d.other ((s.setColor q .black).setColor g .red) g = some s' ∧
      Represents s' (plug (⟨d, .black, q, bin d .red S g u⟩ :: p) N) ∧
      Untouched (plug p (bin d .black (bin d .red N q S) g u)).toList s s' := by
  set l := (plug p (bin d .black (bin d .red N q S) g u)).toList with hl
  have hq : Represents (s.setColor q .black)
      (plug (⟨d, .black, g, u⟩ :: p) (bin d .black N q S)) :=
    Represents.setColor (p := ⟨d, .black, g, u⟩ :: p) h .black
  have hg : Represents ((s.setColor q .black).setColor g .red)
      (plug p (bin d .red (bin d .black N q S) g u)) :=
    Represents.setColor (p := p) (d := d) (x := bin d .black N q S) hq .red
  rw [← bin_other, ← bin_other d .black S] at hg
  obtain ⟨s', hs', hr, hu⟩ := rbRotate_spec hg
  refine ⟨s', hs', ?_, ?_⟩
  · rw [plug_cons, Frame.fill_mk]
    rwa [bin_other, bin_other] at hr
  · have hmem : ∀ b, b ∈ l ↔ b ∈ p.elems ∨ (b ∈ N.toList ∨ b = q ∨ b ∈ S.toList) ∨
        b = g ∨ b ∈ u.toList := fun b => by rw [hl, mem_plug, RBTree.mem_bin, RBTree.mem_bin]
    refine ((untouched_setColor ((hmem q).2 (by simp)) s .black).trans
      (untouched_setColor ((hmem g).2 (by simp)) _ .red)).trans fun b hb => hu b ?_
    simp only [hmem, mem_plug, RBTree.mem_bin] at hb ⊢
    tauto

/-- The inner case: the node `a` is rotated up between its parent `q` and its
    grandparent `g`, which gives the outer case at `q`. -/
theorem insert_inner {d : Side} {x y S u : RBTree P} {a q g : P}
    (h : Represents s (plug p (bin d .black (bin d .red S q (bin d .red x a y)) g u))) :
    ∃ s₂ s', rbRotate d s q = some s₂ ∧
      rbRotate d.other ((s₂.setColor a .black).setColor g .red) g = some s' ∧
      Represents s' (plug (⟨d, .black, a, bin d .red y g u⟩ :: p) (bin d .red S q x)) ∧
      Untouched (plug p (bin d .black (bin d .red S q (bin d .red x a y)) g u)).toList s s' := by
  have h₀ : Represents s
      (plug (⟨d, .black, g, u⟩ :: p) (bin d .red S q (bin d .red x a y))) := h
  obtain ⟨s₂, hs₂, hr₂, hu₂⟩ := rbRotate_spec h₀
  have hr₂' : Represents s₂ (plug p (bin d .black (bin d .red (bin d .red S q x) a y) g u)) := hr₂
  obtain ⟨s', hs', hr, hu⟩ := insert_outer hr₂'
  have hlist := toList_plug_congr (⟨d, .black, g, u⟩ :: p)
    (toList_rotate d .red .red S x y q a)
  refine ⟨s₂, s', hs₂, hs', hr, hu₂.trans ?_⟩
  rw [← hlist]
  exact hu

/-- The case of a red uncle `w`: it is painted black as the parent `q`, and the
    grandparent `g` red. -/
theorem insert_redUncle {d d₁ : Side} {N S x y : RBTree P} {q g w : P}
    (h : Represents s (plug p (bin d .black (bin d₁ .red N q S) g (bin d .red x w y)))) :
    Represents (((s.setColor w .black).setColor q .black).setColor g .red)
        (plug p (bin d .red (bin d₁ .black N q S) g (bin d .black x w y))) ∧
      Untouched (plug p (bin d .black (bin d₁ .red N q S) g (bin d .red x w y))).toList s
        (((s.setColor w .black).setColor q .black).setColor g .red) := by
  constructor
  · have h₀ : Represents s
        (plug (⟨d.other, .black, g, bin d₁ .red N q S⟩ :: p) (bin d .red x w y)) := by
      rw [plug_sibling]
      exact h
    have h₁ := h₀.setColor .black
    rw [plug_sibling] at h₁
    have h₂ : Represents ((s.setColor w .black).setColor q .black)
        (plug (⟨d, .black, g, bin d .black x w y⟩ :: p) (bin d₁ .black N q S)) :=
      Represents.setColor (p := ⟨d, .black, g, bin d .black x w y⟩ :: p) h₁ .black
    rw [plug_cons, Frame.fill_mk] at h₂
    exact h₂.setColor .red
  · set l := (plug p (bin d .black (bin d₁ .red N q S) g (bin d .red x w y))).toList with hl
    have hmem : ∀ b, b = g ∨ b = w ∨ b = q → b ∈ l := fun b hb => by
      simp only [hl, mem_plug, RBTree.mem_bin]
      tauto
    exact ((untouched_setColor (hmem w (by simp)) s .black).trans
      (untouched_setColor (hmem q (by simp)) _ .black)).trans
      (untouched_setColor (hmem g (by simp)) _ .red)

/-- A pass with a red parent, which is the child of the black grandparent on the
    side `d`. -/
theorem rbInsertColorSide_spec {l : List P} {s₀ : RbState P} {d d₁ : Side} {t s₁ u : RBTree P}
    {a q g : P} {n : ℕ} (ha : t.root = some a) (hcolor : t.color = .red)
    (h : Represents s (plug (⟨d₁, .red, q, s₁⟩ :: ⟨d, .black, g, u⟩ :: p) t))
    (hfits : Fits (⟨d₁, .red, q, s₁⟩ :: ⟨d, .black, g, u⟩ :: p) .black n) (hbal : t.Balanced n)
    (hl : (plug (⟨d₁, .red, q, s₁⟩ :: ⟨d, .black, g, u⟩ :: p) t).toList = l)
    (hu : Untouched l s₀ s) :
    ∃ s' k, rbInsertColorSide d s a q g = some (.next s') ∧ k < p.length + 2 ∧
      InsertInv l s₀ k s' := by
  obtain ⟨-, hs₁, hs₁n, hun, hpn⟩ := hfits
  have hsub : Represents s (plug (⟨d, .black, g, u⟩ :: p) (bin d₁ .red t q s₁)) := h
  have hg : s.mem g = ofSide d p.parent (some q) u.root .black := by
    simpa using hsub.mem_parent
  have hredu : s.isRed u.root = decide (u.color = .red) :=
    Represents.isRed_root (hsub.path.2.1 : Holds s.mem (some g) u)
  have hq : (s.mem q).child d.other = some a ↔ d.other = d₁ :=
    h.child_parent_iff (f := ⟨d₁, .red, q, s₁⟩) ha d.other
  -- The node and its subtrees, seen from the side `d`.
  obtain ⟨c, x, y, rfl⟩ := RBTree.exists_bin ha d
  obtain rfl : c = .red := by simpa using hcolor
  have hbal' := balanced_red.1 hbal
  subst hl
  by_cases hred : u.color = .red
  · -- Case 1: the grandparent is the red node of the next pass.
    obtain ⟨ux, w, uy, rfl⟩ := exists_bin_of_red hred d
    obtain ⟨hr, hu'⟩ := insert_redUncle hsub
    rw [balanced_red] at hun
    refine ⟨(((s.setColor w .black).setColor q .black).setColor g .red, g), p.length, ?_,
      by omega, p, _, n + 1, rfl, root_bin _ _ _ _ _, color_bin _ _ _ _ _, hr, hpn, ?_, ?_,
      hu.trans hu'⟩
    · have hisRed : s.isRed (some w) = true := by simpa using hredu
      simp [rbInsertColorSide, hg, hisRed]
    · rw [balanced_red, balanced_black, balanced_black, color_bin, color_bin]
      exact ⟨rfl, rfl, ⟨hbal, hs₁n⟩, hun.2.2⟩
    · refine toList_plug_congr p ?_
      cases d <;> cases d₁ <;> simp [bin, Frame.fill]
  have hublack : u.color = .black := Color.eq_black_of_ne hred
  by_cases hinner : d.other = d₁
  · -- Case 2: the node comes up between its parent and its grandparent.
    subst hinner
    rw [bin_other] at hsub
    obtain ⟨s₂, s₃, hs₂, hs₃, hr, hu'⟩ := insert_inner hsub
    refine ⟨(s₃, q), p.length + 1, ?_, by omega, ⟨d, .black, a, bin d .red y g u⟩ :: p, _, n, rfl,
      root_bin _ _ _ _ _, color_bin _ _ _ _ _, hr, ?_, ?_, ?_, ?_⟩
    · simp [rbInsertColorSide, hg, hredu, hred, hq.2 rfl, hs₂, hs₃]
    · exact ⟨balanced_red.2 ⟨hbal'.2.1, hublack, hbal'.2.2.2, hun⟩, hpn⟩
    · exact balanced_red.2 ⟨hs₁, hbal'.1, hs₁n, hbal'.2.2.1⟩
    · refine toList_plug_congr p ?_
      cases d <;> simp [bin, Frame.fill, Side.other]
    · refine hu.trans ?_
      rw [plug_sibling]
      exact hu'
  · -- Case 3: the parent comes up in the place of the grandparent.
    obtain rfl : d₁ = d := by
      have := Side.eq_other_of_ne (Ne.symm hinner)
      simpa using this
    obtain ⟨s₃, hs₃, hr₃, hu₃⟩ := insert_outer hsub
    refine ⟨(s₃, a), p.length + 1, ?_, by omega, ⟨d₁, .black, q, bin d₁ .red s₁ g u⟩ :: p, _, n,
      rfl, root_bin _ _ _ _ _, color_bin _ _ _ _ _, hr₃, ?_, hbal, ?_, hu.trans hu₃⟩
    · simp [rbInsertColorSide, hg, hredu, hred, mt hq.1 hinner, hs₃]
    · exact ⟨balanced_red.2 ⟨hs₁, hublack, hs₁n, hun⟩, hpn⟩
    · refine toList_plug_congr p ?_
      cases d₁ <;> simp [bin, Frame.fill]

/-- A pass leaves the loop, or keeps its invariant with a shorter path. -/
theorem rbInsertColorPass_spec {l : List P} {s₀ : RbState P} (k : ℕ) (sa : RbState P × P)
    (h : InsertInv l s₀ k sa) :
    (∃ s', rbInsertColorPass sa = some (.done s') ∧
      ∃ t, Represents s' t ∧ t.blacken.IsRB ∧ t.toList = l ∧ t ≠ .nil ∧ Untouched l s₀ s') ∨
      ∃ sa' k', rbInsertColorPass sa = some (.next sa') ∧ k' < k ∧ InsertInv l s₀ k' sa' := by
  obtain ⟨s, a⟩ := sa
  obtain ⟨p, t, n, rfl, ha, hcolor, hr, hfits, hbal, hl, hu⟩ := h
  obtain ⟨c, x, y, rfl⟩ := RBTree.exists_bin ha .left
  obtain rfl : c = .red := by simpa using hcolor
  have hmem := hr.mem_bin
  match p, hr, hfits, hl, hmem with
  | [], hr, hfits, hl, hmem =>
    -- The node is the root.
    refine .inl ⟨s, by simp [rbInsertColorPass, hmem], _, hr, ?_, hl, by simp [bin], hu⟩
    rw [plug_nil, blacken_bin]
    exact ⟨color_bin _ _ _ _ _, n + 1, balanced_black.2 (balanced_red.1 hbal).2.2⟩
  | ⟨d, .black, q, w⟩ :: p, hr, hfits, hl, hmem =>
    -- The parent is black: the tree is red-black.
    have hq := hr.mem_parent
    have hrb : (plug (⟨d, .black, q, w⟩ :: p) (bin .left .red x a y)).IsRB :=
      isRB_plug.2 ⟨n, hfits, hbal⟩
    refine .inl ⟨s, by simp [rbInsertColorPass, hmem, RbState.isRed, hq], _, hr, ?_, hl, ?_, hu⟩
    · exact ⟨by cases (plug _ _) <;> rfl, hrb.2.choose_spec.blacken⟩
    · intro e
      have : a ∈ (plug (⟨d, .black, q, w⟩ :: p) (bin .left .red x a y)).toList :=
        mem_plug.2 (.inr (mem_toList_of_root ha))
      rw [e] at this
      simp at this
  | ⟨d₁, .red, q, s₁⟩ :: p, hr, hfits, hl, hmem =>
    obtain ⟨d, g, u, p, rfl, hun, hpn⟩ := hfits.2.2.2.exists_black
    have hq := hr.mem_parent
    have hside : (s.mem g).left = some q ↔ Side.left = d :=
      Represents.child_parent_iff (p := p) (f := ⟨d, .black, g, u⟩)
        (t := bin d₁ .red (bin .left .red x a y) q s₁) hr (root_bin _ _ _ _ _) .left
    obtain ⟨s', k', hs', hk', hinv⟩ := rbInsertColorSide_spec ha hcolor hr hfits hbal hl hu
    refine .inr ⟨s', k', ?_, by simpa only [List.length_cons] using hk', hinv⟩
    rw [← hs']
    cases d with
    | left => simp [rbInsertColorPass, hmem, RbState.isRed, hq, hside.2 rfl]
    | right => simp [rbInsertColorPass, hmem, RbState.isRed, hq, mt hside.1 (by decide)]

/-- `rb_insert_color`: in a red-black tree but for a red leaf `a` at some place,
    it rebalances, keeping the in-order sequence. -/
theorem rbInsertColor_spec (fuel : ℕ) {a : P} (h : Represents s (plug p (node .red nil a nil)))
    (hrb : (plug p nil : RBTree P).IsRB) (hfuel : p.length < fuel) :
    ∃ s' t', rbInsertColor fuel s a = some s' ∧ Represents s' t' ∧ t'.IsRB ∧
      t'.toList = (plug p (node .red nil a nil)).toList ∧
      Untouched (plug p (node .red nil a nil)).toList s s' := by
  set l := (plug p (node .red nil a nil)).toList with hl
  obtain ⟨n, hfits, hn⟩ := isRB_plug.1 hrb
  obtain rfl : n = 0 := balanced_nil.1 hn
  have hinv : InsertInv l s p.length (s, a) :=
    ⟨p, node .red nil a nil, 0, rfl, rfl, rfl, h, hfits, ⟨rfl, rfl, rfl, rfl⟩, rfl,
      Untouched.refl _ _⟩
  obtain ⟨s', hloop, t, hr, hbl, ht, hne, hu⟩ := loop_of_variant rbInsertColorPass_spec hinv hfuel
  obtain ⟨c, x, r, y, rfl⟩ : ∃ c x r y, t = bin .left c x r y :=
    (nil_or_bin t .left).resolve_left hne
  refine ⟨s'.setColor r .black, (bin .left c x r y).blacken, ?_, ?_, hbl, ?_, ?_⟩
  · have hroot : s'.root = some r := by rw [hr.root, root_bin]
    simp [rbInsertColor, hloop, hroot]
  · exact Represents.setColor (p := []) hr .black
  · rw [toList_blacken, ht]
  · exact hu.trans (untouched_setColor (by rw [← ht]; simp [RBTree.mem_bin]) s' .black)

/-! ## Linking -/

/-- The place below the node above a focus. -/
def TreePath.side : TreePath P → Side
  | [] => .left
  | f :: _ => f.side

/-- Linking a node in an empty place. -/
theorem rbLink_spec {a : P} (h : Represents s (plug p nil)) (ha : a ∉ (plug p nil).toList) :
    Represents (rbLink s a p.parent (TreePath.side p)) (plug p (node .red nil a nil)) ∧
      Untouched (plug p (node .red nil a nil)).toList s
        (rbLink s a p.parent (TreePath.side p)) := by
  have hnp : a ∉ p.elems := fun hp => ha (mem_plug.2 (.inl hp))
  have hpar : ∀ f q, p = f :: q → f.key ≠ a := by
    rintro f q rfl rfl
    exact hnp (TreePath.mem_elems_of_parent rfl)
  have hmem : ∀ b, b ≠ a → p.parent ≠ some b →
      (rbLink s a p.parent (TreePath.side p)).mem b = s.mem b := by
    intro b hb hp
    cases p with
    | nil => simp [rbLink, modify_mem_ne _ _ hb]
    | cons f p =>
      have hf : b ≠ f.key := fun e => hp (by rw [e]; rfl)
      exact (setChild_mem_ne _ _ _ hf).trans (modify_mem_ne s _ hb)
  constructor
  · refine h.replace ?_ ?_ ?_ ?_ ?_
    · cases p <;> rfl
    · rintro f q rfl
      simp only [rbLink, TreePath.parent_cons, TreePath.side, setChild_mem_same]
      rw [modify_mem_ne _ _ (hpar f q rfl)]
      rfl
    · exact fun b hb hp => hmem b (fun e => hnp (e ▸ hb)) hp
    · refine ⟨?_, trivial, trivial⟩
      cases p with
      | nil => simp [rbLink]
      | cons f p =>
        simp only [rbLink, TreePath.parent_cons, TreePath.side]
        rw [setChild_mem_ne _ _ _ (hpar f p rfl).symm, modify_mem_same]
        rfl
    · exact nodup_plug.2 ⟨(nodup_plug.1 h.nodup).1, by simp, by simpa using hnp⟩
  · intro b hb
    rw [mem_plug, not_or] at hb
    exact hmem b (fun e => hb.2 (by simp [e])) fun hp => hb.1 (TreePath.mem_elems_of_parent hp)

/-- Linking a node in an empty place, and rebalancing: the node is inserted there,
    in order. There are no more passes than the tree is high, and one. -/
theorem rbInsert_of_height (fuel : ℕ) {a : P} (h : Represents s (plug p nil))
    (hrb : (plug p nil : RBTree P).IsRB) (ha : a ∉ (plug p nil).toList)
    (hfuel : (plug p nil : RBTree P).height < fuel) :
    ∃ s' t', rbInsertColor fuel (rbLink s a p.parent (TreePath.side p)) a = some s' ∧
      Represents s' t' ∧ t'.IsRB ∧ t'.toList = p.before ++ a :: p.after ∧
      Untouched (p.before ++ a :: p.after) s s' := by
  have hlist : (plug p (node .red nil a nil)).toList = p.before ++ a :: p.after := by
    rw [toList_plug]
    simp
  obtain ⟨hr, hu⟩ := rbLink_spec h ha
  have hlen := length_add_height_le p (nil : RBTree P)
  obtain ⟨s', t', hs', hr', hrb', hl', hu'⟩ := rbInsertColor_spec fuel hr hrb (by omega)
  rw [hlist] at hu hl' hu'
  exact ⟨s', t', hs', hr', hrb', hl', hu.trans hu'⟩

theorem rbInsert_spec (fuel : ℕ) {a : P} (h : Represents s (plug p nil))
    (hrb : (plug p nil : RBTree P).IsRB) (ha : a ∉ (plug p nil).toList)
    (hfuel : (plug p nil).toList.length < fuel) :
    ∃ s' t', rbInsertColor fuel (rbLink s a p.parent (TreePath.side p)) a = some s' ∧
      Represents s' t' ∧ t'.IsRB ∧ t'.toList = p.before ++ a :: p.after ∧
      Untouched (p.before ++ a :: p.after) s s' :=
  rbInsert_of_height fuel h hrb ha ((height_le_length _).trans_lt hfuel)

end Fru1tOs
