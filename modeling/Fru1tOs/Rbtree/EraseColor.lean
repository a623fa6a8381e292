import Fru1tOs.Rbtree.Rotate

/-!
# Rebalancing after a removal

When a black node has been spliced out, the subtree at its place is one black
node short: the path above expects a black subtree of height `n + 1`, and the
subtree has height `n` (`Short`). `rb_erase_color` moves this place up until it
can be paid for by a red node, or is the root. A red node at the place pays for
it by being painted black, after the loop.

The sibling of the place always exists, since its height is positive: the loop
does not follow a null pointer.
-/

namespace Fru1tOs

open Lib RBTree RbNode

variable {P : Type*}

/-- A subtree one black node short of the height `n + 1`: painted black if it is
    red, it has it. -/
def Short (t : RBTree P) (n : ℕ) : Prop :=
  (t.color = .black ∧ t.Balanced n) ∨ (t.color = .red ∧ t.blacken.Balanced (n + 1))

variable [DecidableEq P] {s s' : RbState P} {p : TreePath P} {t : RBTree P}

/-- Painting a node, if it is not null: what `rb_erase_color` does after its loop. -/
def paintBlack (s : RbState P) : Option P → RbState P
  | none => s
  | some a => s.setColor a .black

/-- The outcome of the rebalancing: a red-black tree, with the in-order sequence
    `l`, in a memory which is that of `s₀` outside of it. -/
def Rebalanced (l : List P) (s₀ s : RbState P) : Prop :=
  ∃ t, Represents s t ∧ t.IsRB ∧ t.toList = l ∧ Untouched l s₀ s

/-- The invariant of `rb_erase_color`: the place, with its subtree. The variant
    `k` is the length of the path, or `0` when the loop is about to be left. -/
def EraseInv (l : List P) (s₀ : RbState P) (k : ℕ) :
    RbState P × Option P × Option P → Prop
  | (s, a, parent) => ∃ (p : TreePath P) (t : RBTree P) (n : ℕ),
      k = (if t.color = .red then 0 else p.length + 1) ∧ t.root = a ∧ p.parent = parent ∧
      Represents s (plug p t) ∧ Fits p .black (n + 1) ∧ Short t n ∧
      (plug p t).toList = l ∧ Untouched l s₀ s

/-- Painting the root of the subtree at a focus. -/
theorem Represents.paintBlack_root (h : Represents s (plug p t)) :
    Represents (paintBlack s t.root) (plug p t.blacken) := by
  cases t with
  | nil => exact h
  | node c l a r => exact Represents.setColor (d := .left) h .black

theorem untouched_paintBlack {l : List P} {a : Option P} (ha : ∀ b, a = some b → b ∈ l)
    (s : RbState P) : Untouched l s (paintBlack s a) := by
  cases a with
  | none => exact Untouched.refl l s
  | some a => exact untouched_setColor (ha a rfl) s .black

omit [DecidableEq P] in
/-- The focus is at the root only if nothing is above it. -/
theorem Represents.root_eq_iff (h : Represents s (plug p t)) : t.root = s.root ↔ p = [] := by
  rw [h.root]
  constructor
  · intro e
    by_contra hp
    rw [root_plug p nil t, if_neg hp] at e
    rcases ht : t.root with _ | a
    · -- An empty subtree is below a node, which is the root of the whole or under it.
      rw [ht] at e
      have hnil := eq_nil_of_root e.symm
      cases p with
      | nil => exact hp rfl
      | cons f p =>
        have : f.key ∈ (plug (f :: p) nil).toList :=
          mem_plug.2 (.inl (TreePath.mem_elems_of_parent rfl))
        rw [hnil] at this
        simp at this
    · rw [ht] at e
      have hmem := mem_toList_of_root e.symm
      rw [mem_plug] at hmem
      exact h.not_mem_path (mem_toList_of_root ht) (hmem.resolve_right (by simp))
  · rintro rfl
    rfl

/-- Leaving the loop: the place is red, or it is the root. -/
theorem EraseInv.done {l : List P} {s₀ : RbState P} {n : ℕ} (h : Represents s (plug p t))
    (hfits : Fits p .black (n + 1)) (hshort : Short t n) (hl : (plug p t).toList = l)
    (hu : Untouched l s₀ s) (hexit : t.color = .red ∨ p = []) :
    Rebalanced l s₀ (paintBlack s t.root) := by
  have hbal : ∃ m, Fits p .black m ∧ t.blacken.Balanced m := by
    rcases hshort with ⟨hblack, hbal⟩ | ⟨-, hbal⟩
    · obtain rfl : p = [] := hexit.resolve_left (by simp [hblack])
      obtain ⟨m, hm⟩ := hbal.blacken
      exact ⟨m, rfl, hm⟩
    · exact ⟨n + 1, hfits, hbal⟩
  obtain ⟨m, hfits, hbal⟩ := hbal
  have hcolor : t.blacken.color = .black := by cases t <;> rfl
  have hlist : (plug p t.blacken).toList = l := by
    rw [← hl]
    exact toList_plug_congr p (toList_blacken t)
  refine ⟨_, h.paintBlack_root, isRB_plug.2 ⟨m, hcolor ▸ hfits, hbal⟩, hlist, ?_⟩
  refine hu.trans (untouched_paintBlack (fun b hb => ?_) s)
  rw [← hl]
  exact mem_plug.2 (.inr (mem_toList_of_root hb))

/-! ## The sibling -/

/-- A red sibling is rotated up: the place gets a black sibling `w₁`, below the
    parent `q`, which is now red. -/
theorem erase_redSibling {d : Side} {t w₁ w₂ : RBTree P} {q w : P}
    (h : Represents s (plug p (bin d .black t q (bin d .red w₁ w w₂)))) :
    ∃ s', rbRotate d ((s.setColor w .black).setColor q .red) q = some s' ∧
      Represents s' (plug (⟨d, .red, q, w₁⟩ :: ⟨d, .black, w, w₂⟩ :: p) t) ∧
      Untouched (plug p (bin d .black t q (bin d .red w₁ w w₂))).toList s s' := by
  have h₀ : Represents s (plug (⟨d.other, .black, q, t⟩ :: p) (bin d .red w₁ w w₂)) := by
    rw [plug_sibling]
    exact h
  have h₁ := h₀.setColor .black
  rw [plug_sibling] at h₁
  have h₂ := h₁.setColor .red
  obtain ⟨s', hs', hr, hu⟩ := rbRotate_spec h₂
  refine ⟨s', hs', hr, ?_⟩
  set l := (plug p (bin d .black t q (bin d .red w₁ w w₂))).toList with hl
  have hmem : ∀ b, b ∈ l ↔ b ∈ p.elems ∨ b ∈ t.toList ∨ b = q ∨
      b ∈ w₁.toList ∨ b = w ∨ b ∈ w₂.toList := fun b => by
    simp only [hl, mem_plug, RBTree.mem_bin]
  refine ((untouched_setColor ((hmem w).2 (by simp)) s .black).trans
    (untouched_setColor ((hmem q).2 (by simp)) _ .red)).trans (hu.mono fun b hb => ?_)
  simp only [mem_plug, RBTree.mem_bin] at hb
  exact (hmem b).2 hb

/-- With a red inner nephew and a black outer one, the former is rotated up: the
    outer nephew of the place is then red. -/
theorem erase_innerNephew {d : Side} {a₁ b₁ w₂ : RBTree P} {k w : P}
    (h : Represents s (plug p (bin d .black (bin d .red a₁ k b₁) w w₂))) :
    ∃ s', rbRotate d.other ((s.setColor k .black).setColor w .red) w = some s' ∧
      Represents s' (plug p (bin d .black a₁ k (bin d .red b₁ w w₂))) ∧
      Untouched (plug p (bin d .black (bin d .red a₁ k b₁) w w₂)).toList s s' := by
  have h₁ : Represents (s.setColor k .black) (plug (⟨d, .black, w, w₂⟩ :: p)
      (bin d .black a₁ k b₁)) :=
    Represents.setColor (p := ⟨d, .black, w, w₂⟩ :: p) h .black
  rw [plug_cons, Frame.fill_mk] at h₁
  have h₂ := h₁.setColor .red
  rw [← bin_other, ← bin_other d .black b₁] at h₂
  obtain ⟨s', hs', hr, hu⟩ := rbRotate_spec h₂
  rw [bin_other, bin_other] at hr
  refine ⟨s', hs', hr, ?_⟩
  set l := (plug p (bin d .black (bin d .red a₁ k b₁) w w₂)).toList with hl
  have hmem : ∀ b, b ∈ l ↔ b ∈ p.elems ∨ (b ∈ a₁.toList ∨ b = k ∨ b ∈ b₁.toList) ∨
      b = w ∨ b ∈ w₂.toList := fun b => by simp only [hl, mem_plug, RBTree.mem_bin]
  refine ((untouched_setColor ((hmem k).2 (by simp)) s .black).trans
    (untouched_setColor ((hmem w).2 (by simp)) _ .red)).trans (hu.mono fun b hb => ?_)
  simp only [mem_plug, RBTree.mem_bin] at hb
  rw [hmem]
  tauto

/-- With a red outer nephew, the sibling is rotated up, and the outer nephew pays
    for the missing black node. -/
theorem erase_outerNephew {d : Side} {c : Color} {t x y z : RBTree P} {q w f : P}
    (h : Represents s (plug p (bin d c t q (bin d .black x w (bin d .red y f z))))) :
    ∃ s', rbRotate d (((s.setColor w c).setColor q .black).setColor f .black) q = some s' ∧
      Represents s' (plug p (bin d c (bin d .black t q x) w (bin d .black y f z))) ∧
      Untouched (plug p (bin d c t q (bin d .black x w (bin d .red y f z)))).toList s s' := by
  have h₀ : Represents s (plug (⟨d.other, c, q, t⟩ :: p)
      (bin d .black x w (bin d .red y f z))) := by
    rw [plug_sibling]
    exact h
  have h₁ := h₀.setColor c
  rw [plug_sibling] at h₁
  have h₂ := h₁.setColor .black
  have h₂' : Represents ((s.setColor w c).setColor q .black)
      (plug (⟨d.other, c, w, x⟩ :: ⟨d.other, .black, q, t⟩ :: p) (bin d .red y f z)) := by
    rw [plug_sibling, plug_sibling]
    exact h₂
  have h₃ := h₂'.setColor .black
  rw [plug_sibling, plug_sibling] at h₃
  obtain ⟨s', hs', hr, hu⟩ := rbRotate_spec h₃
  refine ⟨s', hs', hr, ?_⟩
  set l := (plug p (bin d c t q (bin d .black x w (bin d .red y f z)))).toList with hl
  have hmem : ∀ b, b ∈ l ↔ b ∈ p.elems ∨ b ∈ t.toList ∨ b = q ∨
      b ∈ x.toList ∨ b = w ∨ b ∈ y.toList ∨ b = f ∨ b ∈ z.toList := fun b => by
    simp only [hl, mem_plug, RBTree.mem_bin]
  refine (((untouched_setColor ((hmem w).2 (by simp)) s c).trans
    (untouched_setColor ((hmem q).2 (by simp)) _ .black)).trans
    (untouched_setColor ((hmem f).2 (by simp)) _ .black)).trans (hu.mono fun b hb => ?_)
  simp only [mem_plug, RBTree.mem_bin] at hb
  exact (hmem b).2 hb

/-- The rotation of the nephews: the sibling then has a red outer child. -/
theorem rbEraseColorNephew_spec {d : Side} {c : Color} {w₁ w₂ : RBTree P} {q w : P} {n : ℕ}
    (h : Represents s (plug (⟨d.other, c, q, t⟩ :: p) (bin d .black w₁ w w₂)))
    (hw₁ : w₁.Balanced n) (hw₂ : w₂.Balanced n)
    (hred : ¬(w₁.color = .black ∧ w₂.color = .black)) :
    ∃ s' x w' y f z, rbEraseColorNephew d s q w = some (s', w') ∧
      Represents s' (plug p (bin d c t q (bin d .black x w' (bin d .red y f z)))) ∧
      x.Balanced n ∧ y.Balanced n ∧ z.Balanced n ∧
      (plug p (bin d c t q (bin d .black x w' (bin d .red y f z)))).toList =
        (plug (⟨d.other, c, q, t⟩ :: p) (bin d .black w₁ w w₂)).toList ∧
      Untouched (plug (⟨d.other, c, q, t⟩ :: p) (bin d .black w₁ w w₂)).toList s s' := by
  have hw := h.mem_bin
  have hisw₂ := Represents.isBlack_root (holds_bin.1 h.subtree).2.2
  by_cases hfar : w₂.color = .black
  · -- The inner nephew is red, and comes up.
    have hnear : w₁.color = .red := Color.eq_red_of_ne fun hb => hred ⟨hb, hfar⟩
    obtain ⟨a₁, k, b₁, rfl⟩ := exists_bin_of_red hnear d
    obtain ⟨s', hs', hr, hu⟩ := erase_innerNephew h
    have hq := hr.mem_parent
    rw [balanced_red] at hw₁
    refine ⟨s', a₁, k, b₁, w, w₂, ?_, ?_, hw₁.2.2.1, hw₁.2.2.2, hw₂, ?_, hu⟩
    · simp [rbEraseColorNephew, hw, hisw₂, hfar, hs', hq]
    · rw [← bin_other d c]
      exact hr
    · rw [plug_sibling]
      refine toList_plug_congr p ?_
      cases d <;> simp [bin]
  · -- The outer nephew is red, and nothing is done.
    obtain ⟨y, f, z, rfl⟩ := exists_bin_of_red (Color.eq_red_of_ne hfar) d
    rw [balanced_red] at hw₂
    refine ⟨s, w₁, w, y, f, z, ?_, ?_, hw₁, hw₂.2.2.1, hw₂.2.2.2, ?_, Untouched.refl _ _⟩
    · simp only [rbEraseColorNephew, hw, child_other_ofSide, hisw₂, hfar, decide_false]
      rfl
    · rw [← bin_other d c]
      exact h
    · rw [plug_sibling]

/-! ## The loop -/

/-- The height a path expects above a parent of colour `c` when the place below
    it is of height `n`. -/
def Color.above : Color → ℕ → ℕ
  | .red, n => n + 1
  | .black, n => n + 2

section BlackSibling

variable {l : List P} {s₀ : RbState P} {d : Side} {c : Color} {w₁ w₂ : RBTree P} {q w : P} {n : ℕ}

omit [DecidableEq P] in
/-- What is above a black sibling, and below it. -/
theorem fits_blackSibling (h : Fits (⟨d, c, q, bin d .black w₁ w w₂⟩ :: p) .black (n + 1)) :
    Fits p c (Color.above c n) ∧ w₁.Balanced n ∧ w₂.Balanced n := by
  cases c with
  | red => exact ⟨h.2.2.2, balanced_black.1 h.2.2.1⟩
  | black => exact ⟨h.2, balanced_black.1 h.1⟩

omit [DecidableEq P] in
/-- The code looks at the nephews by left and right. -/
theorem Represents.isBlack_nephews (h : Represents s (plug p (bin d .black w₁ w w₂))) :
    (s.isBlack (s.mem w).left && s.isBlack (s.mem w).right) =
      decide (w₁.color = .black ∧ w₂.color = .black) := by
  obtain ⟨hw, hw₁, hw₂⟩ := holds_bin.1 h.subtree
  rw [Bool.decide_and, ← Represents.isBlack_root hw₁, ← Represents.isBlack_root hw₂, hw]
  cases d with
  | left => rfl
  | right => exact Bool.and_comm _ _

/-- With two black nephews, the sibling is painted red, and the place moves up. -/
theorem rbEraseColorBlack_next
    (h : Represents s (plug (⟨d, c, q, bin d .black w₁ w w₂⟩ :: p) t))
    (hfits : Fits (⟨d, c, q, bin d .black w₁ w w₂⟩ :: p) .black (n + 1)) (hbal : t.Balanced n)
    (hl : (plug (⟨d, c, q, bin d .black w₁ w w₂⟩ :: p) t).toList = l) (hu : Untouched l s₀ s)
    (hnn : w₁.color = .black ∧ w₂.color = .black) :
    ∃ s' k', rbEraseColorBlack d s q w = some (.next s') ∧
      k' ≤ (if c = .red then 0 else p.length + 1) ∧ EraseInv l s₀ k' s' := by
  obtain ⟨hfits_p, hbal_w⟩ := fits_blackSibling hfits
  have hsib : Represents s (plug (⟨d.other, c, q, t⟩ :: p) (bin d .black w₁ w w₂)) := by
    rw [plug_sibling]
    exact h
  have h₁ := hsib.setColor .red
  rw [plug_sibling] at h₁
  have hq := h₁.mem_bin
  have hsib_bal : (bin d .red w₁ w w₂).Balanced n :=
    balanced_red.2 ⟨hnn.1, hnn.2, hbal_w.1, hbal_w.2⟩
  have hlist : (plug p (bin d c t q (bin d .red w₁ w w₂))).toList = l := by
    rw [← hl]
    refine toList_plug_congr p ?_
    cases d <;> simp [bin, Frame.fill]
  -- A red parent pays at once; below a black one the subtree is short.
  obtain ⟨k, hfits_k, hshort⟩ : ∃ k, Fits p .black (k + 1) ∧
      Short (bin d c t q (bin d .red w₁ w w₂)) k := by
    cases c with
    | red =>
      refine ⟨n, hfits_p.black, .inr ⟨color_bin _ _ _ _ _, ?_⟩⟩
      rw [blacken_bin, balanced_black]
      exact ⟨hbal, hsib_bal⟩
    | black =>
      exact ⟨n + 1, hfits_p, .inl ⟨color_bin _ _ _ _ _, balanced_black.2 ⟨hbal, hsib_bal⟩⟩⟩
  refine ⟨(s.setColor w .red, some q, p.parent), _, ?_, le_rfl, p,
    bin d c t q (bin d .red w₁ w w₂), k, ?_, root_bin _ _ _ _ _, rfl, h₁, hfits_k, hshort,
    hlist, ?_⟩
  · simp [rbEraseColorBlack, hsib.isBlack_nephews, hnn, hq]
  · rw [color_bin]
  · refine hu.trans (untouched_setColor ?_ s .red)
    rw [← hlist, mem_plug, RBTree.mem_bin, RBTree.mem_bin]
    tauto

/-- With a red nephew, the sibling is rotated up, and the tree is red-black. -/
theorem rbEraseColorBlack_done
    (h : Represents s (plug (⟨d, c, q, bin d .black w₁ w w₂⟩ :: p) t))
    (hfits : Fits (⟨d, c, q, bin d .black w₁ w w₂⟩ :: p) .black (n + 1)) (hbal : t.Balanced n)
    (hl : (plug (⟨d, c, q, bin d .black w₁ w w₂⟩ :: p) t).toList = l) (hu : Untouched l s₀ s)
    (hnn : ¬(w₁.color = .black ∧ w₂.color = .black)) :
    ∃ r, rbEraseColorBlack d s q w = some (.done r) ∧ Rebalanced l s₀ (paintBlack r.1 r.2) := by
  obtain ⟨hfits_p, hbal_w⟩ := fits_blackSibling hfits
  have hsib : Represents s (plug (⟨d.other, c, q, t⟩ :: p) (bin d .black w₁ w w₂)) := by
    rw [plug_sibling]
    exact h
  have hlist : (plug (⟨d.other, c, q, t⟩ :: p) (bin d .black w₁ w w₂)).toList = l := by
    rw [← hl, plug_sibling]
    rfl
  obtain ⟨s₂, x, w', y, f, z, hs₂, hr₂, hx, hy, hz, hlist₂, hu₂⟩ :=
    rbEraseColorNephew_spec hsib hbal_w.1 hbal_w.2 hnn
  obtain ⟨s₃, hs₃, hr₃, hu₃⟩ := erase_outerNephew hr₂
  rw [hlist₂, hlist] at hu₃
  rw [hlist] at hu₂
  have hq₂ := hr₂.mem_bin
  have hw' : s₂.mem w' = ofSide d (some q) x.root (some f) .black := by
    have := (holds_bin.1 (holds_bin.1 hr₂.subtree).2.2).1
    rwa [root_bin] at this
  have hne : w' ≠ q := by
    have := nodup_bin.1 (nodup_of_plug hr₂.nodup)
    rintro rfl
    exact this.2.2.2.1 (by simp [RBTree.mem_bin])
  have hfar : (((s₂.setColor w' c).setColor q .black).mem w').child d.other = some f := by
    rw [setColor_mem_ne _ _ hne, setColor_mem_same, hw', setColor_ofSide, child_other_ofSide]
  have hrb : (plug p (bin d c (bin d .black t q x) w' (bin d .black y f z))).IsRB := by
    refine isRB_plug.2 ⟨Color.above c n, by rwa [color_bin], ?_⟩
    cases c with
    | red =>
      refine balanced_red.2 ⟨color_bin _ _ _ _ _, color_bin _ _ _ _ _, ?_, ?_⟩
      · exact balanced_black.2 ⟨hbal, hx⟩
      · exact balanced_black.2 ⟨hy, hz⟩
    | black =>
      exact balanced_black.2 ⟨balanced_black.2 ⟨hbal, hx⟩, balanced_black.2 ⟨hy, hz⟩⟩
  have hlist₃ : (plug p (bin d c (bin d .black t q x) w' (bin d .black y f z))).toList = l := by
    rw [← hlist, ← hlist₂]
    refine toList_plug_congr p ?_
    cases d <;> simp [bin]
  have hpaint := Represents.paintBlack_root (p := []) hr₃
  rw [← hr₃.root] at hpaint
  refine ⟨(s₃, s₃.root), ?_, _, hpaint, ⟨?_, hrb.2.choose_spec.blacken⟩, ?_, ?_⟩
  · simp [rbEraseColorBlack, hsib.isBlack_nephews, hnn, hs₂, hq₂, hfar, hs₃]
  · cases (plug p _) <;> rfl
  · rw [plug_nil, toList_blacken, hlist₃]
  · refine (hu.trans (hu₂.trans hu₃)).trans (untouched_paintBlack (fun b hb => ?_) s₃)
    rw [hr₃.root] at hb
    rw [← hlist₃]
    exact mem_toList_of_root hb

/-- A pass with a black sibling. -/
theorem rbEraseColorBlack_spec
    (h : Represents s (plug (⟨d, c, q, bin d .black w₁ w w₂⟩ :: p) t))
    (hfits : Fits (⟨d, c, q, bin d .black w₁ w w₂⟩ :: p) .black (n + 1)) (hbal : t.Balanced n)
    (hl : (plug (⟨d, c, q, bin d .black w₁ w w₂⟩ :: p) t).toList = l) (hu : Untouched l s₀ s) :
    (∃ r, rbEraseColorBlack d s q w = some (.done r) ∧ Rebalanced l s₀ (paintBlack r.1 r.2)) ∨
      ∃ s' k', rbEraseColorBlack d s q w = some (.next s') ∧
        k' ≤ (if c = .red then 0 else p.length + 1) ∧ EraseInv l s₀ k' s' := by
  by_cases hnn : w₁.color = .black ∧ w₂.color = .black
  · exact .inr (rbEraseColorBlack_next h hfits hbal hl hu hnn)
  · exact .inl (rbEraseColorBlack_done h hfits hbal hl hu hnn)

end BlackSibling

/-- A pass, at a place of height `n` below `q`, on the side `d`. -/
theorem rbEraseColorSide_spec {l : List P} {s₀ : RbState P} {d : Side} {c : Color}
    {v : RBTree P} {q : P} {n : ℕ} (h : Represents s (plug (⟨d, c, q, v⟩ :: p) t))
    (hfits : Fits (⟨d, c, q, v⟩ :: p) .black (n + 1)) (hbal : t.Balanced n)
    (hl : (plug (⟨d, c, q, v⟩ :: p) t).toList = l)
    (hu : Untouched l s₀ s) :
    (∃ r, rbEraseColorSide d s q = some (.done r) ∧ Rebalanced l s₀ (paintBlack r.1 r.2)) ∨
      ∃ s' k', rbEraseColorSide d s q = some (.next s') ∧ k' < p.length + 2 ∧
        EraseInv l s₀ k' s' := by
  have hv : v.Balanced (n + 1) := by
    cases c with
    | red => exact hfits.2.2.1
    | black => exact hfits.1
  have hq := h.mem_parent
  have hisred : s.isRed v.root = decide (v.color = .red) :=
    Represents.isRed_root (h.path.2.1 : Holds s.mem (some q) v)
  -- The sibling exists: its height is positive.
  obtain ⟨cv, w₁, w, w₂, rfl⟩ := hv.exists_bin d
  cases cv with
  | black =>
    have hside : rbEraseColorSide d s q = rbEraseColorBlack d s q w := by
      simp only [root_bin, color_bin, reduceCtorEq, decide_false] at hisred
      simp [rbEraseColorSide, hq, hisred]
    rw [hside]
    refine (rbEraseColorBlack_spec h hfits hbal hl hu).imp id ?_
    rintro ⟨s', k', hs', hk', hinv⟩
    refine ⟨s', k', hs', ?_, hinv⟩
    split_ifs at hk' <;> omega
  | red =>
    obtain rfl : c = .black := by
      cases c with
      | red => simp at hfits
      | black => rfl
    rw [balanced_red] at hv
    obtain ⟨s₂, hs₂, hr₂, hu₂⟩ := erase_redSibling h
    have hlist₂ : (plug (⟨d, .red, q, w₁⟩ :: ⟨d, .black, w, w₂⟩ :: p) t).toList = l := by
      rw [← hl]
      refine toList_plug_congr p ?_
      cases d <;> simp [bin, Frame.fill]
    have hlist₁ : (plug p (bin d .black t q (bin d .red w₁ w w₂))).toList = l := hl
    rw [hlist₁] at hu₂
    obtain ⟨cv, x₁, x, x₂, rfl⟩ := hv.2.2.1.exists_bin d
    obtain rfl : cv = .black := by simpa using hv.1
    have hq₂ := hr₂.mem_parent
    have hside : rbEraseColorSide d s q = rbEraseColorBlack d s₂ q x := by
      simp only [root_bin, color_bin, decide_true] at hisred
      simp [rbEraseColorSide, hq, hisred, hs₂, hq₂]
    rw [hside]
    have hfits₂ : Fits (⟨d, .red, q, bin d .black x₁ x x₂⟩ :: ⟨d, .black, w, w₂⟩ :: p) .black
        (n + 1) := ⟨rfl, hv.1, hv.2.2.1, hv.2.2.2, hfits.2⟩
    refine (rbEraseColorBlack_spec hr₂ hfits₂ hbal hlist₂ (hu.trans hu₂)).imp id ?_
    rintro ⟨s', k', hs', hk', hinv⟩
    exact ⟨s', k', hs', by simp at hk'; omega, hinv⟩

/-- A pass leaves the loop with a red-black tree, or keeps its invariant. -/
theorem rbEraseColorPass_spec {l : List P} {s₀ : RbState P} (k : ℕ)
    (st : RbState P × Option P × Option P) (h : EraseInv l s₀ k st) :
    (∃ r, rbEraseColorPass st = some (.done r) ∧ Rebalanced l s₀ (paintBlack r.1 r.2)) ∨
      ∃ st' k', rbEraseColorPass st = some (.next st') ∧ k' < k ∧ EraseInv l s₀ k' st' := by
  obtain ⟨s, a, parent⟩ := st
  obtain ⟨p, t, n, rfl, rfl, rfl, hr, hfits, hshort, hl, hu⟩ := h
  have hblack := Represents.isBlack_root hr.subtree
  by_cases hexit : t.color = .red ∨ p = []
  · refine .inl ⟨(s, t.root), ?_, EraseInv.done hr hfits hshort hl hu hexit⟩
    rw [rbEraseColorPass, if_neg]
    rw [hblack, Ne, hr.root_eq_iff, decide_eq_true_iff]
    rintro ⟨h₁, h₂⟩
    rcases hexit with h | h
    · rw [h] at h₁
      exact Color.noConfusion h₁
    · exact h₂ h
  · push Not at hexit
    obtain ⟨hcolor, hp⟩ := hexit
    have hbal : t.color = .black ∧ t.Balanced n := hshort.resolve_right fun h => hcolor h.1
    obtain ⟨⟨d, c, q, v⟩, p, rfl⟩ := List.exists_cons_of_ne_nil hp
    have hv : v.root ≠ none := by
      have : v.Balanced (n + 1) := by
        cases c with
        | red => exact hfits.2.2.1
        | black => exact hfits.1
      obtain ⟨cv, x, a, y, rfl⟩ := this.exists_bin .left
      simp
    have hq := hr.mem_parent
    have hleft : (s.mem q).left = t.root ↔ d = .left := by
      rcases ht : t.root with _ | a
      · rw [hq, ht]
        cases d with
        | left => simp [ofSide]
        | right => simpa [ofSide] using hv
      · rw [left_eq_child, hr.child_parent_iff (f := ⟨d, c, q, v⟩) ht .left]
        exact eq_comm
    have hpass : rbEraseColorPass (s, t.root, TreePath.parent (⟨d, c, q, v⟩ :: p)) =
        rbEraseColorSide d s q := by
      rw [rbEraseColorPass, if_pos]
      · cases d with
        | left => simp [hleft]
        | right => simp [hleft]
      · rw [hblack, Ne, hr.root_eq_iff, decide_eq_true_iff]
        exact ⟨hbal.1, hp⟩
    rw [hpass, if_neg hcolor]
    exact rbEraseColorSide_spec hr hfits hbal.2 hl hu

/-- `rb_erase_color`: from a place one black node short, it rebalances, keeping
    the in-order sequence. -/
theorem rbEraseColor_spec {fuel n : ℕ} (h : Represents s (plug p t)) (hfits : Fits p .black (n + 1))
    (hshort : Short t n) (hfuel : p.length + 1 < fuel) :
    ∃ s', rbEraseColor fuel s t.root p.parent = some s' ∧ Rebalanced (plug p t).toList s s' := by
  have hinv : EraseInv (plug p t).toList s (if t.color = .red then 0 else p.length + 1)
      (s, t.root, p.parent) :=
    ⟨p, t, n, rfl, rfl, rfl, h, hfits, hshort, rfl, Untouched.refl _ _⟩
  obtain ⟨⟨s', a⟩, hloop, hreb⟩ := loop_of_variant (n := fuel) rbEraseColorPass_spec hinv
    (by split_ifs <;> omega)
  refine ⟨paintBlack s' a, ?_, hreb⟩
  cases a <;> simp [rbEraseColor, hloop, paintBlack]

end Fru1tOs
