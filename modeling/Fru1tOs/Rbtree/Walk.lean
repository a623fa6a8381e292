import Fru1tOs.Rbtree.Rotate

/-!
# The in-order walk

`rb_first` and `rb_next` walk a tree of pointers of any shape in order: the first
node is the head of the in-order sequence (`rbFirst_spec`), and the node after
`a` is the one that follows it there, if any (`rbNext_spec`). `rb_next` goes down
to the leftmost node on the right of `a`, or else climbs to the first node it is
on the left of; at a focus, the former is the head of the right subtree, and the
latter the head of what is after the hole.

The walk from `rb_first` by `rb_next` thus ends, and visits the in-order sequence
(`rbWalk_in_order`). Nothing is asked of the colours, nor of the shape of the tree.
-/

namespace Fru1tOs

open Lib RBTree RbNode

variable {P : Type*} {s : RbState P} {p : TreePath P} {t : RBTree P}

/-- Going down to the left ends at the first node of the subtree, below frames
    that are all on the left. -/
theorem rbLeftmost_spec (fuel : ℕ) {par : Option P} {c : Color} {l r : RBTree P} {a : P}
    (h : Holds s.mem par (node c l a r)) (hfuel : (node c l a r).height ≤ fuel) :
    ∃ q c' b r', rbLeftmost fuel s a = some b ∧ plug q (node c' nil b r') = node c l a r ∧
      ∀ f ∈ q, f.side = .left := by
  obtain ⟨n, rfl⟩ : ∃ n, fuel = n + 1 := by
    refine Nat.exists_eq_succ_of_ne_zero ?_
    rintro rfl
    exact Nat.not_succ_le_zero _ hfuel
  induction l generalizing par c a r n with
  | nil =>
    refine ⟨[], c, a, r, loop_done ?_, rfl, by simp⟩
    simp [rbLeftmostPass, h.1]
  | node c₂ l₂ a₂ r₂ ih₁ _ =>
    have hnext : rbLeftmostPass s a = some (.next a₂) := by simp [rbLeftmostPass, h.1]
    cases n with
    | zero =>
      simp only [height] at hfuel
      omega
    | succ n =>
      obtain ⟨q, c', b, r', hb, hq, hside⟩ := ih₁ h.2.1 n (by
        simp only [height] at hfuel ⊢
        omega)
      refine ⟨q ++ [⟨.left, c, a, r⟩], c', b, r', (loop_next hnext).trans hb, ?_, ?_⟩
      · rw [plug_append, hq]
        rfl
      · intro f hf
        rcases List.mem_append.1 hf with hf | hf
        · exact hside f hf
        · rw [List.mem_singleton.1 hf]

/-- Nothing comes before a hole below frames that are all on the left. -/
theorem before_eq_nil {q : TreePath P} (h : ∀ f ∈ q, f.side = .left) : q.before = [] := by
  induction q with
  | nil => rfl
  | cons f q ih =>
    rw [TreePath.before_cons, ih fun g hg => h g (List.mem_cons_of_mem _ hg), Frame.before,
      h f List.mem_cons_self]
    rfl

/-- Going down to the left ends at the head of the in-order sequence. -/
theorem rbLeftmost_eq_head (fuel : ℕ) {par : Option P} {a : P} (h : Holds s.mem par t)
    (ha : t.root = some a) (hfuel : t.height ≤ fuel) :
    rbLeftmost fuel s a = t.toList.head? := by
  cases t with
  | nil => simp at ha
  | node c l b r =>
    obtain rfl : b = a := by simpa using ha
    obtain ⟨q, c', e, r', he, hq, hside⟩ := rbLeftmost_spec fuel h hfuel
    rw [he, ← hq, toList_plug, before_eq_nil hside]
    rfl

variable [DecidableEq P]

omit [DecidableEq P] in
/-- `rb_first` is the first node, in order. It makes no more passes than the tree is high. -/
theorem rbFirst_of_height (fuel : ℕ) (h : Represents s t) (hfuel : t.height ≤ fuel) :
    rbFirst fuel s = some t.toList.head? := by
  rw [rbFirst, h.root]
  cases t with
  | nil => rfl
  | node c l a r =>
    obtain ⟨q, c', e, r', he, hq, hside⟩ := rbLeftmost_spec fuel h.holds hfuel
    have hhead := rbLeftmost_eq_head fuel h.holds (root_node c l a r) hfuel
    rw [he] at hhead
    simp only [root_node, he, Option.bind_eq_bind, Option.bind_some, Option.pure_def, ← hhead]

omit [DecidableEq P] in
theorem rbFirst_spec (fuel : ℕ) (h : Represents s t) (hfuel : t.toList.length ≤ fuel) :
    rbFirst fuel s = some t.toList.head? :=
  rbFirst_of_height fuel h (t.height_le_length.trans hfuel)

/-- The climb of `rb_next` ends at the first node after the hole. -/
theorem rbClimb_spec (fuel : ℕ) {a : P} (h : Represents s (plug p t)) (ha : t.root = some a)
    (hfuel : p.length < fuel) : loop (rbClimbPass s) fuel a = some p.after.head? := by
  obtain ⟨n, rfl⟩ : ∃ n, fuel = n + 1 := ⟨fuel - 1, by omega⟩
  induction p generalizing t a n with
  | nil =>
    have hmem := RBTree.exists_bin ha .left
    obtain ⟨c, x, y, rfl⟩ := hmem
    refine loop_done ?_
    simp [rbClimbPass, h.mem_bin]
  | cons f p ih =>
    have hpar : (s.mem a).parent = some f.key := by
      obtain ⟨c, x, y, rfl⟩ := RBTree.exists_bin ha .left
      rw [h.mem_bin]
      simp
    have hright : (s.mem f.key).right = some a ↔ Side.right = f.side :=
      h.child_parent_iff ha .right
    cases hside : f.side with
    | left =>
      rw [hside] at hright
      refine (loop_done (r := some f.key) ?_).trans ?_
      · simp [rbClimbPass, hpar, hright]
      · simp [Frame.after, hside]
    | right =>
      rw [hside] at hright
      have hnext : rbClimbPass s a = some (.next f.key) := by simp [rbClimbPass, hpar, hright]
      cases n with
      | zero => simp at hfuel
      | succ n =>
        rw [loop_next hnext, ih (t := f.fill t) h (by simp [Frame.fill]) n
          (by simpa using hfuel)]
        simp [Frame.after, hside]

/-- `rb_next` at a focus. -/
theorem rbNext_plug (fuel : ℕ) {c : Color} {l r : RBTree P} {a : P}
    (h : Represents s (plug p (node c l a r)))
    (hfuel : (plug p (node c l a r)).height ≤ fuel) :
    rbNext fuel s a = some (r.toList ++ p.after).head? := by
  have hmem : s.mem a = ⟨p.parent, l.root, r.root, c⟩ := h.subtree.1
  have hlen := length_add_height_le p (node c l a r)
  rw [height] at hlen
  cases r with
  | nil =>
    have hclimb := rbClimb_spec fuel h (root_node c l a nil) (by omega)
    simp [rbNext, hmem, hclimb]
  | node c' l' b r' =>
    have hr : Holds s.mem (some a) (node c' l' b r') := h.subtree.2.2
    have hhead := rbLeftmost_eq_head fuel hr (root_node _ _ _ _) (by omega)
    obtain ⟨q, c'', e, r'', he, -, -⟩ := rbLeftmost_spec fuel hr (by omega)
    rw [he] at hhead
    simp only [rbNext, hmem, root_node, he, Option.bind_eq_bind, Option.bind_some, Option.pure_def,
      List.head?_append, ← hhead, Option.some_or]

/-- `rb_next` of a node is the one that follows it, in order. It makes no more passes than the tree
    is high. -/
theorem rbNext_of_height (fuel : ℕ) {a : P} {l₁ l₂ : List P} (h : Represents s t)
    (ht : t.toList = l₁ ++ a :: l₂) (hfuel : t.height ≤ fuel) :
    rbNext fuel s a = some l₂.head? := by
  have hnd := h.nodup
  obtain ⟨p, c, l, r, rfl⟩ := exists_plug_of_mem (t := t) (a := a) (by simp [ht])
  rw [rbNext_plug fuel h hfuel]
  rw [toList_plug, toList_node] at ht hnd
  have hsplit : (p.before ++ l.toList) ++ a :: (r.toList ++ p.after) = l₁ ++ a :: l₂ := by
    rw [← ht]
    simp
  have hnd' : ((p.before ++ l.toList) ++ a :: (r.toList ++ p.after)).Nodup := by
    convert hnd using 1
    simp
  rw [List.nodup_middle, List.nodup_cons] at hnd'
  have hnot := hnd'.1
  simp only [List.mem_append, not_or] at hnot
  have := (List.append_cons_inj_of_notMem (by simp [hnot]) (by simp [hnot])).1 hsplit
  rw [this.2.2]

theorem rbNext_spec (fuel : ℕ) {a : P} {l₁ l₂ : List P} (h : Represents s t)
    (ht : t.toList = l₁ ++ a :: l₂) (hfuel : t.toList.length ≤ fuel) :
    rbNext fuel s a = some l₂.head? :=
  rbNext_of_height fuel h ht (t.height_le_length.trans hfuel)

/-! ## The walk -/

/-- A pass of `while (node) { … node = rb_next(node); }`, with the nodes visited so far. -/
def rbWalkPass (fuel : ℕ) (s : RbState P) :
    Option P × List P → Option (Pass (Option P × List P) (List P))
  | (none, visited) => some (.done visited)
  | (some a, visited) => do
    let next ← rbNext fuel s a
    return .next (next, visited ++ [a])

/-- The nodes that a walk visits, from `rb_first` on. -/
def rbWalk (fuel : ℕ) (s : RbState P) : Option (List P) := do
  let first ← rbFirst fuel s
  loop (rbWalkPass fuel s) fuel (first, [])

/-- The walk goes on with what is left of the in-order sequence. -/
theorem rbWalk_loop (fuel : ℕ) (h : Represents s t) (hfuel : t.toList.length ≤ fuel)
    {visited rest : List P} (hsplit : t.toList = visited ++ rest) {n : ℕ} (hn : rest.length < n) :
    loop (rbWalkPass fuel s) n (rest.head?, visited) = some t.toList := by
  obtain ⟨n, rfl⟩ : ∃ m, n = m + 1 := ⟨n - 1, by omega⟩
  induction rest generalizing visited n with
  | nil =>
    rw [List.append_nil] at hsplit
    exact loop_done (by rw [hsplit]; rfl)
  | cons a rest ih =>
    have hpass : rbWalkPass fuel s (some a, visited) =
        some (.next (rest.head?, visited ++ [a])) := by
      rw [rbWalkPass, rbNext_spec fuel h hsplit hfuel]
      rfl
    rw [List.length_cons] at hn
    obtain ⟨n, rfl⟩ : ∃ m, n = m + 1 := ⟨n - 1, by omega⟩
    rw [List.head?_cons, loop_next hpass]
    exact ih (by rw [hsplit, List.append_assoc]; rfl) n (by omega)

/-- In a tree of any shape and colours, the walk from `rb_first` by `rb_next` ends, and visits the
    nodes in order, each once: `rb_next` of a node is the next one, and null for the last. -/
theorem rbWalk_in_order (h : Represents s t) {fuel : ℕ} (hfuel : t.toList.length < fuel) :
    rbWalk fuel s = some t.toList ∧ t.toList.Nodup ∧
      (∀ i a, t.toList[i]? = some a → rbNext fuel s a = some t.toList[i + 1]?) ∧
      ∀ a ∈ t.toList, rbNext fuel s a = some none ↔ t.toList.getLast? = some a := by
  have hnext : ∀ i a, t.toList[i]? = some a → rbNext fuel s a = some t.toList[i + 1]? := by
    intro i a ha
    obtain ⟨hi, rfl⟩ := List.getElem?_eq_some_iff.1 ha
    have hsplit : t.toList = t.toList.take i ++ t.toList[i] :: t.toList.drop (i + 1) := by simp
    rw [rbNext_spec fuel h hsplit hfuel.le, List.head?_drop]
  refine ⟨?_, h.nodup, hnext, fun a ha => ?_⟩
  · rw [rbWalk, rbFirst_spec fuel h hfuel.le]
    exact rbWalk_loop fuel h hfuel.le (List.nil_append _).symm hfuel
  · obtain ⟨i, hi, rfl⟩ := List.getElem_of_mem ha
    rw [hnext i _ (List.getElem?_eq_getElem hi), Option.some_inj, List.getElem?_eq_none_iff,
      List.getLast?_eq_getElem?, List.getElem?_eq_some_iff]
    constructor
    · intro hlast
      exact ⟨by omega, (h.nodup.getElem_inj_iff).2 (by omega)⟩
    · rintro ⟨hlast, heq⟩
      have := (h.nodup.getElem_inj_iff).1 heq
      omega

/-- A red root with a red child on the left, which has one on the right. -/
def zigzag : RbState ℕ where
  mem
    | 1 => ⟨some 3, none, some 2, .red⟩
    | 2 => ⟨some 1, none, none, .black⟩
    | 3 => ⟨none, some 1, none, .red⟩
    | _ => ⟨none, none, none, .black⟩
  root := some 3

theorem rbWalk_in_order_zigzag :
    rbWalk 4 zigzag = some [1, 2, 3] ∧ [1, 2, 3].Nodup ∧
      (∀ i a, [1, 2, 3][i]? = some a → rbNext 4 zigzag a = some [1, 2, 3][i + 1]?) ∧
      ∀ a ∈ [1, 2, 3], rbNext 4 zigzag a = some none ↔ [1, 2, 3].getLast? = some a :=
  rbWalk_in_order (t := node .red (node .red nil 1 (node .black nil 2 nil)) 3 nil)
    ⟨rfl, by simp [Holds, zigzag], by decide⟩ (by decide)

end Fru1tOs
