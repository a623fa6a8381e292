import Mathlib

/-!
# Red-black trees and their paths

Trees with coloured nodes, and *paths*: trees with a hole, as the list of the
frames from the hole up to the root. A focus in a tree is a path and the subtree
plugged in its hole (`plug`); an algorithm climbing or descending a tree moves
its focus.

* The in-order sequence of a tree splits at a focus (`toList_plug`), and every
  element of the tree is at the root of some focus (`exists_plug_of_mem`).
* A tree is *red-black* if its root is black, no red node has a red child, and
  all its paths to a leaf have the same number of black nodes. Seen from a
  focus, the subtree is balanced (`Balanced`) and the path accepts the colour
  and the height of what is plugged in it (`Fits`): `isRB_plug`.
* The height of a red-black tree is at most twice the logarithm of its size
  (`IsRB.height_le`), and a path is no longer than the height (`length_add_height_le`).

The two sides of a node are treated alike: `bin d` is a node whose child on the
side `d` comes first, so that an algorithm and its mirror image are one.
-/

namespace Lib

/-- The colour of a node. -/
inductive Color
  | red
  | black
  deriving DecidableEq, Repr

theorem Color.eq_red_of_ne {c : Color} (h : c ≠ .black) : c = .red := by
  cases c with
  | red => rfl
  | black => exact absurd rfl h

theorem Color.eq_black_of_ne {c : Color} (h : c ≠ .red) : c = .black := by
  cases c with
  | red => exact absurd rfl h
  | black => rfl

/-- The side of a child. -/
inductive Side
  | left
  | right
  deriving DecidableEq, Repr

/-- The opposite side. -/
def Side.other : Side → Side
  | left => right
  | right => left

@[simp] theorem Side.other_other (d : Side) : d.other.other = d := by cases d <;> rfl

@[simp] theorem Side.other_ne (d : Side) : d.other ≠ d := by cases d <;> decide

@[simp] theorem Side.ne_other (d : Side) : d ≠ d.other := by cases d <;> decide

theorem Side.eq_other_of_ne {d e : Side} (h : e ≠ d) : e = d.other := by
  cases d <;> cases e <;> first | rfl | exact absurd rfl h

/-- A tree with coloured nodes. -/
inductive RBTree (α : Type*)
  | nil
  | node (c : Color) (l : RBTree α) (a : α) (r : RBTree α)
  deriving DecidableEq, Repr

variable {α : Type*}

namespace RBTree

/-- The in-order sequence of a tree. -/
def toList : RBTree α → List α
  | nil => []
  | node _ l a r => l.toList ++ a :: r.toList

/-- The element at the root. -/
def root : RBTree α → Option α
  | nil => none
  | node _ _ a _ => some a

/-- The colour of the root; an empty tree is black. -/
def color : RBTree α → Color
  | nil => .black
  | node c _ _ _ => c

/-- The tree with its root painted black. -/
def blacken : RBTree α → RBTree α
  | nil => nil
  | node _ l a r => node .black l a r

/-- The node `a` of colour `c`, with the child `x` on the side `d` and the child
    `y` on the other one. -/
def bin (d : Side) (c : Color) (x : RBTree α) (a : α) (y : RBTree α) : RBTree α :=
  match d with
  | .left => node c x a y
  | .right => node c y a x

/-- The number of nodes. -/
def size : RBTree α → ℕ
  | nil => 0
  | node _ l _ r => l.size + r.size + 1

/-- The number of nodes on the longest way down. -/
def height : RBTree α → ℕ
  | nil => 0
  | node _ l _ r => max l.height r.height + 1

@[simp] theorem toList_nil : (nil : RBTree α).toList = [] := rfl
@[simp] theorem toList_node (c : Color) (l : RBTree α) (a : α) (r : RBTree α) :
    (node c l a r).toList = l.toList ++ a :: r.toList := rfl
@[simp] theorem root_nil : (nil : RBTree α).root = none := rfl
@[simp] theorem root_node (c : Color) (l : RBTree α) (a : α) (r : RBTree α) :
    (node c l a r).root = some a := rfl
@[simp] theorem color_nil : (nil : RBTree α).color = .black := rfl
@[simp] theorem color_node (c : Color) (l : RBTree α) (a : α) (r : RBTree α) :
    (node c l a r).color = c := rfl
@[simp] theorem root_bin (d : Side) (c : Color) (x : RBTree α) (a : α) (y : RBTree α) :
    (bin d c x a y).root = some a := by cases d <;> rfl
@[simp] theorem color_bin (d : Side) (c : Color) (x : RBTree α) (a : α) (y : RBTree α) :
    (bin d c x a y).color = c := by cases d <;> rfl
@[simp] theorem blacken_bin (d : Side) (c : Color) (x : RBTree α) (a : α) (y : RBTree α) :
    (bin d c x a y).blacken = bin d .black x a y := by cases d <;> rfl
@[simp] theorem toList_blacken (t : RBTree α) : t.blacken.toList = t.toList := by cases t <;> rfl

/-- Seen from the other side, the children swap. -/
theorem bin_other (d : Side) (c : Color) (x : RBTree α) (a : α) (y : RBTree α) :
    bin d.other c x a y = bin d c y a x := by cases d <;> rfl

theorem mem_bin {d : Side} {c : Color} {x y : RBTree α} {a b : α} :
    b ∈ (bin d c x a y).toList ↔ b ∈ x.toList ∨ b = a ∨ b ∈ y.toList := by
  cases d <;> simp only [bin, toList_node, List.mem_append, List.mem_cons]
  tauto

theorem eq_nil_of_root {t : RBTree α} (h : t.root = none) : t = nil := by
  cases t with
  | nil => rfl
  | node => simp at h

/-- A tree with a root, seen from the side `d`. -/
theorem exists_bin {t : RBTree α} {a : α} (h : t.root = some a) (d : Side) :
    ∃ c x y, t = bin d c x a y := by
  cases t with
  | nil => simp at h
  | node c l b r =>
    obtain rfl : b = a := by simpa using h
    cases d
    exacts [⟨c, l, r, rfl⟩, ⟨c, r, l, rfl⟩]

/-- A tree is empty, or a node seen from the side `d`. -/
theorem nil_or_bin (t : RBTree α) (d : Side) : t = nil ∨ ∃ c x a y, t = bin d c x a y := by
  rcases h : t.root with _ | a
  · exact .inl (eq_nil_of_root h)
  · obtain ⟨c, x, y, ht⟩ := exists_bin h d
    exact .inr ⟨c, x, a, y, ht⟩

/-- A red tree is a red node, seen from the side `d`. -/
theorem exists_bin_of_red {t : RBTree α} (h : t.color = .red) (d : Side) :
    ∃ x a y, t = bin d .red x a y := by
  rcases nil_or_bin t d with rfl | ⟨c, x, a, y, rfl⟩
  · simp at h
  · obtain rfl : c = .red := by simpa using h
    exact ⟨x, a, y, rfl⟩

theorem mem_toList_of_root {t : RBTree α} {a : α} (h : t.root = some a) : a ∈ t.toList := by
  obtain ⟨c, x, y, rfl⟩ := exists_bin h .left
  simp [mem_bin]

theorem length_toList (t : RBTree α) : t.toList.length = t.size := by
  induction t with
  | nil => rfl
  | node c l a r ihl ihr => simp [size, ihl, ihr]; omega

@[simp] theorem height_bin (d : Side) (c : Color) (x : RBTree α) (a : α) (y : RBTree α) :
    (bin d c x a y).height = max x.height y.height + 1 := by
  cases d
  · rfl
  · exact congrArg (· + 1) (max_comm _ _)

theorem height_le_size (t : RBTree α) : t.height ≤ t.size := by
  induction t with
  | nil => exact le_rfl
  | node c l a r ihl ihr => simp only [height, size]; omega

theorem height_le_length (t : RBTree α) : t.height ≤ t.toList.length :=
  t.length_toList ▸ t.height_le_size

/-! ### Balance -/

/-- Balanced of black height `n`: no red node has a red child, and every way
    down to a leaf meets `n` black nodes. -/
def Balanced : RBTree α → ℕ → Prop
  | nil, n => n = 0
  | node .red l _ r, n => l.color = .black ∧ r.color = .black ∧ l.Balanced n ∧ r.Balanced n
  | node .black l _ r, n => ∃ k, n = k + 1 ∧ l.Balanced k ∧ r.Balanced k

/-- A red-black tree: balanced, with a black root. -/
def IsRB (t : RBTree α) : Prop := t.color = .black ∧ ∃ n, t.Balanced n

@[simp] theorem balanced_nil {n : ℕ} : (nil : RBTree α).Balanced n ↔ n = 0 := Iff.rfl

@[simp] theorem balanced_red {d : Side} {x y : RBTree α} {a : α} {n : ℕ} :
    (bin d .red x a y).Balanced n ↔
      x.color = .black ∧ y.color = .black ∧ x.Balanced n ∧ y.Balanced n := by
  cases d <;> simp only [bin, Balanced]
  tauto

@[simp] theorem balanced_black {d : Side} {x y : RBTree α} {a : α} {n : ℕ} :
    (bin d .black x a y).Balanced (n + 1) ↔ x.Balanced n ∧ y.Balanced n := by
  cases d <;> simp [bin, Balanced]
  tauto

theorem not_balanced_black_zero {d : Side} {x y : RBTree α} {a : α} :
    ¬(bin d .black x a y).Balanced 0 := by
  cases d <;> simp [bin, Balanced]

/-- A tree of positive black height has a root. -/
theorem Balanced.exists_bin {t : RBTree α} {n : ℕ} (h : t.Balanced (n + 1)) (d : Side) :
    ∃ c x a y, t = bin d c x a y := by
  rcases nil_or_bin t d with rfl | h'
  · simp at h
  · exact h'

/-- Painting the root of a balanced tree black keeps it balanced. -/
theorem Balanced.blacken {t : RBTree α} {n : ℕ} (h : t.Balanced n) :
    ∃ k, t.blacken.Balanced k := by
  cases t with
  | nil => exact ⟨n, h⟩
  | node c l a r =>
    cases c with
    | red => exact ⟨n + 1, n, rfl, h.2.2.1, h.2.2.2⟩
    | black => exact ⟨n, h⟩

theorem isRB_nil : (nil : RBTree α).IsRB := ⟨rfl, 0, rfl⟩

/-- The black nodes alone double the size from one to the next. -/
theorem Balanced.two_pow_le {t : RBTree α} {n : ℕ} (h : t.Balanced n) : 2 ^ n ≤ t.size + 1 := by
  induction t generalizing n with
  | nil => exact (congrArg (2 ^ ·) (balanced_nil.1 h)).le
  | node c l a r ihl ihr =>
    cases c with
    | red =>
      have := ihl h.2.2.1
      rw [size]
      omega
    | black =>
      obtain ⟨k, rfl, hl, hr⟩ := h
      have := ihl hl
      have := ihr hr
      rw [size, Nat.pow_succ]
      omega

/-- On a way down, at most every other node is red. -/
theorem Balanced.height_le {t : RBTree α} {n : ℕ} (h : t.Balanced n) :
    t.height ≤ 2 * n + if t.color = .red then 1 else 0 := by
  induction t generalizing n with
  | nil => exact Nat.zero_le _
  | node c l a r ihl ihr =>
    cases c with
    | red =>
      obtain ⟨hl, hr, hbl, hbr⟩ := h
      have hl := hl ▸ ihl hbl
      have hr := hr ▸ ihr hbr
      simp only [height, color_node, if_true, reduceCtorEq, if_false] at hl hr ⊢
      omega
    | black =>
      obtain ⟨k, rfl, hbl, hbr⟩ := h
      have hl := ihl hbl
      have hr := ihr hbr
      simp only [height, color_node, reduceCtorEq, if_false] at hl hr ⊢
      split_ifs at hl hr <;> omega

/-- The height of a red-black tree is logarithmic. -/
theorem IsRB.height_le {t : RBTree α} (h : t.IsRB) : t.height ≤ 2 * Nat.log 2 (t.size + 1) := by
  obtain ⟨hcolor, n, hn⟩ := h
  have hheight := hn.height_le
  rw [hcolor, if_neg (by decide)] at hheight
  have hlog : n ≤ Nat.log 2 (t.size + 1) := Nat.le_log_of_pow_le Nat.one_lt_two hn.two_pow_le
  omega

end RBTree

open Lib.RBTree

/-! ## Paths -/

/-- A frame of a path: a node without its child on the side `side`. -/
structure Frame (α : Type*) where
  side : Side
  color : Color
  key : α
  sib : RBTree α
  deriving DecidableEq, Repr

namespace Frame

/-- The node of the frame, with the missing child. -/
def fill (f : Frame α) (t : RBTree α) : RBTree α := bin f.side f.color t f.key f.sib

/-- The part of the frame before its hole, in order. -/
def before (f : Frame α) : List α :=
  match f.side with
  | .left => []
  | .right => f.sib.toList ++ [f.key]

/-- The part of the frame after its hole, in order. -/
def after (f : Frame α) : List α :=
  match f.side with
  | .left => f.key :: f.sib.toList
  | .right => []

theorem fill_mk (d : Side) (c : Color) (a : α) (s t : RBTree α) :
    (⟨d, c, a, s⟩ : Frame α).fill t = bin d c t a s := rfl

theorem toList_fill (f : Frame α) (t : RBTree α) :
    (f.fill t).toList = f.before ++ t.toList ++ f.after := by
  obtain ⟨_ | _, c, a, s⟩ := f <;> simp [fill, bin, before, after]

end Frame

/-- A path: the frames from a hole up to the root. -/
abbrev TreePath (α : Type*) := List (Frame α)

/-- The tree with `t` in the hole of the path. -/
def plug : TreePath α → RBTree α → RBTree α
  | [], t => t
  | f :: p, t => plug p (f.fill t)

namespace TreePath

/-- What is before the hole, in order. -/
def before : TreePath α → List α
  | [] => []
  | f :: p => before p ++ f.before

/-- What is after the hole, in order. -/
def after : TreePath α → List α
  | [] => []
  | f :: p => f.after ++ after p

/-- The node above the hole. -/
def parent : TreePath α → Option α
  | [] => none
  | f :: _ => some f.key

/-- The elements on the path and beside it. -/
def elems (p : TreePath α) : List α := before p ++ after p

@[simp] theorem before_nil : before ([] : TreePath α) = [] := rfl
@[simp] theorem after_nil : after ([] : TreePath α) = [] := rfl
@[simp] theorem parent_nil : parent ([] : TreePath α) = none := rfl
@[simp] theorem before_cons (f : Frame α) (p : TreePath α) :
    before (f :: p) = before p ++ f.before := rfl
@[simp] theorem after_cons (f : Frame α) (p : TreePath α) :
    after (f :: p) = f.after ++ after p := rfl
@[simp] theorem parent_cons (f : Frame α) (p : TreePath α) : parent (f :: p) = some f.key := rfl
@[simp] theorem elems_nil : elems ([] : TreePath α) = [] := rfl

theorem mem_elems_cons {f : Frame α} {p : TreePath α} {b : α} :
    b ∈ elems (f :: p) ↔ b = f.key ∨ b ∈ f.sib.toList ∨ b ∈ elems p := by
  obtain ⟨_ | _, c, a, s⟩ := f <;> simp [elems, Frame.before, Frame.after] <;> tauto

/-- The node above the hole is on the path. -/
theorem mem_elems_of_parent {p : TreePath α} {b : α} (h : parent p = some b) : b ∈ elems p := by
  cases p with
  | nil => simp at h
  | cons f p =>
    obtain rfl : f.key = b := by simpa using h
    exact mem_elems_cons.2 (.inl rfl)

end TreePath

@[simp] theorem plug_nil (t : RBTree α) : plug [] t = t := rfl
@[simp] theorem plug_cons (f : Frame α) (p : TreePath α) (t : RBTree α) :
    plug (f :: p) t = plug p (f.fill t) := rfl

theorem plug_append (p q : TreePath α) (t : RBTree α) : plug (p ++ q) t = plug q (plug p t) := by
  induction p generalizing t with
  | nil => rfl
  | cons f p ih => exact ih _

/-- Down a path and on in the subtree is a way down. -/
theorem length_add_height_le (p : TreePath α) (t : RBTree α) :
    p.length + t.height ≤ (plug p t).height := by
  induction p generalizing t with
  | nil => exact (Nat.zero_add _).le
  | cons f p ih =>
    have hfill := ih (f.fill t)
    rw [Frame.fill, height_bin] at hfill
    rw [plug, List.length_cons, Frame.fill]
    omega

/-- A subtree, seen from its sibling. -/
theorem plug_sibling (d : Side) (c : Color) (a : α) (s t : RBTree α) (p : TreePath α) :
    plug (⟨d.other, c, a, s⟩ :: p) t = plug p (bin d c s a t) := by
  rw [plug_cons, Frame.fill_mk, bin_other]

/-- The in-order sequence splits at a focus. -/
theorem toList_plug (p : TreePath α) (t : RBTree α) :
    (plug p t).toList = p.before ++ t.toList ++ p.after := by
  induction p generalizing t with
  | nil => simp
  | cons f p ih => simp [ih, Frame.toList_fill]

theorem mem_plug {p : TreePath α} {t : RBTree α} {b : α} :
    b ∈ (plug p t).toList ↔ b ∈ p.elems ∨ b ∈ t.toList := by
  simp only [toList_plug, TreePath.elems, List.mem_append]
  tauto

/-- Trees with the same in-order sequence are interchangeable in a hole. -/
theorem toList_plug_congr (p : TreePath α) {t t' : RBTree α} (h : t'.toList = t.toList) :
    (plug p t').toList = (plug p t).toList := by
  rw [toList_plug, toList_plug, h]

/-- Every element of a tree is at the root of a focus. -/
theorem exists_plug_of_mem {t : RBTree α} {a : α} (h : a ∈ t.toList) :
    ∃ p c l r, t = plug p (node c l a r) := by
  suffices H : ∀ (t : RBTree α) (q : TreePath α), a ∈ t.toList →
      ∃ p c l r, plug q t = plug p (node c l a r) from H t [] h
  intro t
  induction t with
  | nil => exact fun _ h => absurd h List.not_mem_nil
  | node c l b r ihl ihr =>
    intro q h
    simp only [toList_node, List.mem_append, List.mem_cons] at h
    rcases h with h | rfl | h
    · exact ihl (⟨.left, c, b, r⟩ :: q) h
    · exact ⟨q, c, l, r, rfl⟩
    · exact ihr (⟨.right, c, b, l⟩ :: q) h

/-- A tree is without repetitions if the path and the subtree of a focus are, and
    have no element in common. -/
theorem nodup_plug {p : TreePath α} {t : RBTree α} :
    (plug p t).toList.Nodup ↔ p.elems.Nodup ∧ t.toList.Nodup ∧ ∀ b ∈ t.toList, b ∉ p.elems := by
  have hperm : (plug p t).toList.Perm (t.toList ++ p.elems) := by
    rw [toList_plug, TreePath.elems, ← List.append_assoc]
    exact List.perm_append_comm.append_right _
  rw [hperm.nodup_iff, List.nodup_append]
  constructor
  · rintro ⟨ht, hp, hd⟩
    exact ⟨hp, ht, fun b hb hb' => hd b hb b hb' rfl⟩
  · rintro ⟨hp, ht, hd⟩
    refine ⟨ht, hp, ?_⟩
    rintro b hb _ hb' rfl
    exact hd b hb hb'

/-- In a tree without repetitions, a focus has no element both in the subtree
    and on the path. -/
theorem not_mem_of_nodup {p : TreePath α} {t : RBTree α} (h : (plug p t).toList.Nodup) {b : α}
    (hb : b ∈ t.toList) : b ∉ p.elems :=
  (nodup_plug.1 h).2.2 b hb

theorem nodup_of_plug {p : TreePath α} {t : RBTree α} (h : (plug p t).toList.Nodup) :
    t.toList.Nodup :=
  (nodup_plug.1 h).2.1

theorem nodup_bin {d : Side} {c : Color} {x y : RBTree α} {a : α} :
    (bin d c x a y).toList.Nodup ↔ x.toList.Nodup ∧ y.toList.Nodup ∧ a ∉ x.toList ∧
      a ∉ y.toList ∧ ∀ b ∈ x.toList, b ∉ y.toList := by
  cases d <;>
    simp only [bin, toList_node, List.nodup_append, List.nodup_cons, List.mem_cons] <;>
    constructor
  · rintro ⟨hx, ⟨hay, hy⟩, hd⟩
    exact ⟨hx, hy, fun ha => hd a ha a (.inl rfl) rfl, hay,
      fun b hb hb' => hd b hb b (.inr hb') rfl⟩
  · rintro ⟨hx, hy, hax, hay, hd⟩
    refine ⟨hx, ⟨hay, hy⟩, fun b hb b' hb' e => ?_⟩
    subst e
    rcases hb' with rfl | hb'
    exacts [hax hb, hd b hb hb']
  · rintro ⟨hy, ⟨hax, hx⟩, hd⟩
    exact ⟨hx, hy, hax, fun ha => hd a ha a (.inl rfl) rfl,
      fun b hb hb' => hd b hb' b (.inr hb) rfl⟩
  · rintro ⟨hx, hy, hax, hay, hd⟩
    refine ⟨hy, ⟨hax, hx⟩, fun b hb b' hb' e => ?_⟩
    subst e
    rcases hb' with rfl | hb'
    exacts [hay hb, hd b hb' hb]

/-! ### Balance at a focus -/

/-- The path accepts, in its hole, a balanced tree of colour `c` and black
    height `n`. -/
def Fits : TreePath α → Color → ℕ → Prop
  | [], c, _ => c = .black
  | ⟨_, .red, _, s⟩ :: p, c, n => c = .black ∧ s.color = .black ∧ s.Balanced n ∧ Fits p .red n
  | ⟨_, .black, _, s⟩ :: p, _, n => s.Balanced n ∧ Fits p .black (n + 1)

@[simp] theorem fits_nil {c : Color} {n : ℕ} : Fits ([] : TreePath α) c n ↔ c = .black := Iff.rfl

@[simp] theorem fits_red {d : Side} {a : α} {s : RBTree α} {p : TreePath α} {c : Color} {n : ℕ} :
    Fits (⟨d, .red, a, s⟩ :: p) c n ↔
      c = .black ∧ s.color = .black ∧ s.Balanced n ∧ Fits p .red n := Iff.rfl

@[simp] theorem fits_black {d : Side} {a : α} {s : RBTree α} {p : TreePath α} {c : Color} {n : ℕ} :
    Fits (⟨d, .black, a, s⟩ :: p) c n ↔ s.Balanced n ∧ Fits p .black (n + 1) := Iff.rfl

/-- A path accepting a red tree has a black node above its hole: it is not empty. -/
theorem Fits.exists_black {p : TreePath α} {n : ℕ} (h : Fits p .red n) :
    ∃ d a s q, p = ⟨d, .black, a, s⟩ :: q ∧ s.Balanced n ∧ Fits q .black (n + 1) := by
  match p, h with
  | [], h => simp at h
  | ⟨d, .red, a, s⟩ :: q, h => simp at h
  | ⟨d, .black, a, s⟩ :: q, h => exact ⟨d, a, s, q, rfl, h.1, h.2⟩

/-- A path accepting a tree of some colour accepts a black one. -/
theorem Fits.black {p : TreePath α} {c : Color} {n : ℕ} (h : Fits p c n) : Fits p .black n := by
  match p, h with
  | [], _ => rfl
  | ⟨_, .red, _, _⟩ :: _, h => exact ⟨rfl, h.2⟩
  | ⟨_, .black, _, _⟩ :: _, h => exact h

/-- A tree is red-black iff, at a focus, the subtree is balanced and the path
    accepts it. -/
theorem isRB_plug {p : TreePath α} {t : RBTree α} :
    (plug p t).IsRB ↔ ∃ n, Fits p t.color n ∧ t.Balanced n := by
  induction p generalizing t with
  | nil => simp [IsRB]
  | cons f p ih =>
    obtain ⟨d, c, a, s⟩ := f
    rw [plug_cons, ih]
    cases c with
    | red =>
      simp only [Frame.fill, color_bin, balanced_red, fits_red]
      constructor
      · rintro ⟨n, hp, h₁, h₂, h₃, h₄⟩
        exact ⟨n, ⟨h₁, h₂, h₄, hp⟩, h₃⟩
      · rintro ⟨n, ⟨h₁, h₂, h₄, hp⟩, h₃⟩
        exact ⟨n, hp, h₁, h₂, h₃, h₄⟩
    | black =>
      simp only [Frame.fill, color_bin, fits_black]
      constructor
      · rintro ⟨n, hp, hb⟩
        cases n with
        | zero => exact absurd hb not_balanced_black_zero
        | succ n =>
          rw [balanced_black] at hb
          exact ⟨n, ⟨hb.2, hp⟩, hb.1⟩
      · rintro ⟨n, ⟨hs, hp⟩, ht⟩
        exact ⟨n + 1, hp, balanced_black.2 ⟨ht, hs⟩⟩

end Lib
