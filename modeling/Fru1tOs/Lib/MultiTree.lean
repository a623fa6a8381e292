import Mathlib

/-!
# Multiway search trees

Trees whose nodes have several entries, `(key, value)`, as B-trees do: a leaf is a
list of entries; the entries of an inner node separate its children. Nodes have a
name (the address, for a tree in memory).

A node and the row of the children of a node, with the entries between them, are
the two kinds of one inductive family, `MultiTree`, so that an induction goes
through both. The shape is not restricted: leaves may be at any depth, and nodes
have any number of entries.

* `lookup_cons_of_lt` and the others: in an ordered tree, the entry of a key is found by
  following one child.
* `toList_erase`: removing the entry of a key from the leaves removes it from
  the tree.
-/

namespace Lib

/-- A tree, or the row of the children of a node. -/
inductive Kind
  | tree
  | row
  deriving DecidableEq, Repr

/-- The multiway trees with nodes named by `P`, and their rows. -/
inductive MultiTree (P K V : Type) : Kind → Type
  | leaf (p : P) (es : List (K × V)) : MultiTree P K V .tree
  | node (p : P) (r : MultiTree P K V .row) : MultiTree P K V .tree
  | last (t : MultiTree P K V .tree) : MultiTree P K V .row
  | cons (t : MultiTree P K V .tree) (k : K) (v : V) (r : MultiTree P K V .row) :
      MultiTree P K V .row

namespace MultiTree

variable {P K V : Type} {b : Kind}

/-- The entries, in order. -/
def toList : {b : Kind} → MultiTree P K V b → List (K × V)
  | _, leaf _ es => es
  | _, node _ r => r.toList
  | _, last t => t.toList
  | _, cons t k v r => t.toList ++ (k, v) :: r.toList

/-- The entries of the leaves, in order. -/
def leafList : {b : Kind} → MultiTree P K V b → List (K × V)
  | _, leaf _ es => es
  | _, node _ r => r.leafList
  | _, last t => t.leafList
  | _, cons t _ _ r => t.leafList ++ r.leafList

/-- The keys in the leaves, in order. -/
def leafKeys (t : MultiTree P K V b) : List K := t.leafList.map Prod.fst

/-- The names of the nodes. -/
def names : {b : Kind} → MultiTree P K V b → List P
  | _, leaf p _ => [p]
  | _, node p r => p :: r.names
  | _, last t => t.names
  | _, cons t _ _ r => t.names ++ r.names

/-- The number of entries of a row itself, without those of the children. -/
def width : MultiTree P K V .row → ℕ
  | last _ => 0
  | cons _ _ _ r => r.width + 1

/-- The number of nodes on a longest path down. -/
def height : {b : Kind} → MultiTree P K V b → ℕ
  | _, leaf _ _ => 1
  | _, node _ r => r.height + 1
  | _, last t => t.height
  | _, cons t _ _ r => max t.height r.height

/-- All leaves are at the depth `n`. -/
def Level : {b : Kind} → ℕ → MultiTree P K V b → Prop
  | _, n, leaf _ _ => n = 1
  | _, n, node _ r => ∃ n', n = n' + 1 ∧ r.Level n'
  | _, n, last t => t.Level n
  | _, n, cons t _ _ r => t.Level n ∧ r.Level n

/-- The entries in ascending order of their keys, each key occurring once: the keys of a node
    are ascending, and those of its children lie strictly between the ones around them. -/
def Ordered [LT K] (t : MultiTree P K V b) : Prop := t.toList.Pairwise fun e e' => e.1 < e'.1

/-- The tree without the entry of the key `k` in the leaves. -/
def erase [DecidableEq K] (k : K) : {b : Kind} → MultiTree P K V b → MultiTree P K V b
  | _, leaf p es => leaf p (es.filter (·.1 ≠ k))
  | _, node p r => node p (r.erase k)
  | _, last t => last (t.erase k)
  | _, cons t k' v r => cons (t.erase k) k' v (r.erase k)

/-- The inner nodes, with their entries and children. Of the leaves there is only the name. -/
def skeleton : {b : Kind} → MultiTree P K V b → MultiTree P K V b
  | _, leaf p _ => leaf p []
  | _, node p r => node p r.skeleton
  | _, last t => last t.skeleton
  | _, cons t k v r => cons t.skeleton k v r.skeleton

/-- The entry `(k, v)` in its place in a list of entries in order. -/
def insertEntry [LT K] [DecidableLT K] (k : K) (v : V) (es : List (K × V)) : List (K × V) :=
  es.takeWhile (fun e => e.1 < k) ++ (k, v) :: es.dropWhile fun e => e.1 < k

/-- The tree with the entry `(k, v)` in the leaf for it. -/
def insert [LT K] [DecidableLT K] (k : K) (v : V) :
    {b : Kind} → MultiTree P K V b → MultiTree P K V b
  | _, leaf p es => leaf p (insertEntry k v es)
  | _, node p r => node p (r.insert k v)
  | _, last t => last (t.insert k v)
  | _, cons t k' v' r =>
    if k < k' then cons (t.insert k v) k' v' r else cons t k' v' (r.insert k v)

/-- The nodes on the way to the leaf for the key `k` have less than `n` entries. -/
def Room [LT K] [DecidableLT K] (n : ℕ) (k : K) : {b : Kind} → MultiTree P K V b → Prop
  | _, leaf _ es => es.length < n
  | _, node _ r => r.width < n ∧ r.Room n k
  | _, last t => t.Room n k
  | _, cons t k' _ r => if k < k' then t.Room n k else r.Room n k

theorem mem_toList_of_mem_leafList {t : MultiTree P K V b} {e : K × V} (h : e ∈ t.leafList) :
    e ∈ t.toList := by
  induction t with
  | leaf p es => exact h
  | node p r ih => exact ih h
  | last t ih => exact ih h
  | cons t k v r iht ihr =>
    rcases List.mem_append.1 h with h | h
    · exact List.mem_append_left _ (iht h)
    · exact List.mem_append_right _ (List.mem_cons_of_mem _ (ihr h))

theorem mem_leafKeys {t : MultiTree P K V b} {k : K} :
    k ∈ t.leafKeys ↔ ∃ v, (k, v) ∈ t.leafList := by
  simp [leafKeys]

theorem leafKeys_cons {t : MultiTree P K V .tree} {k : K} {v : V} {r : MultiTree P K V .row} :
    (cons t k v r).leafKeys = t.leafKeys ++ r.leafKeys := by
  rw [leafKeys, leafList, List.map_append, leafKeys, leafKeys]

/-- A key that no entry has is in no leaf. -/
theorem not_mem_leafKeys {t : MultiTree P K V b} {k : K} (h : ∀ e ∈ t.toList, e.1 ≠ k) :
    k ∉ t.leafKeys := fun hk => by
  obtain ⟨v, hv⟩ := mem_leafKeys.1 hk
  exact h _ (mem_toList_of_mem_leafList hv) rfl

/-! ## Order -/

section Order

variable [LinearOrder K]

theorem ordered_cons {t : MultiTree P K V .tree} {k : K} {v : V} {r : MultiTree P K V .row} :
    (cons t k v r).Ordered ↔ t.Ordered ∧ r.Ordered ∧ (∀ e ∈ t.toList, e.1 < k) ∧
      ∀ e ∈ r.toList, k < e.1 := by
  rw [Ordered, toList, List.pairwise_append, List.pairwise_cons]
  constructor
  · rintro ⟨ht, ⟨hk, hr⟩, hlt⟩
    exact ⟨ht, hr, fun e he => hlt e he (k, v) List.mem_cons_self, hk⟩
  · rintro ⟨ht, hr, hlt, hk⟩
    refine ⟨ht, ⟨hk, hr⟩, fun e he e' he' => ?_⟩
    rcases List.mem_cons.1 he' with rfl | he'
    · exact hlt e he
    · exact (hlt e he).trans (hk e' he')

/-- A key that no entry has is not found. -/
theorem lookup_eq_none {l : List (K × V)} {k : K} (h : ∀ e ∈ l, e.1 ≠ k) : l.lookup k = none :=
  List.lookup_eq_none_iff.2 fun e he => by simpa [beq_eq_false_iff_ne] using (h e he).symm

theorem mem_of_lookup {l : List (K × V)} {k : K} {v : V} (h : l.lookup k = some v) :
    (k, v) ∈ l := by
  obtain ⟨l₁, l₂, rfl, -⟩ := List.lookup_eq_some_iff.1 h
  exact List.mem_append_right _ List.mem_cons_self

/-- In a list of entries in order, what is found is the value next to the key. -/
theorem lookup_of_mem {l : List (K × V)} (hl : l.Pairwise fun e e' => e.1 < e'.1) {k : K} {v : V}
    (h : (k, v) ∈ l) : l.lookup k = some v := by
  obtain ⟨l₁, l₂, rfl⟩ := List.append_of_mem h
  refine List.lookup_eq_some_iff.2 ⟨l₁, l₂, rfl, fun e he => ?_⟩
  have := (List.pairwise_append.1 hl).2.2 e he (k, v) List.mem_cons_self
  simpa using this.ne'

/-- Entries of other keys do not matter. -/
theorem lookup_filter_of_ne {l : List (K × V)} {k k' : K} (hne : k' ≠ k) :
    (l.filter (·.1 ≠ k)).lookup k' = l.lookup k' := by
  induction l with
  | nil => rfl
  | cons e l ih =>
    rw [List.filter_cons]
    by_cases he : e.1 = k
    · rw [if_neg (by simpa using he), ih, List.lookup_cons, beq_eq_false_iff_ne.2 (he ▸ hne)]
    · rw [if_pos (decide_eq_true he), List.lookup_cons, List.lookup_cons, ih]

/-- In a list of entries in order, the entry of a key is the first one whose key is not
    smaller. -/
theorem lookup_eq_getElem? {l : List (K × V)} (h : l.Pairwise fun e e' => e.1 < e'.1) (k : K) :
    l.lookup k = (l[(l.takeWhile fun e => e.1 < k).length]?).bind fun e =>
      if e.1 = k then some e.2 else none := by
  induction l with
  | nil => rfl
  | cons e l ih =>
    obtain ⟨he, hl⟩ := List.pairwise_cons.1 h
    rw [List.lookup_cons, List.takeWhile_cons]
    rcases lt_trichotomy e.1 k with hlt | rfl | hgt
    · rw [beq_eq_false_iff_ne.2 hlt.ne', if_pos (decide_eq_true hlt), List.length_cons,
        List.getElem?_cons_succ, ih hl]
    · simp
    · have hnone : l.lookup k = none := lookup_eq_none fun e' he' => (hgt.trans (he e' he')).ne'
      rw [beq_eq_false_iff_ne.2 hgt.ne, if_neg (by simpa using hgt.le)]
      simpa [hgt.ne'] using hnone

/-- In a list of entries in order, the entry of a key is removed at its index. -/
theorem filter_eq_eraseIdx {l : List (K × V)} (h : l.Pairwise fun e e' => e.1 < e'.1) {k : K}
    {e : K × V} (he : l[(l.takeWhile fun e => e.1 < k).length]? = some e) (hk : e.1 = k) :
    l.filter (·.1 ≠ k) = l.eraseIdx (l.takeWhile fun e => e.1 < k).length := by
  induction l with
  | nil => rfl
  | cons a l ih =>
    obtain ⟨ha, hl⟩ := List.pairwise_cons.1 h
    rw [List.takeWhile_cons] at he ⊢
    by_cases hlt : a.1 < k
    · rw [if_pos (decide_eq_true hlt), List.length_cons] at he ⊢
      rw [List.getElem?_cons_succ] at he
      rw [List.eraseIdx_cons_succ, ← ih hl he, List.filter_cons, if_pos (decide_eq_true hlt.ne)]
    · rw [if_neg (by simpa using hlt), List.length_nil] at he ⊢
      rw [List.getElem?_cons_zero, Option.some_inj] at he
      subst he hk
      rw [List.eraseIdx_cons_zero, List.filter_cons, if_neg (by simp)]
      exact List.filter_eq_self.2 fun e' he' => decide_eq_true (ha e' he').ne'

variable {t : MultiTree P K V .tree} {k k' : K} {v : V} {r : MultiTree P K V .row}

/-- A smaller key is looked for in the first child. -/
theorem lookup_cons_of_lt (h : (cons t k' v r).Ordered) (hk : k < k') :
    (cons t k' v r).toList.lookup k = t.toList.lookup k := by
  obtain ⟨-, -, -, hr⟩ := ordered_cons.1 h
  have hnone : ((k', v) :: r.toList).lookup k = none := by
    refine lookup_eq_none fun e he => ?_
    rcases List.mem_cons.1 he with rfl | he
    · exact hk.ne'
    · exact (hk.trans (hr e he)).ne'
  rw [toList, List.lookup_append, hnone, Option.or_none]

/-- The key of the first entry. -/
theorem lookup_cons_self (h : (cons t k v r).Ordered) :
    (cons t k v r).toList.lookup k = some v := by
  obtain ⟨-, -, ht, -⟩ := ordered_cons.1 h
  rw [toList, List.lookup_append, lookup_eq_none fun e he => (ht e he).ne, Option.none_or,
    List.lookup_cons_self]

/-- A greater key is looked for in the rest of the row. -/
theorem lookup_cons_of_gt (h : (cons t k' v r).Ordered) (hk : k' < k) :
    (cons t k' v r).toList.lookup k = r.toList.lookup k := by
  obtain ⟨-, -, ht, -⟩ := ordered_cons.1 h
  rw [toList, List.lookup_append, lookup_eq_none fun e he => ((ht e he).trans hk).ne,
    Option.none_or, List.lookup_cons, beq_eq_false_iff_ne.2 hk.ne']

end Order

/-! ## Removing an entry -/

section Erase

variable [LinearOrder K] {k : K}

@[simp] theorem names_erase (t : MultiTree P K V b) : (t.erase k).names = t.names := by
  induction t with
  | leaf p es => rfl
  | node p r ih => rw [erase, names, names, ih]
  | last t ih => rw [erase, names, names, ih]
  | cons t k' v r iht ihr => rw [erase, names, names, iht, ihr]

@[simp] theorem height_erase (t : MultiTree P K V b) : (t.erase k).height = t.height := by
  induction t with
  | leaf p es => rfl
  | node p r ih => rw [erase, height, height, ih]
  | last t ih => rw [erase, height, height, ih]
  | cons t k' v r iht ihr => rw [erase, height, height, iht, ihr]

/-- A row keeps its own entries. -/
@[simp] theorem width_erase : ∀ r : MultiTree P K V .row, (r.erase k).width = r.width
  | last t => by rw [erase, width, width]
  | cons t k' v r => by rw [erase, width, width, width_erase r]

@[simp] theorem skeleton_erase (t : MultiTree P K V b) : (t.erase k).skeleton = t.skeleton := by
  induction t with
  | leaf p es => rfl
  | node p r ih => rw [erase, skeleton, skeleton, ih]
  | last t ih => rw [erase, skeleton, skeleton, ih]
  | cons t k' v r iht ihr => rw [erase, skeleton, skeleton, iht, ihr]

/-- The leaves of a tree where no leaf has the key stay as they are. -/
theorem erase_eq_self {t : MultiTree P K V b} (h : k ∉ t.leafKeys) : t.erase k = t := by
  induction t with
  | leaf p es =>
    have hes : es.filter (·.1 ≠ k) = es :=
      List.filter_eq_self.2 fun e he => decide_eq_true fun heq =>
        h (List.mem_map.2 ⟨e, he, heq⟩)
    rw [erase, hes]
  | node p r ih => rw [erase, ih h]
  | last t ih => rw [erase, ih h]
  | cons t k' v r iht ihr =>
    rw [leafKeys_cons, List.mem_append, not_or] at h
    rw [erase, iht h.1, ihr h.2]

/-- In an ordered tree, removing the entry of a key from the leaves, one of which has it,
    removes it from the tree. -/
theorem toList_erase {t : MultiTree P K V b} (h : t.Ordered) (hk : k ∈ t.leafKeys) :
    (t.erase k).toList = t.toList.filter (·.1 ≠ k) := by
  induction t with
  | leaf p es => rfl
  | node p r ih => exact ih h hk
  | last t ih => exact ih h hk
  | cons t k' v' r iht ihr =>
    obtain ⟨ht, hr, htk, hrk⟩ := ordered_cons.1 h
    have hfilter : ∀ {l : List (K × V)}, (∀ e ∈ l, e.1 ≠ k) → l.filter (·.1 ≠ k) = l :=
      fun hl => List.filter_eq_self.2 fun e he => decide_eq_true (hl e he)
    rw [erase, toList, toList, List.filter_append, List.filter_cons]
    rw [leafKeys_cons, List.mem_append] at hk
    rcases hk with hk | hk
    · obtain ⟨v, hv⟩ := mem_leafKeys.1 hk
      have hlt : k < k' := htk _ (mem_toList_of_mem_leafList hv)
      have hne : ∀ e ∈ r.toList, e.1 ≠ k := fun e he => (hlt.trans (hrk e he)).ne'
      rw [iht ht hk, erase_eq_self (not_mem_leafKeys hne), hfilter hne,
        if_pos (decide_eq_true hlt.ne')]
    · obtain ⟨v, hv⟩ := mem_leafKeys.1 hk
      have hgt : k' < k := hrk _ (mem_toList_of_mem_leafList hv)
      have hne : ∀ e ∈ t.toList, e.1 ≠ k := fun e he => ((htk e he).trans hgt).ne
      rw [ihr hr hk, erase_eq_self (not_mem_leafKeys hne), hfilter hne,
        if_pos (decide_eq_true hgt.ne)]

theorem Ordered.erase {t : MultiTree P K V b} (h : t.Ordered) (k : K) : (t.erase k).Ordered := by
  by_cases hk : k ∈ t.leafKeys
  · rw [Ordered, toList_erase h hk]
    exact List.Pairwise.filter _ h
  · rwa [erase_eq_self hk]

end Erase

/-! ## Adding an entry -/

section Insert

variable [LinearOrder K] {k : K} {v : V}

@[simp] theorem names_insert (t : MultiTree P K V b) : (t.insert k v).names = t.names := by
  induction t with
  | leaf p es => rfl
  | node p r ih => rw [insert, names, names, ih]
  | last t ih => rw [insert, names, names, ih]
  | cons t k' v' r iht ihr =>
    rw [insert]
    split_ifs
    · rw [names, names, iht]
    · rw [names, names, ihr]

@[simp] theorem height_insert (t : MultiTree P K V b) : (t.insert k v).height = t.height := by
  induction t with
  | leaf p es => rfl
  | node p r ih => rw [insert, height, height, ih]
  | last t ih => rw [insert, height, height, ih]
  | cons t k' v' r iht ihr =>
    rw [insert]
    split_ifs
    · rw [height, height, iht]
    · rw [height, height, ihr]

/-- A row keeps its own entries. -/
@[simp] theorem width_insert : ∀ r : MultiTree P K V .row, (r.insert k v).width = r.width
  | last t => by rw [insert, width, width]
  | cons t k' v' r => by
    rw [insert]
    split_ifs
    · rw [width, width]
    · rw [width, width, width_insert r]

theorem mem_insertEntry {es : List (K × V)} {e : K × V} :
    e ∈ insertEntry k v es ↔ e = (k, v) ∨ e ∈ es := by
  rw [insertEntry, List.mem_append, List.mem_cons]
  conv_rhs => rw [← List.takeWhile_append_dropWhile (p := fun e => decide (e.1 < k)) (l := es),
    List.mem_append]
  tauto

theorem mem_toList_insert {t : MultiTree P K V b} {e : K × V} :
    e ∈ (t.insert k v).toList ↔ e = (k, v) ∨ e ∈ t.toList := by
  induction t with
  | leaf p es => exact mem_insertEntry
  | node p r ih => exact ih
  | last t ih => exact ih
  | cons t k' v' r iht ihr =>
    rw [insert]
    split_ifs
    · rw [toList, toList, List.mem_append, List.mem_append, iht]
      tauto
    · rw [toList, toList, List.mem_append, List.mem_append, List.mem_cons, List.mem_cons, ihr]
      tauto

theorem lt_of_mem_dropWhile {es : List (K × V)} (h : es.Pairwise fun e e' => e.1 < e'.1)
    (hk : ∀ e ∈ es, e.1 ≠ k) : ∀ e ∈ es.dropWhile fun e => e.1 < k, k < e.1 := by
  induction es with
  | nil => simp
  | cons a es ih =>
    obtain ⟨ha, hes⟩ := List.pairwise_cons.1 h
    rw [List.dropWhile_cons]
    by_cases hlt : a.1 < k
    · rw [if_pos (decide_eq_true hlt)]
      exact ih hes fun e he => hk e (List.mem_cons_of_mem _ he)
    · have hgt : k < a.1 := lt_of_le_of_ne (not_lt.1 hlt) (hk a List.mem_cons_self).symm
      rw [if_neg (by simpa using hlt)]
      intro e he
      rcases List.mem_cons.1 he with rfl | he
      · exact hgt
      · exact hgt.trans (ha e he)

theorem pairwise_insertEntry {es : List (K × V)} (h : es.Pairwise fun e e' => e.1 < e'.1)
    (hk : ∀ e ∈ es, e.1 ≠ k) : (insertEntry k v es).Pairwise fun e e' => e.1 < e'.1 := by
  have hsplit := List.takeWhile_append_dropWhile (p := fun e : K × V => decide (e.1 < k)) (l := es)
  have htake : ∀ e ∈ es.takeWhile fun e => e.1 < k, e.1 < k := fun e he => by
    simpa using List.all_eq_true.1 List.all_takeWhile e he
  have hdrop := lt_of_mem_dropWhile h hk
  rw [← hsplit, List.pairwise_append] at h
  rw [insertEntry, List.pairwise_append, List.pairwise_cons]
  refine ⟨h.1, ⟨hdrop, h.2.1⟩, fun e he e' he' => ?_⟩
  rcases List.mem_cons.1 he' with rfl | he'
  · exact htake e he
  · exact (htake e he).trans (hdrop e' he')

/-- A new key keeps the order. -/
theorem Ordered.insert {t : MultiTree P K V b} (h : t.Ordered) (hk : ∀ e ∈ t.toList, e.1 ≠ k)
    (v : V) : (t.insert k v).Ordered := by
  induction t with
  | leaf p es => exact pairwise_insertEntry h hk
  | node p r ih => exact ih h hk
  | last t ih => exact ih h hk
  | cons t k' v' r iht ihr =>
    obtain ⟨ht, hr, htk, hrk⟩ := ordered_cons.1 h
    have hkt : ∀ e ∈ t.toList, e.1 ≠ k := fun e he => hk e (List.mem_append_left _ he)
    have hkr : ∀ e ∈ r.toList, e.1 ≠ k := fun e he =>
      hk e (List.mem_append_right _ (List.mem_cons_of_mem _ he))
    have hk' : k' ≠ k := hk (k', v') (List.mem_append_right _ List.mem_cons_self)
    rw [MultiTree.insert]
    split_ifs with hlt
    · refine ordered_cons.2 ⟨iht ht hkt, hr, fun e he => ?_, hrk⟩
      rcases mem_toList_insert.1 he with rfl | he
      · exact hlt
      · exact htk e he
    · refine ordered_cons.2 ⟨ht, ihr hr hkr, htk, fun e he => ?_⟩
      rcases mem_toList_insert.1 he with rfl | he
      · exact lt_of_le_of_ne (not_lt.1 hlt) hk'
      · exact hrk e he

end Insert

end MultiTree

end Lib
