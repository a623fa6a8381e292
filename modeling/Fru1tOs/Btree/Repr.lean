import Fru1tOs.Btree.Basic
import Fru1tOs.Lib.MultiTree

/-!
# What a B-tree in memory represents

A tree in memory stores (`Stored`) a multiway tree of addresses: every node is at its
address with the number of its keys, which is within capacity, the keys, the
values, the children and the leaf mark. Only order (`Ordered`) makes it a search tree; the
shape is arbitrary, and leaves may be empty.
-/

namespace Fru1tOs

open Lib MultiTree

variable {s s' : BtreeMem} {p i j : ℕ} {a : NodeArray}

/-! ## Fields -/

@[simp] theorem base_keys : NodeArray.keys.base = 1 := rfl
@[simp] theorem base_values : NodeArray.values.base = 5 := rfl
@[simp] theorem base_children : NodeArray.children.base = 9 := rfl
@[simp] theorem capacity_keys : NodeArray.keys.capacity = 4 := rfl
@[simp] theorem capacity_values : NodeArray.values.capacity = 4 := rfl
@[simp] theorem capacity_children : NodeArray.children.capacity = 5 := rfl

namespace BtreeMem

@[simp] theorem access_true (s : BtreeMem) : s.access true = s := by
  rw [access, Bool.and_true]

@[simp] theorem words_access (s : BtreeMem) (ok : Bool) : (s.access ok).words = s.words := rfl

@[simp] theorem words_setNode_self (s : BtreeMem) (p : ℕ) (w : ℕ → ℕ) :
    (s.setNode p w).words p = w := Function.update_self ..

theorem words_setNode_of_ne {q : ℕ} (h : q ≠ p) (s : BtreeMem) (w : ℕ → ℕ) :
    (s.setNode p w).words q = s.words q := Function.update_of_ne h ..

@[simp] theorem setNode_self (s : BtreeMem) (p : ℕ) : s.setNode p (s.words p) = s := by
  rw [setNode, Function.update_eq_self]

@[simp] theorem setNode_setNode (s : BtreeMem) (p : ℕ) (w w' : ℕ → ℕ) :
    (s.setNode p w).setNode p w' = s.setNode p w' :=
  congrArg (fun m => { s with words := m }) (Function.update_idem ..)

@[simp] theorem access_setNode (s : BtreeMem) (p : ℕ) (w : ℕ → ℕ) (ok : Bool) :
    (s.setNode p w).access ok = (s.access ok).setNode p w := rfl

/-- The memory with other nodes. -/
def withWords (s : BtreeMem) (m : ℕ → ℕ → ℕ) : BtreeMem := { s with words := m }

@[simp] theorem words_withWords (s : BtreeMem) (m : ℕ → ℕ → ℕ) : (s.withWords m).words = m := rfl

@[simp] theorem calls_setNode (s : BtreeMem) (p : ℕ) (w : ℕ → ℕ) :
    (s.setNode p w).calls = s.calls := rfl
@[simp] theorem fresh_setNode (s : BtreeMem) (p : ℕ) (w : ℕ → ℕ) :
    (s.setNode p w).fresh = s.fresh := rfl
@[simp] theorem inBounds_setNode (s : BtreeMem) (p : ℕ) (w : ℕ → ℕ) :
    (s.setNode p w).inBounds = s.inBounds := rfl

end BtreeMem

theorem run_loadWord (hp : p ≠ 0) (i : ℕ) (s : BtreeMem) :
    (loadWord p i).run s = some (s.words p i, s) := if_neg hp

theorem run_storeWord (hp : p ≠ 0) (i v : ℕ) (s : BtreeMem) :
    (storeWord p i v).run s = some ((), s.setNode p (Function.update (s.words p) i v)) := if_neg hp

theorem run_numKeys (hp : p ≠ 0) (s : BtreeMem) :
    (numKeys p).run s = some (s.words p numKeysWord, s) := run_loadWord hp _ s

theorem run_setNumKeys (hp : p ≠ 0) (n : ℕ) (s : BtreeMem) :
    (setNumKeys p n).run s = some ((), s.setNode p (Function.update (s.words p) numKeysWord n)) :=
  run_storeWord hp _ n s

theorem run_isLeaf (hp : p ≠ 0) (s : BtreeMem) :
    (isLeaf p).run s = some (s.words p isLeafWord, s) := run_loadWord hp _ s

theorem run_setParent (hp : p ≠ 0) (v : ℕ) (s : BtreeMem) :
    (setParent p v).run s = some ((), s.setNode p (Function.update (s.words p) parentWord v)) :=
  run_storeWord hp _ v s

/-- An array access, whether or not it is in bounds. -/
theorem run_getAt_access (hp : p ≠ 0) (a : NodeArray) (i : ℕ) (s : BtreeMem) :
    (getAt a p i).run s = some (s.words p (a.base + i), s.access (i < a.capacity)) :=
  run_loadWord hp _ _

theorem run_getAt (hp : p ≠ 0) (hi : i < a.capacity) (s : BtreeMem) :
    (getAt a p i).run s = some (s.words p (a.base + i), s) := by
  rw [run_getAt_access hp, decide_eq_true hi, BtreeMem.access_true]

theorem run_setAt (hp : p ≠ 0) (hi : i < a.capacity) (v : ℕ) (s : BtreeMem) :
    (setAt a p i v).run s =
      some ((), s.setNode p (Function.update (s.words p) (a.base + i) v)) := by
  have h : (setAt a p i v).run s =
      (storeWord p (a.base + i) v).run (s.access (i < a.capacity)) := rfl
  rw [h, run_storeWord hp, decide_eq_true hi, BtreeMem.access_true]

/-- A copy between arrays, whether or not it is in bounds. -/
theorem run_copyAt_access {q : ℕ} (hq : q ≠ 0) (hp : p ≠ 0) (a : NodeArray) (j i : ℕ)
    (s : BtreeMem) :
    (copyAt a q j p i).run s = some ((),
      ((s.access (i < a.capacity)).access (j < a.capacity)).setNode q
        (Function.update (s.words q) (a.base + j) (s.words p (a.base + i)))) := by
  have h : (copyAt a q j p i).run s = (storeWord q (a.base + j) (s.words p (a.base + i))).run
      ((s.access (i < a.capacity)).access (j < a.capacity)) := by
    rw [copyAt, StateT.run_bind, run_getAt_access hp]
    rfl
  rw [h, run_storeWord hq]
  rfl

theorem run_copyAt {q : ℕ} (hq : q ≠ 0) (hp : p ≠ 0) (hj : j < a.capacity) (hi : i < a.capacity)
    (s : BtreeMem) :
    (copyAt a q j p i).run s = some ((),
      s.setNode q (Function.update (s.words q) (a.base + j) (s.words p (a.base + i)))) := by
  rw [run_copyAt_access hq hp, decide_eq_true hi, decide_eq_true hj, BtreeMem.access_true,
    BtreeMem.access_true]

/-! ## Trees in memory -/

/-- The entries are in the arrays of a node with the words `w`. -/
def HasEntries (w : ℕ → ℕ) (es : List (ℕ × ℕ)) : Prop :=
  ∀ i e, es[i]? = some e → w (NodeArray.keys.base + i) = e.1 ∧ w (NodeArray.values.base + i) = e.2

theorem HasEntries.update_numKeys {w : ℕ → ℕ} {es : List (ℕ × ℕ)} (h : HasEntries w es) (n : ℕ) :
    HasEntries (Function.update w numKeysWord n) es := fun i e he => by
  have hnum : numKeysWord = 0 := rfl
  rw [Function.update_of_ne (by rw [base_keys]; omega),
    Function.update_of_ne (by rw [base_values]; omega)]
  exact h i e he

/-- The tree is at the address `p`; the row is the one from the index `j` on of the node at
    the address `p`. -/
def Stored (m : ℕ → ℕ → ℕ) : {b : Kind} → ℕ → ℕ → MultiTree ℕ ℕ ℕ b → Prop
  | _, p, _, leaf q es => q = p ∧ p ≠ 0 ∧ m p numKeysWord = es.length ∧ es.length ≤ btreeMaxKeys ∧
      m p isLeafWord ≠ 0 ∧ HasEntries (m p) es
  | _, p, _, node q r => q = p ∧ p ≠ 0 ∧ m p numKeysWord = r.width ∧ r.width ≤ btreeMaxKeys ∧
      m p isLeafWord = 0 ∧ Stored m p 0 r
  | _, p, j, last t => Stored m (m p (NodeArray.children.base + j)) 0 t
  | _, p, j, cons t k v r => m p (NodeArray.keys.base + j) = k ∧
      m p (NodeArray.values.base + j) = v ∧
      Stored m (m p (NodeArray.children.base + j)) 0 t ∧ Stored m p (j + 1) r

variable {m m' : ℕ → ℕ → ℕ}

theorem Stored.mem_names {t : MultiTree ℕ ℕ ℕ .tree} (h : Stored m p j t) : p ∈ t.names := by
  cases t with
  | leaf q es => exact h.1 ▸ List.mem_singleton_self q
  | node q r => exact h.1 ▸ List.mem_cons_self

theorem Stored.ne_zero {t : MultiTree ℕ ℕ ℕ .tree} (h : Stored m p j t) : p ≠ 0 := by
  cases t with
  | leaf q es => exact h.2.1
  | node q r => exact h.2.1

/-- A tree depends only on the memory of its nodes. -/
theorem Stored.congr {b : Kind} {t : MultiTree ℕ ℕ ℕ b} (h : Stored m p j t) (hp : m' p = m p)
    (hm : ∀ q ∈ t.names, m' q = m q) : Stored m' p j t := by
  induction t generalizing p j with
  | leaf q es =>
    obtain ⟨hq, hp0, hn, hle, hleaf, hes⟩ := h
    exact ⟨hq, hp0, by rw [hp, hn], hle, by rwa [hp], by rwa [hp]⟩
  | node q r ih =>
    obtain ⟨hq, hp0, hn, hle, hleaf, hr⟩ := h
    exact ⟨hq, hp0, by rw [hp, hn], hle, by rw [hp, hleaf],
      ih hr hp fun q hq => hm q (List.mem_cons_of_mem _ hq)⟩
  | last t ih =>
    rw [Stored, hp]
    exact ih h (hm _ (Stored.mem_names h)) hm
  | cons t k v r iht ihr =>
    obtain ⟨hk, hv, ht, hr⟩ := h
    refine ⟨by rw [hp, hk], by rw [hp, hv], ?_, ?_⟩
    · rw [hp]
      exact iht ht (hm _ (List.mem_append_left _ ht.mem_names)) fun q hq =>
        hm q (List.mem_append_left _ hq)
    · exact ihr hr hp fun q hq => hm q (List.mem_append_right _ hq)

/-! ## Search -/

/-- The index of a key in a leaf. -/
theorem run_findFrom_leaf {es : List (ℕ × ℕ)} (hp : p ≠ 0) (hes : HasEntries (s.words p) es)
    (hle : es.length ≤ btreeMaxKeys) (key : ℕ) (l : List (ℕ × ℕ)) (hl : es.drop j = l) :
    (findFrom p key l.length j).run s =
      some (j + (l.takeWhile fun e => e.1 < key).length, s) := by
  induction l generalizing j with
  | nil => rfl
  | cons e l ih =>
    have hej : es[j]? = some e := by
      rw [← List.head?_drop, hl, List.head?_cons]
    have hj : j < es.length := (List.getElem?_eq_some_iff.1 hej).1
    have hl' : es.drop (j + 1) = l := by
      rw [← List.drop_drop, hl, List.drop_one, List.tail_cons]
    rw [List.length_cons, findFrom, StateT.run_bind,
      run_getAt (a := .keys) hp (lt_of_lt_of_le hj hle), Option.bind_eq_bind,
      Option.bind_some, (hes j e hej).1, List.takeWhile_cons]
    by_cases hlt : e.1 < key
    · rw [if_pos hlt, if_pos (decide_eq_true hlt), ih hl', List.length_cons]
      congr 2
      omega
    · rw [if_neg hlt, if_neg (by simpa using hlt)]
      rfl

/-- What `btree_search` does with the index of the key in the node. -/
def searchAt (key fuel node i : ℕ) : BtreeM ℕ := do
  if i < (← numKeys node) then
    if key = (← getAt .keys node i) then return ← getAt .values node i
  if (← isLeaf node) ≠ 0 then return 0
  btreeSearchFrom key fuel (← getAt .children node i)

theorem btreeSearchFrom_succ (key fuel : ℕ) (hp : p ≠ 0) :
    btreeSearchFrom key (fuel + 1) p = findKeyIndex p key >>= searchAt key fuel p := by
  rw [btreeSearchFrom, if_neg hp]
  rfl

variable {key fuel : ℕ}

theorem searchAt_found (hp : p ≠ 0) (hi : i < s.words p numKeysWord)
    (hn : s.words p numKeysWord ≤ btreeMaxKeys)
    (hk : s.words p (NodeArray.keys.base + i) = key) :
    (searchAt key fuel p i).run s = some (s.words p (NodeArray.values.base + i), s) := by
  have hi4 : i < btreeMaxKeys := lt_of_lt_of_le hi hn
  simp only [searchAt, StateT.run_bind, run_numKeys hp, Option.bind_eq_bind, Option.bind_some,
    if_pos hi, run_getAt (a := .keys) hp hi4, hk, if_true, run_getAt (a := .values) hp hi4]

theorem searchAt_leaf (hp : p ≠ 0) (hn : s.words p numKeysWord ≤ btreeMaxKeys)
    (hk : i < s.words p numKeysWord → s.words p (NodeArray.keys.base + i) ≠ key)
    (hleaf : s.words p isLeafWord ≠ 0) : (searchAt key fuel p i).run s = some (0, s) := by
  by_cases hi : i < s.words p numKeysWord
  · simp only [searchAt, StateT.run_bind, run_numKeys hp, Option.bind_eq_bind, Option.bind_some,
      if_pos hi, run_getAt (a := .keys) hp (lt_of_lt_of_le hi hn), if_neg (hk hi).symm,
      run_isLeaf hp, if_pos hleaf]
    rfl
  · simp only [searchAt, StateT.run_bind, run_numKeys hp, Option.bind_eq_bind, Option.bind_some,
      if_neg hi, run_isLeaf hp, if_pos hleaf]
    rfl

theorem searchAt_child (hp : p ≠ 0) (hn : s.words p numKeysWord ≤ btreeMaxKeys)
    (hi : i ≤ s.words p numKeysWord)
    (hk : i < s.words p numKeysWord → s.words p (NodeArray.keys.base + i) ≠ key)
    (hleaf : s.words p isLeafWord = 0) :
    (searchAt key fuel p i).run s =
      (btreeSearchFrom key fuel (s.words p (NodeArray.children.base + i))).run s := by
  have hi5 : i < btreeOrder := Nat.lt_succ_of_le (hi.trans hn)
  by_cases hlt : i < s.words p numKeysWord
  · simp only [searchAt, StateT.run_bind, run_numKeys hp, Option.bind_eq_bind, Option.bind_some,
      if_pos hlt, run_getAt (a := .keys) hp (lt_of_lt_of_le hlt hn), if_neg (hk hlt).symm,
      run_isLeaf hp, hleaf, ne_eq, not_true_eq_false, if_false, run_getAt (a := .children) hp hi5]
  · simp only [searchAt, StateT.run_bind, run_numKeys hp, Option.bind_eq_bind, Option.bind_some,
      if_neg hlt, run_isLeaf hp, hleaf, ne_eq, not_true_eq_false, if_false,
      run_getAt (a := .children) hp hi5]

/-- The search for the key in the tree, and in the node from the first index of the row on,
    finds the entry of the key. -/
def SearchOk (s : BtreeMem) (key : ℕ) : {b : Kind} → MultiTree ℕ ℕ ℕ b → Prop
  | .tree, t => ∀ p j fuel, Stored s.words p j t → t.height ≤ fuel →
      (btreeSearchFrom key fuel p).run s = some ((t.toList.lookup key).getD 0, s)
  | .row, r => ∀ p j fuel, p ≠ 0 → s.words p numKeysWord = j + r.width →
      j + r.width ≤ btreeMaxKeys → s.words p isLeafWord = 0 → Stored s.words p j r →
      r.height ≤ fuel → (findFrom p key r.width j >>= searchAt key fuel p).run s =
        some ((r.toList.lookup key).getD 0, s)

/-- The descent of `btree_search`, in an ordered tree of any shape. -/
theorem searchOk (s : BtreeMem) (key : ℕ) {b : Kind} (t : MultiTree ℕ ℕ ℕ b) (ht : t.Ordered) :
    SearchOk s key t := by
  induction t with
  | leaf q es =>
    rintro p j (_ | fuel) ⟨-, hp, hn, hle, hleaf, hes⟩ hfuel
    · exact absurd hfuel (by rw [height]; omega)
    rw [btreeSearchFrom_succ key fuel hp, StateT.run_bind, findKeyIndex, StateT.run_bind,
      run_numKeys hp, Option.bind_eq_bind, Option.bind_some, hn,
      run_findFrom_leaf hp hes hle key es List.drop_zero, Option.bind_some, Nat.zero_add, toList,
      lookup_eq_getElem? (l := es) ht]
    dsimp only
    generalize (es.takeWhile fun e => e.1 < key).length = i
    rcases hi : es[i]? with _ | e
    · have hlen := List.getElem?_eq_none_iff.1 hi
      exact searchAt_leaf hp (hn ▸ hle) (fun h => absurd h (by omega)) hleaf
    · have hlen := (List.getElem?_eq_some_iff.1 hi).1
      obtain ⟨hk, hv⟩ := hes i e hi
      by_cases he : e.1 = key
      · rw [searchAt_found hp (hn ▸ hlen) (hn ▸ hle) (hk.trans he), hv, Option.bind_some, if_pos he,
          Option.getD_some]
      · rw [searchAt_leaf hp (hn ▸ hle) (fun _ => hk.symm ▸ he) hleaf, Option.bind_some, if_neg he,
          Option.getD_none]
  | node q r ih =>
    rintro p j (_ | fuel) ⟨-, hp, hn, hle, hleaf, hr⟩ hfuel
    · exact absurd hfuel (by rw [height]; omega)
    rw [btreeSearchFrom_succ key fuel hp, findKeyIndex, bind_assoc, StateT.run_bind,
      run_numKeys hp, Option.bind_eq_bind, Option.bind_some, hn]
    exact ih ht p 0 fuel hp (by rw [hn, Nat.zero_add]) (by rwa [Nat.zero_add]) hleaf hr
      (Nat.le_of_succ_le_succ hfuel)
  | last t ih =>
    intro p j fuel hp hn hle hleaf hr hfuel
    rw [width] at hn hle ⊢
    have hne : j < s.words p numKeysWord → s.words p (NodeArray.keys.base + j) ≠ key :=
      fun hj => absurd hj (by omega)
    exact (searchAt_child hp (hn ▸ hle) (by omega) hne hleaf).trans (ih ht _ 0 fuel hr hfuel)
  | cons t k v r iht ihr =>
    rintro p j fuel hp hn hle hleaf ⟨hk, hv, ht', hr'⟩ hfuel
    obtain ⟨hto, hro, -, -⟩ := ordered_cons.1 ht
    rw [width] at hn hle ⊢
    rw [height] at hfuel
    have hj : j < NodeArray.keys.capacity := lt_of_lt_of_le (by omega) hle
    rw [findFrom, bind_assoc, StateT.run_bind, run_getAt hp hj,
      Option.bind_eq_bind, Option.bind_some, hk]
    rcases lt_trichotomy k key with hlt | rfl | hgt
    · rw [if_pos hlt, lookup_cons_of_gt ht hlt]
      exact ihr hro p (j + 1) fuel hp (by omega) (by omega) hleaf hr' (le_of_max_le_right hfuel)
    · rw [if_neg (lt_irrefl k), pure_bind, searchAt_found hp (by omega) (by omega) hk,
        lookup_cons_self ht, hv, Option.getD_some]
    · rw [if_neg hgt.not_gt, pure_bind, lookup_cons_of_lt ht hgt,
        searchAt_child hp (by omega) (by omega) (fun _ => by rw [hk]; exact hgt.ne') hleaf]
      exact iht hto _ 0 fuel ht' (le_of_max_le_left hfuel)

/-! ## Traversal -/

/-- What `traverse_recursive` does with the key `i` of an inner node. -/
def traverseAt (fuel node i : ℕ) : BtreeM (List (ℕ × ℕ)) := do
  let child ← traverseRecursive fuel (← getAt .children node i)
  return child ++ [(← getAt .keys node i, ← getAt .values node i)]

/-- The traversal of the node `p` from its index `j` on, with `n` keys to go. -/
def traverseFrom (fuel p j n : ℕ) : BtreeM (List (ℕ × ℕ)) := do
  let parts ← (List.range' j n).mapM (traverseAt fuel p)
  let last ← traverseRecursive fuel (← getAt .children p (j + n))
  return parts.flatten ++ last

theorem traverseFrom_succ (fuel p j n : ℕ) : traverseFrom fuel p j (n + 1) = (do
    let part ← traverseAt fuel p j
    let rest ← traverseFrom fuel p (j + 1) n
    return part ++ rest) := by
  have hj : j + 1 + n = j + (n + 1) := by omega
  simp only [traverseFrom, List.range'_succ, List.mapM_cons, bind_assoc, pure_bind,
    List.flatten_cons, List.append_assoc, hj]

theorem traverseRecursive_inner (fuel : ℕ) (hp : p ≠ 0) (hleaf : s.words p isLeafWord = 0) :
    (traverseRecursive (fuel + 1) p).run s =
      (traverseFrom fuel p 0 (s.words p numKeysWord)).run s := by
  simp only [traverseRecursive, if_neg hp, StateT.run_bind, run_numKeys hp, run_isLeaf hp, hleaf,
    if_true, Option.bind_eq_bind, Option.bind_some, traverseFrom, List.range_eq_range',
    Nat.zero_add]
  rfl

/-- The entries of a leaf from the index `j` on. -/
theorem run_mapM_entries {es : List (ℕ × ℕ)} (hp : p ≠ 0) (hle : es.length ≤ btreeMaxKeys)
    (hes : HasEntries (s.words p) es) (l : List (ℕ × ℕ)) (hl : es.drop j = l) :
    ((List.range' j l.length).mapM fun i => (do
      return [(← getAt .keys p i, ← getAt .values p i)] : BtreeM (List (ℕ × ℕ)))).run s =
        some (l.map fun e => [e], s) := by
  induction l generalizing j with
  | nil => rfl
  | cons e l ih =>
    have hej : es[j]? = some e := by
      rw [← List.head?_drop, hl, List.head?_cons]
    have hj : j < btreeMaxKeys := lt_of_lt_of_le (List.getElem?_eq_some_iff.1 hej).1 hle
    have hl' : es.drop (j + 1) = l := by
      rw [← List.drop_drop, hl, List.drop_one, List.tail_cons]
    obtain ⟨hk, hv⟩ := hes j e hej
    simp only [List.length_cons, List.range'_succ, List.mapM_cons, bind_assoc, pure_bind,
      StateT.run_bind, run_getAt (a := .keys) hp hj, run_getAt (a := .values) hp hj, hk, hv,
      Option.bind_eq_bind, Option.bind_some, ih hl', List.map_cons]
    rfl

theorem traverseRecursive_leaf {es : List (ℕ × ℕ)} (fuel : ℕ) (hp : p ≠ 0)
    (hn : s.words p numKeysWord = es.length) (hle : es.length ≤ btreeMaxKeys)
    (hleaf : s.words p isLeafWord ≠ 0) (hes : HasEntries (s.words p) es) :
    (traverseRecursive (fuel + 1) p).run s = some (es, s) := by
  have hflat : ∀ l : List (ℕ × ℕ), (l.map fun e => [e]).flatten = l := fun l => by
    induction l with
    | nil => rfl
    | cons e l ih => rw [List.map_cons, List.flatten_cons, ih, List.singleton_append]
  simp only [traverseRecursive, if_neg hp, StateT.run_bind, run_numKeys hp, run_isLeaf hp,
    if_neg hleaf, Option.bind_eq_bind, Option.bind_some, hn, List.range_eq_range', pure_bind,
    List.nil_append, run_mapM_entries hp hle hes es List.drop_zero, StateT.run_pure, hflat,
    List.append_nil]
  rfl

/-- The traversal of the tree, and of the node from the first index of the row on, gives its
    entries in order. -/
def TraverseOk (s : BtreeMem) : {b : Kind} → MultiTree ℕ ℕ ℕ b → Prop
  | .tree, t => ∀ p j fuel, Stored s.words p j t → t.height ≤ fuel →
      (traverseRecursive fuel p).run s = some (t.toList, s)
  | .row, r => ∀ p j fuel, p ≠ 0 → j + r.width ≤ btreeMaxKeys → Stored s.words p j r →
      r.height ≤ fuel → (traverseFrom fuel p j r.width).run s = some (r.toList, s)

/-- The recursion of `btree_traverse`, in a tree of any shape. -/
theorem traverseOk (s : BtreeMem) {b : Kind} (t : MultiTree ℕ ℕ ℕ b) : TraverseOk s t := by
  induction t with
  | leaf q es =>
    rintro p j (_ | fuel) ⟨-, hp, hn, hle, hleaf, hes⟩ hfuel
    · exact absurd hfuel (by rw [height]; omega)
    · exact traverseRecursive_leaf fuel hp hn hle hleaf hes
  | node q r ih =>
    rintro p j (_ | fuel) ⟨-, hp, hn, hle, hleaf, hr⟩ hfuel
    · exact absurd hfuel (by rw [height]; omega)
    · rw [traverseRecursive_inner fuel hp hleaf, hn]
      exact ih p 0 fuel hp (by rwa [Nat.zero_add]) hr (Nat.le_of_succ_le_succ hfuel)
  | last t ih =>
    intro p j fuel hp hle hr hfuel
    rw [width] at hle
    have hj : j < NodeArray.children.capacity := Nat.lt_succ_of_le hle
    rw [traverseFrom, width, Nat.add_zero, List.range'_zero, List.mapM_nil, pure_bind,
      StateT.run_bind, run_getAt hp hj, Option.bind_eq_bind, Option.bind_some, StateT.run_bind,
      ih _ 0 fuel hr hfuel]
    rfl
  | cons t k v r iht ihr =>
    rintro p j fuel hp hle ⟨hk, hv, ht, hr⟩ hfuel
    rw [height] at hfuel
    rw [width] at hle ⊢
    have hj : j < btreeMaxKeys := lt_of_lt_of_le (by omega) hle
    have hj' : j < NodeArray.children.capacity := Nat.lt_succ_of_lt hj
    have hchild := iht _ 0 fuel ht (le_of_max_le_left hfuel)
    have hrest := ihr p (j + 1) fuel hp (by omega) hr (le_of_max_le_right hfuel)
    simp only [traverseFrom_succ, traverseAt, StateT.run_bind, run_getAt hp hj', hchild,
      run_getAt (a := .keys) hp hj, run_getAt (a := .values) hp hj, hk, hv, hrest,
      Option.bind_eq_bind, Option.bind_some, Option.pure_def, StateT.run_pure, toList,
      List.append_assoc, List.singleton_append]

end Fru1tOs
