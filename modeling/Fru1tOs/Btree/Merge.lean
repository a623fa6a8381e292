import Fru1tOs.Btree.Delete
import Fru1tOs.Btree.Run
import Fru1tOs.Lib.Siblings

/-!
# Merging nodes of a B-tree

`btree_merge_children` merges a child of a node with the next one, for a child that has
`BTREE_MIN_KEYS` keys. With a sibling of at most one key this is what it should be: the entries of
the tree stay, and the parent pointers are right. But a sibling with `BTREE_MIN_KEYS` keys has one
too many for the arrays (`btree_merge_children_iff`): the order of the tree is odd, and with the key
of the parent there are `BTREE_ORDER`.
-/

namespace Fru1tOs

open Lib MultiTree

variable {s s' : BtreeMem} {p q c i j index : ℕ} {m m' : ℕ → ℕ → ℕ}

/-- `btree_merge_children`. What it gives to `kfree` is returned. -/
def btreeMergeChildren (parent index : ℕ) : BtreeM ℕ := do
  let child ← getAt .children parent index
  let sibling ← getAt .children parent (index + 1)
  copyAt .keys child btreeMinKeys parent index
  copyAt .values child btreeMinKeys parent index
  (List.range (← numKeys sibling)).forM fun i => do
    copyAt .keys child (i + btreeMinKeys + 1) sibling i
    copyAt .values child (i + btreeMinKeys + 1) sibling i
  if (← isLeaf child) = 0 then
    (List.range ((← numKeys sibling) + 1)).forM fun i => do
      copyAt .children child (i + btreeMinKeys + 1) sibling i
      let c ← getAt .children child (i + btreeMinKeys + 1)
      if c ≠ 0 then setParent c child
  setNumKeys child ((← numKeys child) + (← numKeys sibling) + 1)
  let n ← numKeys parent
  (List.range' (index + 1) (n - (index + 1))).forM fun i => do
    copyAt .keys parent (i - 1) parent i
    copyAt .values parent (i - 1) parent i
  (List.range' (index + 2) (n - (index + 1))).forM fun i =>
    copyAt .children parent (i - 1) parent i
  setNumKeys parent (n - 1)
  return sibling

/-! ## The loops -/

/-- The loop that moves the entries of the parent. -/
theorem run_moveEntries (hp : p ≠ 0) (n i : ℕ) (hn : i + n < btreeMaxKeys) (s : BtreeMem) :
    ∃ w', ((List.range' (i + 1) n).forM fun j => (do
        copyAt .keys p (j - 1) p j
        copyAt .values p (j - 1) p j : BtreeM Unit)).run s = some ((), s.setNode p w') ∧
      MovedDown (s.words p) w' i n := by
  obtain ⟨w', hrun, hmoved⟩ := run_shiftDown hp n i hn s
  refine ⟨w', ?_, hmoved⟩
  rw [← hrun, add_comm i 1, ← List.map_add_range']
  simp only [List.forM_eq_forM, List.forM_map, add_comm 1, Nat.add_sub_cancel]

/-- The loop that moves the children of the parent. -/
theorem run_moveChildren (hp : p ≠ 0) (n i : ℕ) (hn : i + n < btreeOrder) (s : BtreeMem) :
    ∃ w', ((List.range' (i + 1) n).forM fun j => copyAt .children p (j - 1) p j).run s =
        some ((), s.setNode p w') ∧
      ∀ x, w' x = if 9 + i ≤ x ∧ x < 9 + i + n then s.words p (x + 1) else s.words p x := by
  induction n generalizing i s with
  | zero =>
    refine ⟨s.words p, ?_, fun x => (if_neg (by omega)).symm⟩
    rw [BtreeMem.setNode_self]
    rfl
  | succ n ih =>
    have hn5 : i + (n + 1) < 5 := hn
    obtain ⟨w', hrun, hmoved⟩ := ih (i + 1) (by omega) (s.setNode p
      (Function.update (s.words p) (9 + i) (s.words p (9 + (i + 1)))))
    rw [BtreeMem.words_setNode_self] at hmoved
    rw [BtreeMem.setNode_setNode] at hrun
    refine ⟨w', ?_, fun x => ?_⟩
    · rw [List.forM_eq_forM] at hrun ⊢
      rw [List.range'_succ, List.forM_cons, StateT.run_bind, Nat.add_sub_cancel,
        run_copyAt (a := .children) hp hp (by rw [capacity_children]; omega)
          (by rw [capacity_children]; omega), Option.bind_eq_bind, Option.bind_some]
      exact hrun
    · simp only [hmoved, Function.update_apply]
      split_ifs <;> first | omega | (congr 1; omega)

/-- The nodes `m` with the first `n` children of `q` added to those of `c`, from the index 3 on. -/
def adoptFrom (m : ℕ → ℕ → ℕ) (c q n : ℕ) : ℕ → ℕ → ℕ := fun x =>
  if x = c then fun i => if 12 ≤ i ∧ i < 12 + n then m q (i - 3) else m c i
  else if x ∈ (List.range n).map fun i => m q (9 + i) then Function.update (m x) parentWord c
  else m x

/-- A child of `q` that is neither `q` nor `c`. -/
def IsFree (m : ℕ → ℕ → ℕ) (c q i : ℕ) : Prop :=
  m q (9 + i) ≠ 0 ∧ m q (9 + i) ≠ c ∧ m q (9 + i) ≠ q

theorem adoptFrom_sibling (hqc : q ≠ c) {n : ℕ} (hfree : ∀ i < n, IsFree m c q i) :
    adoptFrom m c q n q = m q := by
  rw [adoptFrom, if_neg hqc, if_neg]
  intro hq
  obtain ⟨i, hi, heq⟩ := List.mem_map.1 hq
  exact (hfree i (List.mem_range.1 hi)).2.2 heq

/-- The loop that moves the children of the sibling. -/
theorem run_adoptChildren (hc : c ≠ 0) (hq : q ≠ 0) (hqc : q ≠ c) (n : ℕ)
    (hn : n + btreeMinKeys < btreeOrder) (s : BtreeMem)
    (hfree : ∀ i < n, IsFree s.words c q i) :
    ((List.range n).forM fun i => (do
      copyAt .children c (i + btreeMinKeys + 1) q i
      let d ← getAt .children c (i + btreeMinKeys + 1)
      if d ≠ 0 then setParent d c : BtreeM Unit)).run s =
        some ((), s.withWords (adoptFrom s.words c q n)) := by
  induction n with
  | zero =>
    have hnone : adoptFrom s.words c q 0 = s.words := by
      funext x
      rw [adoptFrom]
      split_ifs with hx
      · funext i
        rw [if_neg (by omega), hx]
      · contradiction
      · rfl
    rw [hnone]
    rfl
  | succ n ih =>
    have hn5 : n + 1 + 2 < 5 := hn
    have hi : n + btreeMinKeys + 1 < NodeArray.children.capacity := by
      rw [capacity_children]
      omega
    have hi' : n < NodeArray.children.capacity := by
      rw [capacity_children]
      omega
    obtain ⟨hd, hdc, hdq⟩ := hfree n (Nat.lt_succ_self n)
    have ih := ih (by omega) fun i hi => hfree i (by omega)
    rw [List.forM_eq_forM] at ih ⊢
    rw [List.range_succ, List.forM_append, StateT.run_bind, ih, Option.bind_eq_bind,
      Option.bind_some]
    have hsib := adoptFrom_sibling hqc fun i hi => hfree i (Nat.lt_succ_of_lt hi)
    simp only [List.forM_cons, List.forM_nil, StateT.run_bind, run_copyAt hc hq hi hi',
      Option.bind_eq_bind, Option.bind_some, run_getAt hc hi, BtreeMem.words_setNode_self,
      Function.update_self, BtreeMem.words_withWords, hsib, base_children, if_pos hd,
      run_setParent hd, BtreeMem.words_setNode_of_ne hdc, StateT.run_pure, Option.pure_def]
    refine congrArg (fun m => some ((), s.withWords m)) (funext fun x => ?_)
    by_cases hxc : x = c
    · subst hxc
      funext i
      simp only [Function.update_of_ne hdc.symm, BtreeMem.words_setNode_self, adoptFrom, if_true,
        Function.update_apply]
      have hthree : 9 + (n + btreeMinKeys + 1) = 12 + n := by
        simp only [btreeMinKeys, btreeOrder]
        omega
      rw [hthree]
      split_ifs <;> first | omega | rfl | (congr 1; omega)
    · by_cases hxd : x = s.words q (9 + n)
      · subst hxd
        rw [Function.update_self]
        simp only [adoptFrom, if_neg hdc, List.range_succ, List.map_append, List.map_cons,
          List.map_nil, List.mem_append, List.mem_singleton, or_true, if_true]
        split_ifs
        · exact Function.update_idem ..
        · rfl
      · simp only [Function.update_of_ne hxd, BtreeMem.words_setNode_of_ne hxc,
          BtreeMem.words_withWords, adoptFrom, if_neg hxc, List.range_succ, List.map_append,
          List.map_cons, List.map_nil, List.mem_append, List.mem_singleton, hxd, or_false]

/-- The loop that moves the entries of the sibling, if it has not more than one. -/
theorem run_moveSibling (hc : c ≠ 0) (hq : q ≠ 0) (hqc : q ≠ c) {n : ℕ} (hn : n ≤ 1)
    (s : BtreeMem) : ∃ w', ((List.range n).forM fun i => (do
        copyAt .keys c (i + btreeMinKeys + 1) q i
        copyAt .values c (i + btreeMinKeys + 1) q i : BtreeM Unit)).run s =
          some ((), s.setNode c w') ∧
      ∀ x, w' x = if (4 ≤ x ∧ x < 4 + n) ∨ (8 ≤ x ∧ x < 8 + n) then s.words q (x - 3)
        else s.words c x := by
  rcases Nat.le_one_iff_eq_zero_or_eq_one.1 hn with rfl | rfl
  · refine ⟨s.words c, ?_, fun x => (if_neg (by omega)).symm⟩
    rw [BtreeMem.setNode_self]
    rfl
  · have hrange : List.range 1 = [0] := rfl
    have hthree : 0 + btreeMinKeys + 1 < 4 := by decide
    simp only [hrange, List.forM_eq_forM, List.forM_cons, List.forM_nil, StateT.run_bind,
      run_copyAt (a := .keys) hc hq hthree (show 0 < 4 by decide),
      run_copyAt (a := .values) hc hq hthree (show 0 < 4 by decide), Option.bind_eq_bind,
      Option.bind_some, StateT.run_pure, Option.pure_def, BtreeMem.words_setNode_self,
      BtreeMem.setNode_setNode, BtreeMem.words_setNode_of_ne hqc]
    refine ⟨_, rfl, fun x => ?_⟩
    simp only [Function.update_apply, base_keys, base_values, btreeMinKeys, btreeOrder]
    split_ifs <;> first | omega | rfl | (congr 1; omega)

/-! ## The two halves -/

/-- What is done to the child. -/
def joinChild (parent index child sibling : ℕ) : BtreeM Unit := do
  copyAt .keys child btreeMinKeys parent index
  copyAt .values child btreeMinKeys parent index
  (List.range (← numKeys sibling)).forM fun i => do
    copyAt .keys child (i + btreeMinKeys + 1) sibling i
    copyAt .values child (i + btreeMinKeys + 1) sibling i
  if (← isLeaf child) = 0 then
    (List.range ((← numKeys sibling) + 1)).forM fun i => do
      copyAt .children child (i + btreeMinKeys + 1) sibling i
      let c ← getAt .children child (i + btreeMinKeys + 1)
      if c ≠ 0 then setParent c child
  setNumKeys child ((← numKeys child) + (← numKeys sibling) + 1)

/-- What is done to the parent. -/
def shrinkParent (parent index : ℕ) : BtreeM Unit := do
  let n ← numKeys parent
  (List.range' (index + 1) (n - (index + 1))).forM fun i => do
    copyAt .keys parent (i - 1) parent i
    copyAt .values parent (i - 1) parent i
  (List.range' (index + 2) (n - (index + 1))).forM fun i =>
    copyAt .children parent (i - 1) parent i
  setNumKeys parent (n - 1)

theorem btreeMergeChildren_eq (parent index : ℕ) : btreeMergeChildren parent index = (do
    let child ← getAt .children parent index
    let sibling ← getAt .children parent (index + 1)
    joinChild parent index child sibling
    shrinkParent parent index
    return sibling) := by
  simp only [btreeMergeChildren, joinChild, shrinkParent, bind_assoc]
  iterate 7 refine bind_congr fun _ => ?_
  split_ifs <;> simp only [bind_assoc]

/-- The words of a node after the entry `index` and the child after it are gone. -/
def shrunkWords (w : ℕ → ℕ) (index : ℕ) : ℕ → ℕ := fun x =>
  if x = numKeysWord then w numKeysWord - 1
  else if (1 + index ≤ x ∧ x < w numKeysWord) ∨ (5 + index ≤ x ∧ x < 4 + w numKeysWord) ∨
      (10 + index ≤ x ∧ x < 9 + w numKeysWord) then w (x + 1)
  else w x

theorem run_shrinkParent (hp : p ≠ 0) (hindex : index < s.words p numKeysWord)
    (hn : s.words p numKeysWord ≤ btreeMaxKeys) : (shrinkParent p index).run s =
      some ((), s.setNode p (shrunkWords (s.words p) index)) := by
  have hn4 : s.words p numKeysWord ≤ 4 := hn
  have hnum : numKeysWord = 0 := rfl
  obtain ⟨w, hrun, hw⟩ := run_moveEntries hp (s.words p numKeysWord - (index + 1)) index
    (by simp only [btreeMaxKeys, btreeOrder]; omega) s
  obtain ⟨w', hrun', hw'⟩ := run_moveChildren hp (s.words p numKeysWord - (index + 1)) (index + 1)
    (by simp only [btreeOrder]; omega) (s.setNode p w)
  rw [BtreeMem.words_setNode_self] at hw'
  rw [BtreeMem.setNode_setNode] at hrun'
  simp only [shrinkParent, StateT.run_bind, run_numKeys hp, Option.bind_eq_bind, Option.bind_some,
    hrun, hrun', run_setNumKeys hp, BtreeMem.words_setNode_self, BtreeMem.setNode_setNode]
  refine congrArg (fun w => some ((), s.setNode p w)) (funext fun x => ?_)
  rw [Function.update_apply, shrunkWords]
  split_ifs with hx h
  · rfl
  all_goals
    rw [hw', hw, hw]
    split_ifs <;> omega

/-- The nodes after the child `c` of `p` was joined with the sibling `q`. -/
def joinWords (m : ℕ → ℕ → ℕ) (p c q index : ℕ) : ℕ → ℕ → ℕ := fun x =>
  if x = c then fun i =>
    if i = numKeysWord then m c numKeysWord + m q numKeysWord + 1
    else if i = 3 then m p (1 + index)
    else if i = 7 then m p (5 + index)
    else if (4 ≤ i ∧ i < 4 + m q numKeysWord) ∨ (8 ≤ i ∧ i < 8 + m q numKeysWord) ∨
        (m c isLeafWord = 0 ∧ 12 ≤ i ∧ i < 13 + m q numKeysWord) then m q (i - 3)
    else m c i
  else if m c isLeafWord = 0 ∧
      x ∈ (List.range (m q numKeysWord + 1)).map fun i => m q (9 + i) then
    Function.update (m x) parentWord c
  else m x

/-- The first part of it: the entries. -/
def joinEntries (parent index child sibling : ℕ) : BtreeM Unit := do
  copyAt .keys child btreeMinKeys parent index
  copyAt .values child btreeMinKeys parent index
  (List.range (← numKeys sibling)).forM fun i => do
    copyAt .keys child (i + btreeMinKeys + 1) sibling i
    copyAt .values child (i + btreeMinKeys + 1) sibling i

theorem joinChild_eq (parent index child sibling : ℕ) : joinChild parent index child sibling = (do
    joinEntries parent index child sibling
    if (← isLeaf child) = 0 then
      (List.range ((← numKeys sibling) + 1)).forM fun i => do
        copyAt .children child (i + btreeMinKeys + 1) sibling i
        let c ← getAt .children child (i + btreeMinKeys + 1)
        if c ≠ 0 then setParent c child
    setNumKeys child ((← numKeys child) + (← numKeys sibling) + 1)) := by
  simp only [joinChild, joinEntries, bind_assoc]

/-- The words of the child `c` of `p` with the entries of the sibling `q`. -/
def entriesWords (m : ℕ → ℕ → ℕ) (p c q index : ℕ) : ℕ → ℕ := fun x =>
  if x = 3 then m p (1 + index) else if x = 7 then m p (5 + index)
  else if (4 ≤ x ∧ x < 4 + m q numKeysWord) ∨ (8 ≤ x ∧ x < 8 + m q numKeysWord) then m q (x - 3)
  else m c x

theorem run_joinEntries (hp : p ≠ 0) (hc : c ≠ 0) (hq : q ≠ 0) (hcp : c ≠ p) (hqc : q ≠ c)
    (hindex : index < btreeMaxKeys) (hn : s.words q numKeysWord ≤ 1) :
    (joinEntries p index c q).run s =
      some ((), s.setNode c (entriesWords s.words p c q index)) := by
  have hmin : btreeMinKeys < 4 := by decide
  simp only [joinEntries, StateT.run_bind, run_copyAt (a := .keys) hc hp hmin hindex,
    run_copyAt (a := .values) hc hp hmin hindex, Option.bind_eq_bind, Option.bind_some,
    BtreeMem.words_setNode_self, BtreeMem.setNode_setNode, BtreeMem.words_setNode_of_ne hcp.symm,
    run_numKeys hq, BtreeMem.words_setNode_of_ne hqc, base_keys, base_values]
  generalize hw₁ : Function.update (Function.update (s.words c) (1 + btreeMinKeys)
    (s.words p (1 + index))) (5 + btreeMinKeys) (s.words p (5 + index)) = w₁
  obtain ⟨w, hrun, hw⟩ := run_moveSibling hc hq hqc hn (s.setNode c w₁)
  rw [BtreeMem.words_setNode_self, BtreeMem.words_setNode_of_ne hqc] at hw
  rw [hrun, BtreeMem.setNode_setNode]
  refine congrArg (fun w => some ((), s.setNode c w)) (funext fun x => ?_)
  rw [entriesWords, hw, ← hw₁]
  simp only [Function.update_apply, btreeMinKeys, btreeOrder]
  split_ifs <;> omega

theorem entriesWords_isLeafWord (hn : m q numKeysWord ≤ 1) :
    entriesWords m p c q index isLeafWord = m c isLeafWord := by
  have hleafWord : isLeafWord = 15 := rfl
  rw [entriesWords, if_neg (by decide), if_neg (by decide), if_neg (by omega)]

theorem entriesWords_numKeysWord : entriesWords m p c q index numKeysWord = m c numKeysWord := by
  have hnum : numKeysWord = 0 := rfl
  rw [entriesWords, if_neg (by decide), if_neg (by decide), if_neg (by omega)]

/-- In a leaf there are no children to join. -/
theorem joinWords_of_leaf (hleaf : m c isLeafWord ≠ 0) :
    Function.update m c (Function.update (entriesWords m p c q index) numKeysWord
      (m c numKeysWord + m q numKeysWord + 1)) = joinWords m p c q index := by
  have hnum : numKeysWord = 0 := rfl
  funext x
  rw [joinWords]
  by_cases hxc : x = c
  · subst hxc
    rw [Function.update_self, if_pos rfl]
    funext i
    rw [Function.update_apply, entriesWords]
    split_ifs <;> omega
  · rw [Function.update_of_ne hxc, if_neg hxc, if_neg fun h => hleaf h.1]

/-- In an inner node, the children of the sibling are moved too. -/
theorem joinWords_of_inner (hqc : q ≠ c) (hleaf : m c isLeafWord = 0) :
    Function.update (adoptFrom (Function.update m c (entriesWords m p c q index)) c q
        (m q numKeysWord + 1)) c
      (Function.update (adoptFrom (Function.update m c (entriesWords m p c q index)) c q
        (m q numKeysWord + 1) c) numKeysWord (m c numKeysWord + m q numKeysWord + 1)) =
      joinWords m p c q index := by
  have hnum : numKeysWord = 0 := rfl
  funext x
  rw [joinWords]
  by_cases hxc : x = c
  · subst hxc
    rw [Function.update_self, if_pos rfl]
    funext i
    simp only [adoptFrom, if_true, Function.update_apply, if_neg hqc, entriesWords]
    split_ifs <;> omega
  · rw [Function.update_of_ne hxc, if_neg hxc]
    simp only [adoptFrom, if_neg hxc, Function.update_of_ne hqc, Function.update_of_ne hxc, hleaf,
      true_and]

theorem run_joinChild (hp : p ≠ 0) (hc : c ≠ 0) (hq : q ≠ 0) (hcp : c ≠ p) (hqc : q ≠ c)
    (hindex : index < btreeMaxKeys) (hn : s.words q numKeysWord ≤ 1)
    (hfree : s.words c isLeafWord = 0 → ∀ i ≤ s.words q numKeysWord, IsFree s.words c q i) :
    (joinChild p index c q).run s = some ((), s.withWords (joinWords s.words p c q index)) := by
  simp only [joinChild_eq, StateT.run_bind, run_joinEntries hp hc hq hcp hqc hindex hn,
    Option.bind_eq_bind, Option.bind_some, run_isLeaf hc, BtreeMem.words_setNode_self,
    entriesWords_isLeafWord hn]
  by_cases hleaf : s.words c isLeafWord = 0
  · generalize hw : entriesWords s.words p c q index = w
    have hfree' : ∀ i < s.words q numKeysWord + 1, IsFree (s.setNode c w).words c q i := by
      intro i hi
      rw [IsFree, BtreeMem.words_setNode_of_ne hqc]
      exact hfree hleaf i (Nat.le_of_lt_succ hi)
    have hsib := adoptFrom_sibling hqc hfree'
    have hadopt := run_adoptChildren hc hq hqc (s.words q numKeysWord + 1)
      (by simp only [btreeMinKeys, btreeOrder]; omega) (s.setNode c w) hfree'
    have hcnum : adoptFrom (s.setNode c w).words c q (s.words q numKeysWord + 1) c numKeysWord =
        s.words c numKeysWord := by
      rw [adoptFrom, if_pos rfl, if_neg fun h => absurd h.1 (by decide),
        BtreeMem.words_setNode_self, ← hw, entriesWords_numKeysWord]
    simp only [if_pos hleaf, StateT.run_bind, Option.bind_some, run_numKeys hc, run_numKeys hq,
      BtreeMem.words_setNode_of_ne hqc, hadopt, hsib, hcnum, BtreeMem.words_withWords,
      run_setNumKeys hc, Option.bind_eq_bind]
    rw [← joinWords_of_inner hqc hleaf, hw]
    rfl
  · simp only [if_neg hleaf, StateT.run_bind, Option.bind_some, run_numKeys hc, run_numKeys hq,
      BtreeMem.words_setNode_self, BtreeMem.words_setNode_of_ne hqc, run_setNumKeys hc,
      BtreeMem.setNode_setNode, Option.bind_eq_bind, entriesWords_numKeysWord]
    rw [← joinWords_of_leaf hleaf]
    rfl

/-- The nodes after `btree_merge_children`. -/
def mergeWords (m : ℕ → ℕ → ℕ) (p c q index : ℕ) : ℕ → ℕ → ℕ :=
  Function.update (joinWords m p c q index) p (shrunkWords (m p) index)

theorem mergeWords_self : mergeWords m p c q index p = shrunkWords (m p) index :=
  Function.update_self ..

/-- The other nodes keep their words, less the parent pointer. -/
theorem mergeWords_of_ne {x : ℕ} (hxp : x ≠ p) (hxc : x ≠ c) (hi : i ≠ parentWord) :
    mergeWords m p c q index x i = m x i := by
  rw [mergeWords, Function.update_of_ne hxp, joinWords, if_neg hxc]
  split_ifs
  · exact Function.update_of_ne hi ..
  · rfl

/-! ## Nodes and their children -/

section Nodes

variable {t u : MultiTree ℕ ℕ ℕ .tree}

/-- The trees are at the addresses in the array of children of a node with the words `w`. -/
def HasChildren (m : ℕ → ℕ → ℕ) (w : ℕ → ℕ) (ts : List (MultiTree ℕ ℕ ℕ .tree)) : Prop :=
  ∀ i t, ts[i]? = some t → Stored m (w (NodeArray.children.base + i)) 0 t

/-- A row in the arrays of a node, from the index `j` on. -/
theorem stored_row_iff : ∀ {r : MultiTree ℕ ℕ ℕ .row} {j : ℕ}, Stored m p j r ↔
    HasEntries (fun x => m p (x + j)) r.entries ∧
      HasChildren m (fun x => m p (x + j)) r.children
  | last t, j => by
    rw [Stored, entries, children]
    constructor
    · refine fun h => ⟨fun i e he => by simp at he, ?_⟩
      rintro (_ | i) u hu
      · obtain rfl := Option.some.inj hu
        exact h
      · simp at hu
    · exact fun h => h.2 0 t rfl
  | cons t k v r, j => by
    rw [Stored, stored_row_iff (r := r)]
    constructor
    · rintro ⟨hk, hv, ht, hes, hts⟩
      constructor
      · rintro (_ | i) e he
        · obtain rfl := Option.some.inj he
          exact ⟨hk, hv⟩
        · have := hes i e he
          simpa only [add_assoc, add_comm 1] using this
      · rintro (_ | i) u hu
        · obtain rfl := Option.some.inj hu
          exact ht
        · have := hts i u hu
          simpa only [add_assoc, add_comm 1] using this
    · rintro ⟨hes, hts⟩
      obtain ⟨hk, hv⟩ := hes 0 (k, v) rfl
      refine ⟨hk, hv, hts 0 t rfl, fun i e he => ?_, fun i u hu => ?_⟩
      · have := hes (i + 1) e he
        simpa only [add_assoc, add_comm 1] using this
      · have := hts (i + 1) u hu
        simpa only [add_assoc, add_comm 1] using this

/-- A node with its children. -/
theorem stored_iff : Stored m p j t ↔ t.name = p ∧ p ≠ 0 ∧ m p numKeysWord = t.entries.length ∧
    t.entries.length ≤ btreeMaxKeys ∧ (m p isLeafWord = 0 ↔ t.children ≠ []) ∧
    HasEntries (m p) t.entries ∧ HasChildren m (m p) t.children := by
  cases t with
  | leaf q es =>
    rw [Stored, name, entries, children]
    simp [HasChildren]
  | node q r =>
    have hne : r.children ≠ [] := List.ne_nil_of_length_eq_add_one (length_children_row r)
    rw [Stored, name, entries, children, stored_row_iff, length_entries_row]
    simp [hne]

theorem hasParents_row {par : ℕ} : ∀ {r : MultiTree ℕ ℕ ℕ .row},
    HasParents m par r ↔ ∀ t ∈ r.children, HasParents m par t
  | last t => by simp [HasParents, children]
  | cons t k v r => by
    rw [HasParents, hasParents_row (r := r), children]
    simp

theorem hasParents_iff {par : ℕ} : HasParents m par t ↔
    m t.name parentWord = par ∧ ∀ u ∈ t.children, HasParents m t.name u := by
  cases t with
  | leaf q es => simp [HasParents, name, children]
  | node q r => rw [HasParents, hasParents_row, name, children]

end Nodes

/-- A tree depends only on the memory of its nodes, less the parent pointers. -/
theorem Stored.congr_parent {b : Kind} {t : MultiTree ℕ ℕ ℕ b} (h : Stored m p j t)
    (hj : b = .row → j + t.entries.length ≤ btreeMaxKeys)
    (hp : ∀ i ≠ parentWord, m' p i = m p i) (hm : ∀ x ∈ t.names, ∀ i ≠ parentWord, m' x i = m x i) :
    Stored m' p j t := by
  have hparent : parentWord = 14 := rfl
  have hmax : btreeMaxKeys = 4 := rfl
  induction t generalizing p j with
  | leaf q es =>
    obtain ⟨hq, hp0, hn, hle, hleaf, hes⟩ := h
    refine ⟨hq, hp0, by rw [hp _ (by decide), hn], hle, by rwa [hp _ (by decide)], fun i e he => ?_⟩
    have hi := (List.getElem?_eq_some_iff.1 he).1
    rw [base_keys, base_values, hp _ (by omega), hp _ (by omega)]
    exact hes i e he
  | node q r ih =>
    obtain ⟨hq, hp0, hn, hle, hleaf, hr⟩ := h
    refine ⟨hq, hp0, by rw [hp _ (by decide), hn], hle, by rw [hp _ (by decide), hleaf], ih hr ?_ hp
      fun x hx => hm x (List.mem_cons_of_mem _ hx)⟩
    rw [length_entries_row, Nat.zero_add]
    exact fun _ => hle
  | last t ih =>
    have hj := hj rfl
    rw [Stored, base_children, hp _ (by omega)]
    exact ih h (fun hb => by cases hb) (hm _ (Stored.mem_names h)) hm
  | cons t k v r iht ihr =>
    have hj := hj rfl
    rw [entries, List.length_cons] at hj
    obtain ⟨hk, hv, ht, hr⟩ := h
    rw [Stored, base_keys, base_values, base_children, hp _ (by omega), hp _ (by omega),
      hp _ (by omega)]
    exact ⟨hk, hv, iht ht (fun hb => by cases hb) (hm _ (List.mem_append_left _ ht.mem_names))
      fun x hx => hm x (List.mem_append_left _ hx),
      ihr hr (fun _ => by omega) hp fun x hx => hm x (List.mem_append_right _ hx)⟩

/-- A tree without the parent and the child. -/
theorem Stored.mergeWords {t : MultiTree ℕ ℕ ℕ .tree} (h : Stored m j 0 t) (hp : p ∉ t.names)
    (hc : c ∉ t.names) : Stored (mergeWords m p c q index) j 0 t := by
  have hwords : ∀ x ∈ t.names, ∀ i ≠ parentWord, Fru1tOs.mergeWords m p c q index x i = m x i :=
    fun x hx i hi => mergeWords_of_ne (fun heq => hp (heq ▸ hx)) (fun heq => hc (heq ▸ hx)) hi
  exact h.congr_parent (fun hb => by cases hb) (hwords j h.mem_names) hwords

theorem Stored.name_eq {t : MultiTree ℕ ℕ ℕ .tree} (h : Stored m p j t) : t.name = p :=
  (stored_iff.1 h).1

theorem HasParents.congr {b : Kind} {t : MultiTree ℕ ℕ ℕ b} {par : ℕ} (h : HasParents m par t)
    (hm : ∀ x ∈ t.names, m' x parentWord = m x parentWord) : HasParents m' par t := by
  induction t generalizing par with
  | leaf q es => exact (hm q (List.mem_singleton_self q)).trans h
  | node q r ih =>
    exact ⟨(hm q List.mem_cons_self).trans h.1, ih h.2 fun x hx => hm x (List.mem_cons_of_mem _ hx)⟩
  | last t ih => exact ih h hm
  | cons t k v r iht ihr =>
    exact ⟨iht h.1 fun x hx => hm x (List.mem_append_left _ hx),
      ihr h.2 fun x hx => hm x (List.mem_append_right _ hx)⟩

/-- The nodes of the children of a tree. -/
theorem mem_names_of_child {t u : MultiTree ℕ ℕ ℕ .tree} (hu : u ∈ t.children) {x : ℕ}
    (hx : x ∈ u.names) : x ∈ t.names := by
  rw [names_tree]
  exact List.mem_cons_of_mem _ (List.mem_flatten_of_mem (List.mem_map_of_mem hu) hx)

theorem nodup_of_child {t u : MultiTree ℕ ℕ ℕ .tree} (hnodup : t.names.Nodup)
    (hu : u ∈ t.children) : u.names.Nodup := by
  rw [names_tree, List.nodup_cons, List.nodup_flatten] at hnodup
  exact hnodup.2.1 _ (List.mem_map_of_mem hu)

theorem name_not_mem_child {t u : MultiTree ℕ ℕ ℕ .tree} (hnodup : t.names.Nodup)
    (hu : u ∈ t.children) : t.name ∉ u.names := fun hx => by
  rw [names_tree, List.nodup_cons] at hnodup
  exact hnodup.1 (List.mem_flatten_of_mem (List.mem_map_of_mem hu) hx)

/-- Different children have no nodes in common. -/
theorem disjoint_children {t u u' : MultiTree ℕ ℕ ℕ .tree} (hnodup : t.names.Nodup) {i i' : ℕ}
    (hu : t.children[i]? = some u) (hu' : t.children[i']? = some u') (hne : i ≠ i') :
    u.names.Disjoint u'.names := by
  rw [names_tree, List.nodup_cons, List.nodup_flatten] at hnodup
  obtain ⟨hi, rfl⟩ := List.getElem?_eq_some_iff.1 hu
  obtain ⟨hi', rfl⟩ := List.getElem?_eq_some_iff.1 hu'
  have hpair := List.pairwise_iff_getElem.1 hnodup.2.2
  simp only [List.getElem_map, List.length_map] at hpair
  rcases lt_or_gt_of_ne hne with hlt | hlt
  · exact hpair i i' hi hi' hlt
  · exact (hpair i' i hi' hi hlt).symm

/-- A tree below another node. -/
theorem HasParents.reparent {t : MultiTree ℕ ℕ ℕ .tree} {par par' : ℕ} (h : HasParents m par t)
    (hnodup : t.names.Nodup) (hroot : m' t.name parentWord = par')
    (hm : ∀ x ∈ t.names, x ≠ t.name → m' x parentWord = m x parentWord) : HasParents m' par' t := by
  rw [hasParents_iff] at h ⊢
  refine ⟨hroot, fun u hu => (h.2 u hu).congr fun x hx => hm x (mem_names_of_child hu hx) ?_⟩
  rintro rfl
  exact name_not_mem_child hnodup hu hx

/-! ## The merged tree -/

/-- A tree at `p`, in which the child `index` has as many keys as `btree_merge_children` expects. -/
structure Siblings (m : ℕ → ℕ → ℕ) (p index : ℕ) (t t₁ : MultiTree ℕ ℕ ℕ .tree) (e : ℕ × ℕ)
    (t₂ : MultiTree ℕ ℕ ℕ .tree) : Prop where
  stored : Stored m p 0 t
  nodup : t.names.Nodup
  pair : t.pairAt index = some (t₁, e, t₂)
  alike : Alike t₁ t₂
  size : t₁.entries.length = btreeMinKeys

namespace Siblings

variable {t t₁ t₂ : MultiTree ℕ ℕ ℕ .tree} {e : ℕ × ℕ} {x : ℕ}

section Facts

variable (h : Siblings m p index t t₁ e t₂)

include h

theorem child : t.children[index]? = some t₁ := (pairAt_eq_some.1 h.pair).1

theorem entry : t.entries[index]? = some e := (pairAt_eq_some.1 h.pair).2.1

theorem sibling : t.children[index + 1]? = some t₂ := (pairAt_eq_some.1 h.pair).2.2

theorem hasEntries : HasEntries (m p) t.entries := (stored_iff.1 h.stored).2.2.2.2.2.1

theorem hasChildren : HasChildren m (m p) t.children := (stored_iff.1 h.stored).2.2.2.2.2.2

theorem length_children : t.children.length = t.entries.length + 1 := by
  refine (children_eq_nil_or t).resolve_left fun hnil => ?_
  have hchild := h.child
  rw [hnil] at hchild
  simp at hchild

theorem index_lt : index < t.entries.length := (List.getElem?_eq_some_iff.1 h.entry).1

theorem name_child : t₁.name = m p (9 + index) := (h.hasChildren index t₁ h.child).name_eq

theorem name_sibling : t₂.name = m p (9 + (index + 1)) :=
  (h.hasChildren (index + 1) t₂ h.sibling).name_eq

theorem stored_child : Stored m t₁.name 0 t₁ :=
  h.name_child ▸ h.hasChildren index t₁ h.child

theorem stored_sibling : Stored m t₂.name 0 t₂ :=
  h.name_sibling ▸ h.hasChildren (index + 1) t₂ h.sibling

theorem not_mem_child : p ∉ t₁.names := by
  have hp := name_not_mem_child h.nodup (List.mem_of_getElem? h.child)
  rwa [h.stored.name_eq] at hp

theorem not_mem_sibling : p ∉ t₂.names := by
  have hp := name_not_mem_child h.nodup (List.mem_of_getElem? h.sibling)
  rwa [h.stored.name_eq] at hp

theorem disjoint : t₁.names.Disjoint t₂.names :=
  disjoint_children h.nodup h.child h.sibling (Nat.lt_succ_self index).ne

theorem nodup_child : t₁.names.Nodup := nodup_of_child h.nodup (List.mem_of_getElem? h.child)

theorem nodup_sibling : t₂.names.Nodup := nodup_of_child h.nodup (List.mem_of_getElem? h.sibling)

/-- The children of the sibling are other nodes. -/
theorem isFree (hleaf : m t₁.name isLeafWord = 0) {i : ℕ} (hi : i ≤ m t₂.name numKeysWord) :
    IsFree m t₁.name t₂.name i := by
  obtain ⟨-, -, -, -, hinner₁, -, -⟩ := stored_iff.1 h.stored_child
  obtain ⟨-, -, hn₂, -, -, -, hch₂⟩ := stored_iff.1 h.stored_sibling
  have hne : t₂.children ≠ [] := fun hnil => hinner₁.1 hleaf (h.alike.children_eq_nil.2 hnil)
  have hlen := (children_eq_nil_or t₂).resolve_left hne
  obtain ⟨u, hu⟩ : ∃ u, t₂.children[i]? = some u :=
    ⟨_, List.getElem?_eq_getElem (show i < t₂.children.length by omega)⟩
  have hstored := hch₂ i u hu
  have hmem := List.mem_of_getElem? hu
  have hname : u.name = m t₂.name (9 + i) := hstored.name_eq
  refine ⟨hstored.ne_zero, fun heq => ?_, fun heq => ?_⟩
  · refine h.disjoint (name_mem_names t₁) (mem_names_of_child hmem ?_)
    rw [← heq, ← hname]
    exact name_mem_names u
  · refine name_not_mem_child h.nodup_sibling hmem ?_
    rw [← heq, ← hname]
    exact name_mem_names u

/-- The nodes that get another parent. -/
theorem adopted_iff : (m t₁.name isLeafWord = 0 ∧
    x ∈ (List.range (m t₂.name numKeysWord + 1)).map fun i => m t₂.name (9 + i)) ↔
      ∃ u ∈ t₂.children, u.name = x := by
  obtain ⟨-, -, -, -, hinner₁, -, -⟩ := stored_iff.1 h.stored_child
  obtain ⟨-, -, hn₂, -, -, -, hch₂⟩ := stored_iff.1 h.stored_sibling
  rw [hinner₁, ne_eq, h.alike.children_eq_nil]
  constructor
  · rintro ⟨hne, hx⟩
    have hlen := (children_eq_nil_or t₂).resolve_left hne
    obtain ⟨i, hi, rfl⟩ := List.mem_map.1 hx
    rw [List.mem_range, hn₂, ← hlen] at hi
    exact ⟨_, List.getElem_mem hi, (hch₂ i _ (List.getElem?_eq_getElem hi)).name_eq⟩
  · rintro ⟨u, hu, rfl⟩
    have hne : t₂.children ≠ [] := List.ne_nil_of_mem hu
    have hlen := (children_eq_nil_or t₂).resolve_left hne
    obtain ⟨i, hi, rfl⟩ := List.mem_iff_getElem.1 hu
    refine ⟨hne, List.mem_map.2 ⟨i, List.mem_range.2 (by omega), ?_⟩⟩
    exact (hch₂ i _ (List.getElem?_eq_getElem hi)).name_eq.symm

/-! ### The words after the merge -/

theorem name_ne : t₁.name ≠ p := fun heq => h.not_mem_child (heq ▸ name_mem_names t₁)

theorem name_ne_name : t₂.name ≠ t₁.name := fun heq =>
  h.disjoint (heq ▸ name_mem_names t₁) (name_mem_names t₂)

theorem words_child : mergeWords m p t₁.name t₂.name index t₁.name =
    joinWords m p t₁.name t₂.name index t₁.name := Function.update_of_ne h.name_ne ..

/-- The nodes that keep their parent. -/
theorem words_of_not_adopted (hxp : x ≠ p) (hxc : x ≠ t₁.name)
    (hx : ∀ u ∈ t₂.children, u.name ≠ x) : mergeWords m p t₁.name t₂.name index x = m x := by
  rw [mergeWords, Function.update_of_ne hxp, joinWords, if_neg hxc, if_neg]
  rw [h.adopted_iff]
  rintro ⟨u, hu, hux⟩
  exact hx u hu hux

/-- The nodes that get another one. -/
theorem words_of_adopted {u : MultiTree ℕ ℕ ℕ .tree} (hu : u ∈ t₂.children) :
    mergeWords m p t₁.name t₂.name index u.name parentWord = t₁.name := by
  have hmem : u.name ∈ t₂.names := mem_names_of_child hu (name_mem_names u)
  have hup : u.name ≠ p := fun heq => h.not_mem_sibling (heq ▸ hmem)
  have huc : u.name ≠ t₁.name := fun heq => h.disjoint (heq ▸ name_mem_names t₁) hmem
  rw [mergeWords, Function.update_of_ne hup, joinWords, if_neg huc,
    if_pos (h.adopted_iff.2 ⟨u, hu, rfl⟩), Function.update_self]

/-- The words of the child. -/
theorem words_join (i : ℕ) : mergeWords m p t₁.name t₂.name index t₁.name i =
    if i = numKeysWord then t₁.entries.length + t₂.entries.length + 1
    else if i = 3 then e.1 else if i = 7 then e.2
    else if (4 ≤ i ∧ i < 4 + t₂.entries.length) ∨ (8 ≤ i ∧ i < 8 + t₂.entries.length) ∨
      (m t₁.name isLeafWord = 0 ∧ 12 ≤ i ∧ i < 13 + t₂.entries.length) then m t₂.name (i - 3)
    else m t₁.name i := by
  have hentry := h.hasEntries index e h.entry
  rw [base_keys, base_values] at hentry
  rw [h.words_child, joinWords, if_pos rfl, (stored_iff.1 h.stored_child).2.2.1,
    (stored_iff.1 h.stored_sibling).2.2.1, hentry.1, hentry.2]

/-- The entries of the child, the one between, and those of the sibling. -/
theorem hasEntries_join (hsize : t₂.entries.length ≤ 1) :
    HasEntries (mergeWords m p t₁.name t₂.name index t₁.name) (t₁.entries ++ e :: t₂.entries) := by
  intro i e' he'
  have hes₁ := (stored_iff.1 h.stored_child).2.2.2.2.2.1
  have hes₂ := (stored_iff.1 h.stored_sibling).2.2.2.2.2.1
  have hmin : t₁.entries.length = 2 := h.size
  have hnum : numKeysWord = 0 := rfl
  rw [base_keys, base_values, h.words_join, h.words_join]
  rcases lt_trichotomy i 2 with hi | rfl | hi
  · rw [List.getElem?_append_left (by omega)] at he'
    have := hes₁ i e' he'
    rw [base_keys, base_values] at this
    split_ifs <;> omega
  · rw [List.getElem?_append_right (by omega), hmin, Nat.sub_self, List.getElem?_cons_zero,
      Option.some_inj] at he'
    subst he'
    rw [if_neg (by decide), if_pos rfl, if_neg (by decide), if_neg (by decide), if_pos rfl]
    exact ⟨rfl, rfl⟩
  · rw [List.getElem?_append_right (by omega), hmin] at he'
    obtain ⟨x, rfl⟩ : ∃ x, i = x + 3 := ⟨i - 3, by omega⟩
    rw [show x + 3 - 2 = x + 1 by omega, List.getElem?_cons_succ] at he'
    have hx := (List.getElem?_eq_some_iff.1 he').1
    have := hes₂ x e' he'
    rw [base_keys, base_values] at this
    obtain rfl : x = 0 := by omega
    rw [if_neg (by decide), if_neg (by decide), if_neg (by decide), if_pos (by omega),
      if_neg (by decide), if_neg (by decide), if_neg (by decide), if_pos (by omega)]
    exact this

/-- The children of the child and those of the sibling. -/
theorem hasChildren_join (hsize : t₂.entries.length ≤ 1) :
    HasChildren (mergeWords m p t₁.name t₂.name index)
      (mergeWords m p t₁.name t₂.name index t₁.name) (t₁.children ++ t₂.children) := by
  intro i u hu
  obtain ⟨-, -, -, -, hinner₁, -, hch₁⟩ := stored_iff.1 h.stored_child
  have hch₂ := (stored_iff.1 h.stored_sibling).2.2.2.2.2.2
  have hmin : t₁.entries.length = 2 := h.size
  have hnum : numKeysWord = 0 := rfl
  rw [base_children, h.words_join, if_neg (by omega), if_neg (by omega), if_neg (by omega)]
  by_cases hi : i < t₁.children.length
  · rw [List.getElem?_append_left hi] at hu
    have hmem := List.mem_of_getElem? hu
    have hlen := (children_eq_nil_or t₁).resolve_left (List.ne_nil_of_mem hmem)
    rw [if_neg (by omega)]
    exact (hch₁ i u hu).mergeWords (fun hx => h.not_mem_child (mem_names_of_child hmem hx))
      (name_not_mem_child h.nodup_child hmem)
  · rw [List.getElem?_append_right (not_lt.1 hi)] at hu
    have hmem := List.mem_of_getElem? hu
    have hne : t₂.children ≠ [] := List.ne_nil_of_mem hmem
    have hne₁ : t₁.children ≠ [] := fun hnil => hne (h.alike.children_eq_nil.1 hnil)
    have hlen₁ := (children_eq_nil_or t₁).resolve_left hne₁
    have hlen₂ := (children_eq_nil_or t₂).resolve_left hne
    have hx := (List.getElem?_eq_some_iff.1 hu).1
    obtain ⟨x, rfl⟩ : ∃ x, i = x + 3 := ⟨i - 3, by omega⟩
    rw [hlen₁, hmin, Nat.add_sub_cancel] at hu hx
    rw [if_pos (.inr (.inr ⟨hinner₁.2 hne₁, by omega, by omega⟩)),
      show 9 + (x + 3) - 3 = 9 + x by omega]
    exact (hch₂ x u hu).mergeWords (fun hx => h.not_mem_sibling (mem_names_of_child hmem hx))
      fun hx => h.disjoint (name_mem_names t₁) (mem_names_of_child hmem hx)

/-- The child with the sibling's entries. -/
theorem stored_join (hsize : t₂.entries.length ≤ 1) :
    Stored (mergeWords m p t₁.name t₂.name index) t₁.name 0 (t₁.join e.1 e.2 t₂) := by
  have hmin : t₁.entries.length = 2 := h.size
  have hleaf : isLeafWord = 15 := rfl
  rw [stored_iff, entries_join h.alike, children_join h.alike, name_join h.alike]
  refine ⟨rfl, h.stored_child.ne_zero, ?_, ?_, ?_, h.hasEntries_join hsize,
    h.hasChildren_join hsize⟩
  · rw [h.words_join, if_pos rfl, List.length_append, List.length_cons]
    omega
  · rw [List.length_append, List.length_cons]
    simp only [btreeMaxKeys, btreeOrder]
    omega
  · rw [h.words_join, if_neg (by decide), if_neg (by decide), if_neg (by decide),
      if_neg (by omega), (stored_iff.1 h.stored_child).2.2.2.2.1, ne_eq, ne_eq,
      List.append_eq_nil_iff, h.alike.children_eq_nil, and_self]

/-- The child `i` of the merged tree: the joined one, or one that was there. -/
theorem child_cases {i : ℕ} {u : MultiTree ℕ ℕ ℕ .tree}
    (hu : (t.mergeAt index).children[i]? = some u) :
    (i = index ∧ u = t₁.join e.1 e.2 t₂) ∨
      ∃ k, k ≠ index ∧ k ≠ index + 1 ∧ t.children[k]? = some u ∧
        k = if i < index then i else i + 1 := by
  rw [children_mergeAt h.pair, List.getElem?_set] at hu
  split_ifs at hu with hi
  · exact .inl ⟨hi.symm, (Option.some_inj.1 hu).symm⟩
  · rw [List.getElem?_eraseIdx] at hu
    split_ifs at hu with hlt
    · exact .inr ⟨i, by omega, by omega, hu, (if_pos (by omega)).symm⟩
    · exact .inr ⟨i + 1, by omega, by omega, hu, (if_neg (by omega)).symm⟩

/-- Another child has neither the parent nor the child in it. -/
theorem not_mem_other {k : ℕ} {u : MultiTree ℕ ℕ ℕ .tree} (hu : t.children[k]? = some u)
    (hk : k ≠ index) : p ∉ u.names ∧ t₁.name ∉ u.names := by
  have hp := name_not_mem_child h.nodup (List.mem_of_getElem? hu)
  rw [h.stored.name_eq] at hp
  exact ⟨hp, fun hx => disjoint_children h.nodup hu h.child hk hx (name_mem_names t₁)⟩

/-- The memory has the merged tree. -/
theorem stored_mergeAt (hsize : t₂.entries.length ≤ 1) :
    Stored (mergeWords m p t₁.name t₂.name index) p 0 (t.mergeAt index) := by
  obtain ⟨hname, hp, hn, hle, hinner, hes, hch⟩ := stored_iff.1 h.stored
  have hindex := h.index_lt
  have hlen := h.length_children
  have hle4 : t.entries.length ≤ 4 := hle
  have hlt : index + 1 < t.children.length := by omega
  have hnum : numKeysWord = 0 := rfl
  have hleaf : isLeafWord = 15 := rfl
  rw [stored_iff, entries_mergeAt h.pair, name_mergeAt, mergeWords_self]
  have hwords : ∀ i, shrunkWords (m p) index i = if i = numKeysWord then t.entries.length - 1
      else if (1 + index ≤ i ∧ i < t.entries.length) ∨ (5 + index ≤ i ∧ i < 4 + t.entries.length) ∨
        (10 + index ≤ i ∧ i < 9 + t.entries.length) then m p (i + 1) else m p i := fun i => by
    rw [shrunkWords, hn]
  refine ⟨hname, hp, ?_, ?_, ?_, fun i e' he' => ?_, fun i u hu => ?_⟩
  · rw [hwords, if_pos rfl, List.length_eraseIdx_of_lt hindex]
  · rw [List.length_eraseIdx_of_lt hindex]
    omega
  · have hne : t.children ≠ [] := List.ne_nil_of_length_eq_add_one hlen
    have hne' : (t.mergeAt index).children ≠ [] := by
      rw [children_mergeAt h.pair]
      refine List.ne_nil_of_length_pos ?_
      rw [List.length_set, List.length_eraseIdx_of_lt hlt]
      omega
    rw [hwords, if_neg (by decide), if_neg (by omega), hinner]
    exact iff_of_true hne hne'
  · have hi := (List.getElem?_eq_some_iff.1 he').1
    rw [List.length_eraseIdx_of_lt hindex] at hi
    rw [List.getElem?_eraseIdx] at he'
    rw [base_keys, base_values, hwords, hwords]
    split_ifs at he' with hlt'
    · rw [if_neg (by omega), if_neg (by omega), if_neg (by omega), if_neg (by omega)]
      exact hes i e' he'
    · rw [if_neg (by omega), if_pos (by omega), if_neg (by omega), if_pos (by omega)]
      exact hes (i + 1) e' he'
  · rw [base_children, hwords, if_neg (by omega)]
    rcases h.child_cases hu with ⟨rfl, rfl⟩ | ⟨k, hk, hk', hu, hki⟩
    · rw [if_neg (by omega), ← h.name_child]
      exact h.stored_join hsize
    · obtain ⟨hup, huc⟩ := h.not_mem_other hu hk
      have hkt := (List.getElem?_eq_some_iff.1 hu).1
      have haddr : (if (1 + index ≤ 9 + i ∧ 9 + i < t.entries.length) ∨
          (5 + index ≤ 9 + i ∧ 9 + i < 4 + t.entries.length) ∨
          (10 + index ≤ 9 + i ∧ 9 + i < 9 + t.entries.length) then m p (9 + i + 1)
          else m p (9 + i)) = m p (9 + k) := by
        split_ifs at hki ⊢ <;> first | omega | (congr 1; omega)
      rw [haddr]
      exact (hch k u hu).mergeWords hup huc

/-- A node outside the sibling keeps its parent. -/
theorem parent_of_not_mem (hxp : x ≠ p) (hxc : x ≠ t₁.name) (hx : x ∉ t₂.names) :
    mergeWords m p t₁.name t₂.name index x parentWord = m x parentWord := by
  rw [h.words_of_not_adopted hxp hxc]
  rintro u hu rfl
  exact hx (mem_names_of_child hu (name_mem_names u))

/-- The children of the sibling have the child as parent. -/
theorem hasParents_adopted {u : MultiTree ℕ ℕ ℕ .tree} {i par : ℕ} (hu : t₂.children[i]? = some u)
    (hpar : HasParents m par u) :
    HasParents (mergeWords m p t₁.name t₂.name index) t₁.name u := by
  have hmem := List.mem_of_getElem? hu
  refine hpar.reparent (nodup_of_child h.nodup_sibling hmem) (h.words_of_adopted hmem)
    fun x hx hxu => ?_
  have hxt := mem_names_of_child hmem hx
  rw [h.words_of_not_adopted (fun heq => h.not_mem_sibling (heq ▸ hxt))
    fun heq => h.disjoint (heq ▸ name_mem_names t₁) hxt]
  rintro u' hu' rfl
  obtain ⟨i', hi', rfl⟩ := List.mem_iff_getElem.1 hu'
  have hne : i ≠ i' := by
    rintro rfl
    rw [List.getElem?_eq_getElem hi', Option.some_inj] at hu
    exact hxu (congrArg name hu)
  exact disjoint_children h.nodup_sibling hu (List.getElem?_eq_getElem hi') hne hx
    (name_mem_names _)

/-- The parent pointers are right after the merge if they were before. -/
theorem hasParents_mergeAt (hsize : t₂.entries.length ≤ 1) {par : ℕ} (hpar : HasParents m par t) :
    HasParents (mergeWords m p t₁.name t₂.name index) par (t.mergeAt index) := by
  obtain ⟨hname, -, hn, hle, -⟩ := stored_iff.1 h.stored
  have hle4 : t.entries.length ≤ 4 := hle
  have hnum : numKeysWord = 0 := rfl
  have hparent : parentWord = 14 := rfl
  rw [hasParents_iff, hname] at hpar
  rw [hasParents_iff, name_mergeAt, hname, mergeWords_self, shrunkWords, hn, if_neg (by omega),
    if_neg (by omega)]
  refine ⟨hpar.1, fun u hu => ?_⟩
  obtain ⟨i, hi, rfl⟩ := List.mem_iff_getElem.1 hu
  rcases h.child_cases (List.getElem?_eq_getElem hi) with ⟨-, hjoin⟩ | ⟨k, hk, hk', hu, -⟩
  · have h₁ := hpar.2 t₁ (List.mem_of_getElem? h.child)
    have h₂ := hpar.2 t₂ (List.mem_of_getElem? h.sibling)
    rw [hasParents_iff] at h₁ h₂
    have hn₂ := (stored_iff.1 h.stored_sibling).2.2.1
    rw [hjoin, hasParents_iff, name_join h.alike, children_join h.alike, h.words_child, joinWords,
      if_pos rfl, hn₂, if_neg (by omega), if_neg (by omega), if_neg (by omega), if_neg (by omega)]
    refine ⟨h₁.1, fun v hv => ?_⟩
    rcases List.mem_append.1 hv with hv | hv
    · refine (h₁.2 v hv).congr fun x hx => ?_
      have hxt := mem_names_of_child hv hx
      refine h.parent_of_not_mem (fun heq => h.not_mem_child (heq ▸ hxt)) ?_ (h.disjoint hxt)
      rintro rfl
      exact name_not_mem_child h.nodup_child hv hx
    · obtain ⟨k, hk⟩ := List.mem_iff_getElem?.1 hv
      exact h.hasParents_adopted hk (h₂.2 v hv)
  · obtain ⟨hup, huc⟩ := h.not_mem_other hu hk
    refine (hpar.2 _ (List.mem_of_getElem? hu)).congr fun x hx => ?_
    exact h.parent_of_not_mem (fun heq => hup (heq ▸ hx)) (fun heq => huc (heq ▸ hx))
      (disjoint_children h.nodup hu h.sibling hk' hx)

/-- Nodes that are not in the tree stay as they are. -/
theorem words_of_not_mem (hx : x ∉ t.names) :
    mergeWords m p t₁.name t₂.name index x = m x := by
  have hchild := List.mem_of_getElem? h.child
  have hsibling := List.mem_of_getElem? h.sibling
  refine h.words_of_not_adopted ?_ ?_ ?_
  · rintro rfl
    exact hx h.stored.mem_names
  · rintro rfl
    exact hx (mem_names_of_child hchild (name_mem_names t₁))
  · rintro u hu rfl
    exact hx (mem_names_of_child hsibling (mem_names_of_child hu (name_mem_names u)))

end Facts

end Siblings

/-! ## The function -/

/-- With a sibling of at most one key, all accesses are in bounds. -/
theorem Siblings.run {t t₁ t₂ : MultiTree ℕ ℕ ℕ .tree} {e : ℕ × ℕ}
    (h : Siblings s.words p index t t₁ e t₂) (hsize : t₂.entries.length ≤ 1) :
    (btreeMergeChildren p index).run s =
      some (t₂.name, s.withWords (mergeWords s.words p t₁.name t₂.name index)) := by
  obtain ⟨-, hp, hn, hle, -⟩ := stored_iff.1 h.stored
  have h₁ := h.stored_child
  have h₂ := h.stored_sibling
  have hle4 : t.entries.length ≤ 4 := hle
  have hindex := h.index_lt
  have hn₂ := (stored_iff.1 h₂).2.2.1
  have hc : s.words p (9 + index) = t₁.name := h.name_child.symm
  have hq : s.words p (9 + (index + 1)) = t₂.name := h.name_sibling.symm
  have hjoin := run_joinChild hp h₁.ne_zero h₂.ne_zero h.name_ne h.name_ne_name
    (lt_of_lt_of_le hindex hle) (hn₂ ▸ hsize) fun hleaf i hi => h.isFree hleaf hi
  -- The parent is as it was.
  have hparent : joinWords s.words p t₁.name t₂.name index p = s.words p := by
    rw [joinWords, if_neg h.name_ne.symm, if_neg]
    rw [h.adopted_iff]
    rintro ⟨u, hu, rfl⟩
    exact h.not_mem_sibling (mem_names_of_child hu (name_mem_names u))
  have hshrink : (shrinkParent p index).run
      (s.withWords (joinWords s.words p t₁.name t₂.name index)) = _ :=
    run_shrinkParent hp (by rw [BtreeMem.words_withWords, hparent, hn]; exact hindex)
      (by rw [BtreeMem.words_withWords, hparent, hn]; exact hle)
  rw [BtreeMem.words_withWords, hparent] at hshrink
  have hi : index < NodeArray.children.capacity := by
    rw [capacity_children]
    omega
  have hi' : index + 1 < NodeArray.children.capacity := by
    rw [capacity_children]
    omega
  simp only [btreeMergeChildren_eq, StateT.run_bind, run_getAt hp hi, run_getAt hp hi',
    Option.bind_eq_bind, Option.bind_some, base_children, hc, hq, hjoin, hshrink]
  rfl

/-! ## Out of bounds -/

section Out

variable {α β : Type}

/-- What was out of bounds stays so. -/
def StaysOut (x : BtreeM α) : Prop :=
  ∀ s a s', x.run s = some (a, s') → s.inBounds = false → s'.inBounds = false

/-- An access is out of bounds. -/
def GoesOut (x : BtreeM α) : Prop := ∀ s a s', x.run s = some (a, s') → s'.inBounds = false

namespace StaysOut

theorem pure (a : α) : StaysOut (Pure.pure a : BtreeM α) := by
  intro s b s' hrun
  cases hrun
  exact id

theorem bind {x : BtreeM α} {f : α → BtreeM β} (hx : StaysOut x) (hf : ∀ a, StaysOut (f a)) :
    StaysOut (x >>= f) := by
  intro s b s' hrun hout
  rw [StateT.run_bind] at hrun
  obtain ⟨⟨a, s₁⟩, hx', hf'⟩ := Option.bind_eq_some_iff.1 hrun
  exact hf a s₁ b s' hf' (hx s a s₁ hx' hout)

theorem ite {c : Prop} [Decidable c] {x y : BtreeM α} (hx : StaysOut x) (hy : StaysOut y) :
    StaysOut (if c then x else y) := by
  split_ifs
  · exact hx
  · exact hy

theorem forM {l : List α} {f : α → BtreeM PUnit} (hf : ∀ a, StaysOut (f a)) :
    StaysOut (l.forM f) := by
  induction l with
  | nil => exact pure _
  | cons a l ih => exact (hf a).bind fun _ => ih

end StaysOut

namespace GoesOut

theorem bind_left {x : BtreeM α} {f : α → BtreeM β} (hx : GoesOut x) (hf : ∀ a, StaysOut (f a)) :
    GoesOut (x >>= f) := by
  intro s b s' hrun
  rw [StateT.run_bind] at hrun
  obtain ⟨⟨a, s₁⟩, hx', hf'⟩ := Option.bind_eq_some_iff.1 hrun
  exact hf a s₁ b s' hf' (hx s a s₁ hx')

theorem bind_right {x : BtreeM α} {f : α → BtreeM β} (hf : ∀ a, GoesOut (f a)) :
    GoesOut (x >>= f) := by
  intro s b s' hrun
  rw [StateT.run_bind] at hrun
  obtain ⟨⟨a, s₁⟩, -, hf'⟩ := Option.bind_eq_some_iff.1 hrun
  exact hf a s₁ b s' hf'

/-- A loop of which some pass goes out of bounds. -/
theorem forM {l : List α} {f : α → BtreeM PUnit} {a : α} (ha : a ∈ l) (hout : GoesOut (f a))
    (hf : ∀ a, StaysOut (f a)) : GoesOut (l.forM f) := by
  induction l with
  | nil => cases ha
  | cons b l ih =>
    rcases List.mem_cons.1 ha with rfl | ha
    · exact hout.bind_left fun _ => .forM hf
    · exact bind_right fun _ => ih ha

end GoesOut

variable (a : NodeArray) (i v j q : ℕ)

theorem staysOut_loadWord : StaysOut (loadWord p i) := by
  intro s a s' hrun
  simp only [loadWord, StateT.run] at hrun
  split_ifs at hrun
  cases hrun
  exact id

theorem staysOut_storeWord : StaysOut (storeWord p i v) := by
  intro s a s' hrun
  simp only [storeWord, StateT.run] at hrun
  split_ifs at hrun
  cases hrun
  exact id

theorem staysOut_logAccess (ok : Bool) : StaysOut (logAccess ok) := by
  intro s a s' hrun hout
  cases hrun
  rw [BtreeMem.access, hout, Bool.false_and]

theorem staysOut_getAt : StaysOut (getAt a p i) :=
  (staysOut_logAccess _).bind fun _ => staysOut_loadWord _

theorem staysOut_copyAt : StaysOut (copyAt a q j p i) :=
  (staysOut_getAt _ _).bind fun _ => (staysOut_logAccess _).bind fun _ => staysOut_storeWord _ _

/-- A copy past the end of an array. -/
theorem goesOut_copyAt (hj : a.capacity ≤ j) : GoesOut (copyAt a q j p i) := by
  refine .bind_right fun v => .bind_left ?_ fun _ => staysOut_storeWord _ _
  intro s b s' hrun
  cases hrun
  rw [BtreeMem.access, decide_eq_false (not_lt.2 hj), Bool.and_false]

end Out

theorem staysOut_shrinkParent (p index : ℕ) : StaysOut (shrinkParent p index) := by
  refine (staysOut_loadWord _).bind fun n => (StaysOut.forM fun i => ?_).bind fun _ =>
    (StaysOut.forM fun i => staysOut_copyAt _ _ _ _).bind fun _ => staysOut_storeWord _ _
  exact (staysOut_copyAt _ _ _ _).bind fun _ => staysOut_copyAt _ _ _ _

/-- A sibling with more than one key does not fit. -/
theorem joinChild_goesOut (hp : p ≠ 0) (hc : c ≠ 0) (hq : q ≠ 0) (hqc : q ≠ c)
    (hindex : index < btreeMaxKeys) (hn : 1 < s.words q numKeysWord) {a : Unit}
    (hrun : (joinChild p index c q).run s = some (a, s')) : s'.inBounds = false := by
  have hmin : btreeMinKeys < 4 := by decide
  rw [joinChild, StateT.run_bind, run_copyAt (a := .keys) hc hp hmin hindex, Option.bind_eq_bind,
    Option.bind_some, StateT.run_bind, run_copyAt (a := .values) hc hp hmin hindex,
    Option.bind_eq_bind, Option.bind_some, StateT.run_bind, run_numKeys hq, Option.bind_eq_bind,
    Option.bind_some, BtreeMem.words_setNode_of_ne hqc, BtreeMem.words_setNode_of_ne hqc] at hrun
  have hset : StaysOut (do
      setNumKeys c ((← numKeys c) + (← numKeys q) + 1)) :=
    (staysOut_loadWord _).bind fun _ => (staysOut_loadWord _).bind fun _ => staysOut_storeWord _ _
  refine GoesOut.bind_left (GoesOut.forM (List.mem_range.2 hn) ?_ fun i => ?_) (fun _ => ?_) _ _ _
    hrun
  · exact .bind_left (goesOut_copyAt _ _ _ _ (by decide)) fun _ => staysOut_copyAt _ _ _ _
  · exact (staysOut_copyAt _ _ _ _).bind fun _ => staysOut_copyAt _ _ _ _
  · refine (staysOut_loadWord _).bind fun leaf => .ite ?_ hset
    refine (staysOut_loadWord _).bind fun n => (StaysOut.forM fun i => ?_).bind fun _ => hset
    refine (staysOut_copyAt _ _ _ _).bind fun _ => (staysOut_getAt _ _).bind fun d => .ite ?_ ?_
    · exact staysOut_storeWord _ _
    · exact .pure _

/-- So `btree_merge_children` goes out of bounds. -/
theorem Siblings.goesOut {t t₁ t₂ : MultiTree ℕ ℕ ℕ .tree} {e : ℕ × ℕ}
    (h : Siblings s.words p index t t₁ e t₂) (hsize : 1 < t₂.entries.length) {a : ℕ}
    (hrun : (btreeMergeChildren p index).run s = some (a, s')) : s'.inBounds = false := by
  obtain ⟨-, hp, -, hle, -⟩ := stored_iff.1 h.stored
  have h₁ := h.stored_child
  have h₂ := h.stored_sibling
  have hindex := lt_of_lt_of_le h.index_lt hle
  have hn₂ := (stored_iff.1 h₂).2.2.1
  rw [btreeMergeChildren_eq, StateT.run_bind, run_getAt hp (Nat.lt_succ_of_lt hindex),
    Option.bind_eq_bind, Option.bind_some, StateT.run_bind,
    run_getAt hp (Nat.succ_lt_succ hindex), Option.bind_eq_bind, Option.bind_some, base_children,
    ← h.name_child, ← h.name_sibling, StateT.run_bind] at hrun
  obtain ⟨⟨u, s₁⟩, hjoin, hrest⟩ := Option.bind_eq_some_iff.1 hrun
  have hout := joinChild_goesOut hp h₁.ne_zero h₂.ne_zero h.name_ne_name hindex (hn₂ ▸ hsize)
    hjoin
  exact ((staysOut_shrinkParent p index).bind fun _ => .pure _) _ _ _ hrest hout

/-- What a merge should come to: the accesses are in bounds, and there is a tree with the same
    entries and the depth of the leaves as before, of the same nodes less the one that is freed,
    with right parent pointers if they were right. All else stays. -/
structure MergedTree (s : BtreeMem) (p : ℕ) (t : MultiTree ℕ ℕ ℕ .tree) (freed : ℕ)
    (s' : BtreeMem) (t' : MultiTree ℕ ℕ ℕ .tree) : Prop where
  inBounds : s'.inBounds = true
  stored : Stored s'.words p 0 t'
  toList : t'.toList = t.toList
  names : (freed :: t'.names).Perm t.names
  level : ∀ n, t.Level n → t'.Level n
  parents : ∀ par, HasParents s.words par t → HasParents s'.words par t'
  kept : ∀ x ∉ t.names, s'.words x = s.words x

/-- `btree_merge_children` of a child with `BTREE_MIN_KEYS` keys and the next one, of a tree of any
    shape, does what it should exactly if the sibling has not more than one key. So it never does
    when both have `BTREE_MIN_KEYS`. -/
theorem btree_merge_children_iff {t t₁ t₂ : MultiTree ℕ ℕ ℕ .tree} {e : ℕ × ℕ}
    (h : Siblings s.words p index t t₁ e t₂) (hbounds : s.inBounds = true) :
    (∃ freed s' t', (btreeMergeChildren p index).run s = some (freed, s') ∧
      MergedTree s p t freed s' t') ↔ t₂.entries.length ≤ 1 := by
  constructor
  · rintro ⟨freed, s', t', hrun, hmerged⟩
    by_contra hlt
    have hout := h.goesOut (not_le.1 hlt) hrun
    rw [hmerged.inBounds] at hout
    cases hout
  · intro hsize
    refine ⟨_, _, t.mergeAt index, h.run hsize, ?_⟩
    exact
      { inBounds := hbounds
        stored := h.stored_mergeAt hsize
        toList := toList_mergeAt h.pair h.alike
        names := names_mergeAt h.pair h.alike
        level := fun n hlevel => hlevel.mergeAt h.pair h.alike
        parents := fun par hpar => h.hasParents_mergeAt hsize hpar
        kept := fun x hx => h.words_of_not_mem hx }

/-- A root with one key, between a leaf with two keys and one with one key. -/
def siblingsTree : MultiTree ℕ ℕ ℕ .tree :=
  twoLeaves 16 32 48 [(1, 10), (3, 30)] (5, 50) [(7, 70)]

/-- The nodes of `siblingsTree`. -/
def siblingsMem : BtreeMem where
  words p := fun i => (if p = 16 then [1, 5, 0, 0, 0, 50, 0, 0, 0, 32, 48]
    else if p = 32 then [2, 1, 3, 0, 0, 10, 30, 0, 0, 0, 0, 0, 0, 0, 16, 1]
    else if p = 48 then [1, 7, 0, 0, 0, 70, 0, 0, 0, 0, 0, 0, 0, 0, 16, 1] else []).getD i 0
  fresh _ := 0
  calls := 0
  inBounds := true

theorem siblings_siblingsTree : Siblings siblingsMem.words 16 0 siblingsTree
    (leaf 32 [(1, 10), (3, 30)]) (5, 50) (leaf 48 [(7, 70)]) := by
  refine ⟨(stored_twoLeaves (by decide)).2 ⟨⟨rfl, rfl, rfl, rfl, rfl⟩, ?_, ?_⟩, ?_, rfl, trivial,
    rfl⟩
  · exact IsPair.stored ⟨rfl, by decide, rfl, rfl⟩ (by decide)
  · refine ⟨rfl, by decide, rfl, by decide, by decide, ?_⟩
    rintro (_ | i) e he
    · obtain rfl := Option.some.inj he
      exact ⟨rfl, rfl⟩
    · simp at he
  · show [16, 32, 48].Nodup
    decide

/-- The two leaves become one, of which the root has nothing left. -/
theorem btree_merge_children_small : ∃ freed s' t',
    (btreeMergeChildren 16 0).run siblingsMem = some (freed, s') ∧
      MergedTree siblingsMem 16 siblingsTree freed s' t' :=
  (btree_merge_children_iff siblings_siblingsTree rfl).2 (by decide)

end Fru1tOs
