import Fru1tOs.Btree.Repr

/-!
# Insertion into a B-tree

As long as the tree is one leaf, insertion keeps its entries in order
(`run_btreeInsertNonFull_leaf`). The first split goes wrong (`btreeInsert_full`): of the four
keys of the node, the middle one moves up and the one after it moves to the new node,
but `btree_split_child` moves two. What it takes for a fifth key is the first
element of the next array.
-/

namespace Fru1tOs

open Lib MultiTree

variable {s s' : BtreeMem} {p q i j key value : ℕ} {a : NodeArray}

/-! ## New nodes -/

/-- The words of a new node, at a place where the words `w` were. -/
def blankNode (isLeaf : ℕ) (w : ℕ → ℕ) : ℕ → ℕ := fun i =>
  if i < isLeafWord then 0 else if i = isLeafWord then isLeaf else w i

/-- The memory after a call of `kmalloc`. -/
def BtreeMem.nextCall (s : BtreeMem) : BtreeMem := { s with calls := s.calls + 1 }

theorem run_btreeNodeCreate (isLeaf : ℕ) (hq : s.fresh s.calls ≠ 0) :
    (btreeNodeCreate isLeaf).run s = some (s.fresh s.calls,
      s.nextCall.setNode (s.fresh s.calls) (blankNode isLeaf (s.words (s.fresh s.calls)))) := by
  have hmalloc : kmallocNode.run s = some (s.fresh s.calls, s.nextCall) := rfl
  have hrange4 : List.range btreeMaxKeys = [0, 1, 2, 3] := rfl
  have hrange5 : List.range btreeOrder = [0, 1, 2, 3, 4] := rfl
  generalize s.fresh s.calls = q at hq hmalloc ⊢
  have hset : ∀ a i v (s : BtreeMem), i < NodeArray.capacity a → (setAt a q i v).run s =
      some ((), s.setNode q (Function.update (s.words q) (a.base + i) v)) :=
    fun a i v s hi => run_setAt hq hi v s
  simp only [btreeNodeCreate, StateT.run_bind, hmalloc, Option.bind_eq_bind, Option.bind_some,
    if_neg hq, run_setNumKeys hq, run_storeWord hq, run_setParent hq, hrange4, hrange5,
    List.forM_eq_forM, List.forM_cons, List.forM_nil]
  simp (disch := decide) only [hset, Option.bind_some, Option.pure_def, StateT.run_pure,
    BtreeMem.words_setNode_self, BtreeMem.setNode_setNode]
  congr 3
  funext i
  by_cases hi : i < 16
  · interval_cases i <;> rfl
  · have hleaf : isLeafWord = 15 := rfl
    have hparent : parentWord = 14 := rfl
    have hnum : numKeysWord = 0 := rfl
    rw [blankNode, if_neg (by omega), if_neg (by omega)]
    simp (disch := simp <;> omega) only [Function.update_of_ne]
    rfl

theorem run_btreeNodeCreate_null (isLeaf : ℕ) (hq : s.fresh s.calls = 0) :
    (btreeNodeCreate isLeaf).run s = some (0, s.nextCall) := by
  rw [btreeNodeCreate, StateT.run_bind]
  simp only [kmallocNode, StateT.run, hq, Option.bind_eq_bind, Option.bind_some, if_true]
  rfl

/-! ## Insertion into a leaf -/

/-- The words `w'` of a node are `w` with the entries from `pos` to `n` moved up by one. -/
def MovedUp (w w' : ℕ → ℕ) (pos n : ℕ) : Prop := ∀ i,
  w' i = if (1 + pos < i ∧ i ≤ 1 + n) ∨ (5 + pos < i ∧ i ≤ 5 + n) then w (i - 1) else w i

/-- The place for a key, after the last of the first `n` keys that is not greater. -/
theorem run_shiftUp (hp : p ≠ 0) (key n : ℕ) (hn : n < btreeMaxKeys) (s : BtreeMem) :
    ∃ pos w', (shiftUp p key n).run s = some (pos, s.setNode p w') ∧ pos ≤ n ∧
      (∀ i, pos ≤ i → i < n → key < s.words p (1 + i)) ∧
      (∀ i, i + 1 = pos → s.words p (1 + i) ≤ key) ∧ MovedUp (s.words p) w' pos n := by
  induction n generalizing s with
  | zero =>
    refine ⟨0, s.words p, ?_, le_rfl, fun i _ hi => absurd hi (Nat.not_lt_zero i),
      fun i hi => absurd hi (by omega), fun i => (if_neg (by omega)).symm⟩
    rw [BtreeMem.setNode_self]
    rfl
  | succ n ih =>
    have hn' : n < btreeMaxKeys := Nat.lt_of_succ_lt hn
    rw [shiftUp, StateT.run_bind, run_getAt (a := .keys) hp hn', Option.bind_eq_bind,
      Option.bind_some]
    dsimp only
    by_cases hlt : key < s.words p (NodeArray.keys.base + n)
    · rw [if_pos hlt, StateT.run_bind, run_copyAt (a := .keys) hp hp hn hn', Option.bind_eq_bind,
        Option.bind_some, StateT.run_bind, run_copyAt (a := .values) hp hp hn hn',
        Option.bind_eq_bind, Option.bind_some]
      simp only [BtreeMem.words_setNode_self, BtreeMem.setNode_setNode, base_keys, base_values]
      -- The entry `n` is now at `n + 1` too. The entries before it are as they were.
      set w₁ := Function.update (Function.update (s.words p) (1 + (n + 1)) (s.words p (1 + n)))
        (5 + (n + 1)) (Function.update (s.words p) (1 + (n + 1)) (s.words p (1 + n)) (5 + n))
        with hw₁
      have hw : ∀ i, w₁ i = if i = 5 + (n + 1) then s.words p (5 + n)
          else if i = 1 + (n + 1) then s.words p (1 + n) else s.words p i := fun i => by
        simp only [hw₁, Function.update_apply, if_neg (show ¬5 + n = 1 + (n + 1) by omega)]
      obtain ⟨pos, w', hrun, hpos, habove, hbelow, hmoved⟩ := ih hn' (s.setNode p w₁)
      rw [BtreeMem.words_setNode_self] at habove hbelow hmoved
      rw [BtreeMem.setNode_setNode] at hrun
      have hn4 : n + 1 < 4 := hn
      refine ⟨pos, w', hrun, by omega, fun i hi hin => ?_, fun i hi => ?_, fun i => ?_⟩
      · rcases Nat.lt_succ_iff_lt_or_eq.1 hin with hin | rfl
        · have := habove i hi hin
          rwa [hw, if_neg (by omega), if_neg (by omega)] at this
        · exact hlt
      · have := hbelow i hi
        rwa [hw, if_neg (by omega), if_neg (by omega)] at this
      · rw [hmoved i, hw, hw]
        split_ifs <;> first | omega | (congr 1; omega)
    · rw [if_neg hlt]
      refine ⟨n + 1, s.words p, ?_, le_rfl, fun i hi hin => absurd hin (by omega), fun i hi => ?_,
        fun i => (if_neg (by omega)).symm⟩
      · rw [BtreeMem.setNode_self]
        rfl
      · obtain rfl : i = n := by omega
        exact not_lt.1 hlt

/-- A node whose entries were moved up gets a new one in between. -/
theorem HasEntries.insert {w w' : ℕ → ℕ} {es : List (ℕ × ℕ)} {pos : ℕ} (h : HasEntries w es)
    (hlt : es.length < btreeMaxKeys) (hpos : pos ≤ es.length) (hmoved : MovedUp w w' pos es.length)
    (e : ℕ × ℕ) : HasEntries (Function.update (Function.update w' (1 + pos) e.1) (5 + pos) e.2)
      (es.insertIdx pos e) := by
  intro i e' he'
  have hlt4 : es.length < 4 := hlt
  have hi : i < (es.insertIdx pos e).length := (List.getElem?_eq_some_iff.1 he').1
  rw [List.length_insertIdx_of_le_length hpos] at hi
  rw [List.getElem?_insertIdx] at he'
  simp only [base_keys, base_values, Function.update_apply]
  split_ifs at he' with hlt' heq
  · obtain ⟨hk, hv⟩ := h i e' he'
    rw [if_neg (by omega), if_neg (by omega), if_neg (by omega), if_neg (by omega), hmoved, hmoved,
      if_neg (by omega), if_neg (by omega)]
    exact ⟨hk, hv⟩
  · obtain rfl := Option.some.inj he'
    rw [if_neg (by omega), if_pos (by omega), if_pos (by omega)]
    exact ⟨rfl, rfl⟩
  · obtain ⟨hk, hv⟩ := h (i - 1) e' he'
    rw [if_neg (by omega), if_neg (by omega), if_neg (by omega), if_neg (by omega), hmoved, hmoved,
      if_pos (by omega), if_pos (by omega)]
    rw [base_keys] at hk
    rw [base_values] at hv
    exact ⟨(congrArg w (by omega)).trans hk, (congrArg w (by omega)).trans hv⟩

theorem run_btreeInsertNonFull_leaf {es : List (ℕ × ℕ)} (h : Stored s.words p j (leaf p es))
    (hlt : es.length < btreeMaxKeys) (fuel key value : ℕ) :
    ∃ pos w', (btreeInsertNonFull (fuel + 1) p key value).run s = some ((), s.setNode p w') ∧
      pos ≤ es.length ∧ (∀ e ∈ es.drop pos, key < e.1) ∧
      (∀ i e, i + 1 = pos → es[i]? = some e → e.1 ≤ key) ∧ w' parentWord = s.words p parentWord ∧
      Stored (s.setNode p w').words p j (leaf p (es.insertIdx pos (key, value))) := by
  obtain ⟨-, hp, hn, hle, hleaf, hes⟩ := h
  obtain ⟨pos, w', hrun, hpos, habove, hbelow, hmoved⟩ :=
    run_shiftUp hp key es.length hlt s
  have hpos4 : pos < btreeMaxKeys := lt_of_le_of_lt hpos hlt
  simp only [btreeInsertNonFull, StateT.run_bind, run_numKeys hp, Option.bind_eq_bind,
    Option.bind_some, run_isLeaf hp, if_pos hleaf, hn, hrun, run_setAt (a := .keys) hp hpos4,
    run_setAt (a := .values) hp hpos4, run_setNumKeys hp, BtreeMem.words_setNode_self,
    BtreeMem.setNode_setNode]
  have hlt4 : es.length < 4 := hlt
  have hlen : (es.insertIdx pos (key, value)).length = es.length + 1 :=
    List.length_insertIdx_of_le_length hpos _
  -- The words after the arrays.
  have hrest : ∀ i, 14 ≤ i → Function.update (Function.update (Function.update w' (1 + pos) key)
      (5 + pos) value) numKeysWord (es.length + 1) i = s.words p i := fun i hi => by
    have hnum : numKeysWord = 0 := rfl
    rw [Function.update_of_ne (by omega), Function.update_of_ne (by omega),
      Function.update_of_ne (by omega), hmoved, if_neg (by omega)]
  refine ⟨pos, _, rfl, hpos, fun e he => ?_, fun i e hi he => ?_, hrest _ (by decide), rfl, hp, ?_,
    ?_, ?_, ?_⟩
  · obtain ⟨x, hx⟩ := List.mem_iff_getElem?.1 he
    rw [List.getElem?_drop] at hx
    rw [← (hes _ e hx).1]
    exact habove _ (by omega) (List.getElem?_eq_some_iff.1 hx).1
  · rw [← (hes i e he).1]
    exact hbelow i hi
  · rw [BtreeMem.words_setNode_self, hlen, Function.update_self]
  · rw [hlen]
    exact hlt
  · rw [BtreeMem.words_setNode_self]
    exact fun h => hleaf ((hrest isLeafWord (by decide)).symm.trans h)
  · rw [BtreeMem.words_setNode_self]
    exact (hes.insert hlt hpos hmoved (key, value)).update_numKeys _

/-! ## The place of an entry -/

theorem insertIdx_eq_append {l : List (ℕ × ℕ)} {pos : ℕ} (hpos : pos ≤ l.length) (e : ℕ × ℕ) :
    l.insertIdx pos e = l.take pos ++ e :: l.drop pos := by
  induction pos generalizing l with
  | zero => simp
  | succ pos ih =>
    cases l with
    | nil => exact absurd hpos (by simp)
    | cons a l => simpa using ih (l := l) (by simpa using hpos)

/-- The entries before the place of a new key. -/
theorem lt_of_mem_take {es : List (ℕ × ℕ)} {pos : ℕ} (h : es.Pairwise fun e e' => e.1 < e'.1)
    (hk : ∀ e ∈ es, e.1 ≠ key) (hpos : pos ≤ es.length)
    (hbelow : ∀ i e, i + 1 = pos → es[i]? = some e → e.1 ≤ key) :
    ∀ e ∈ es.take pos, e.1 < key := by
  intro e he
  obtain ⟨i, hi, rfl⟩ := List.mem_take_iff_getElem.1 he
  rcases Nat.lt_or_ge (i + 1) pos with hlt | hge
  · -- The last entry before `pos` is in between.
    have hmono := List.pairwise_iff_getElem.1 h i (pos - 1) (by omega) (by omega) (by omega)
    have hle := hbelow (pos - 1) es[pos - 1] (by omega) (List.getElem?_eq_getElem _)
    exact lt_of_lt_of_le hmono hle
  · exact lt_of_le_of_ne (hbelow i _ (by omega) (List.getElem?_eq_getElem _))
      (hk _ (List.getElem_mem _))

/-- The place that `btree_insert_non_full` finds in a leaf is the one for the key. -/
theorem insertIdx_eq_insertEntry {es : List (ℕ × ℕ)} {pos : ℕ}
    (h : es.Pairwise fun e e' => e.1 < e'.1) (hk : ∀ e ∈ es, e.1 ≠ key) (hpos : pos ≤ es.length)
    (habove : ∀ e ∈ es.drop pos, key < e.1)
    (hbelow : ∀ i e, i + 1 = pos → es[i]? = some e → e.1 ≤ key) :
    es.insertIdx pos (key, value) = insertEntry key value es := by
  have htake := lt_of_mem_take h hk hpos hbelow
  have hnil : (es.drop pos).takeWhile (fun e => e.1 < key) = [] := by
    rcases hdrop : es.drop pos with _ | ⟨e, l⟩
    · rfl
    · have hlt : key < e.1 := habove e (by rw [hdrop]; exact List.mem_cons_self)
      rw [List.takeWhile_cons, if_neg (by simpa using hlt.le)]
  have hself : (es.drop pos).dropWhile (fun e => e.1 < key) = es.drop pos := by
    have := List.takeWhile_append_dropWhile (p := fun e : ℕ × ℕ => decide (e.1 < key))
      (l := es.drop pos)
    rwa [hnil, List.nil_append] at this
  have hall : ∀ e ∈ es.take pos, decide (e.1 < key) = true := fun e he =>
    decide_eq_true (htake e he)
  rw [insertIdx_eq_append hpos, insertEntry]
  conv_rhs => rw [← List.take_append_drop pos es, List.takeWhile_append_of_pos hall,
    List.dropWhile_append_of_pos hall, hnil, hself, List.append_nil]

/-! ## The first split -/

/-- The element `i` of the keys and of the values of a node with the words `w`. -/
def entryAt (w : ℕ → ℕ) (i : ℕ) : ℕ × ℕ :=
  (w (NodeArray.keys.base + i), w (NodeArray.values.base + i))

/-- The tree with two leaves below the root. -/
def twoLeaves (root child new : ℕ) (es : List (ℕ × ℕ)) (e : ℕ × ℕ) (es' : List (ℕ × ℕ)) :
    MultiTree ℕ ℕ ℕ .tree :=
  node root (cons (leaf child es) e.1 e.2 (last (leaf new es')))

/-- What the split of the only leaf leaves: a root with one key, and two keys in each half. The
    key 4 of the leaf, which does not exist, goes to the second half. -/
def splitLeaf (w : ℕ → ℕ) (root child new : ℕ) : MultiTree ℕ ℕ ℕ .tree :=
  twoLeaves root child new [entryAt w 0, entryAt w 1] (entryAt w 2) [entryAt w 3, entryAt w 4]

section TwoLeaves

variable {root child new : ℕ} {es es' : List (ℕ × ℕ)} {e : ℕ × ℕ} {m : ℕ → ℕ → ℕ}

theorem height_twoLeaves : (twoLeaves root child new es e es').height = 2 := by
  simp only [twoLeaves, height, max_self]

theorem length_twoLeaves :
    (twoLeaves root child new es e es').toList.length = es.length + es'.length + 1 := by
  simp only [twoLeaves, toList, List.length_append, List.length_cons]
  omega

/-- The words of a root with one key and two children. -/
def IsRootOfTwo (w : ℕ → ℕ) (child new : ℕ) (e : ℕ × ℕ) : Prop :=
  w numKeysWord = 1 ∧ w isLeafWord = 0 ∧ entryAt w 0 = e ∧
    w NodeArray.children.base = child ∧ w (NodeArray.children.base + 1) = new

theorem stored_twoLeaves (hroot : root ≠ 0) :
    Stored m root 0 (twoLeaves root child new es e es') ↔ IsRootOfTwo (m root) child new e ∧
      Stored m child 0 (leaf child es) ∧ Stored m new 0 (leaf new es') := by
  have hwidth : (cons (leaf child es) e.1 e.2 (last (leaf new es'))).width = 1 := by
    rw [width, width]
  constructor
  · rintro ⟨-, -, hn, -, hleaf, hk, hv, hc, hl⟩
    have hc0 : m root NodeArray.children.base = child := hc.1.symm
    have hc1 : m root (NodeArray.children.base + 1) = new := hl.1.symm
    refine ⟨⟨hn.trans hwidth, hleaf, Prod.ext hk hv, hc0, hc1⟩, ?_, ?_⟩
    · rwa [Nat.add_zero, hc0] at hc
    · rwa [Stored, Nat.zero_add, hc1] at hl
  · rintro ⟨⟨hn, hleaf, he, hc0, hc1⟩, hc, hl⟩
    obtain ⟨hk, hv⟩ := Prod.mk_inj.1 he
    refine ⟨rfl, hroot, hn.trans hwidth.symm, hwidth.trans_le (by decide), hleaf, hk, hv, ?_, ?_⟩
    · rwa [Nat.add_zero, hc0]
    · rwa [Stored, Nat.zero_add, hc1]

end TwoLeaves

theorem hasEntries_two {w : ℕ → ℕ} {e e' : ℕ × ℕ} (h : entryAt w 0 = e) (h' : entryAt w 1 = e') :
    HasEntries w [e, e'] := by
  rintro (_ | _ | i) e'' he
  · obtain rfl := Option.some.inj he
    exact Prod.mk_inj.1 h
  · obtain rfl := Option.some.inj he
    exact Prod.mk_inj.1 h'
  · exact absurd he (by simp)

/-- The words of a leaf with two entries. -/
def IsPair (w : ℕ → ℕ) (e e' : ℕ × ℕ) : Prop :=
  w numKeysWord = 2 ∧ w isLeafWord ≠ 0 ∧ entryAt w 0 = e ∧ entryAt w 1 = e'

theorem IsPair.stored {m : ℕ → ℕ → ℕ} {e e' : ℕ × ℕ} (h : IsPair (m p) e e') (hp : p ≠ 0) :
    Stored m p j (leaf p [e, e']) :=
  ⟨rfl, hp, h.1, Nat.le_of_ble_eq_true rfl, h.2.1, hasEntries_two h.2.2.1 h.2.2.2⟩

/-- The split of a leaf below a new root: it reads past the end of the arrays. -/
theorem run_btreeSplitChild_leaf {root child : ℕ} (hroot : root ≠ 0) (hchild : child ≠ 0)
    (hne : child ≠ root) (hnew : s.fresh s.calls ≠ 0) (hnewr : s.fresh s.calls ≠ root)
    (hnewc : s.fresh s.calls ≠ child) (hrn : s.words root numKeysWord = 0)
    (hrc : s.words root NodeArray.children.base = child) (hrl : s.words root isLeafWord = 0)
    (hleaf : s.words child isLeafWord ≠ 0) :
    ∃ s', (btreeSplitChild root 0 child).run s = some ((), s') ∧ s'.inBounds = false ∧
      Stored s'.words root 0 (splitLeaf (s.words child) root child (s.fresh s.calls)) := by
  have hcreate := run_btreeNodeCreate (s.words child isLeafWord) hnew
  generalize s.fresh s.calls = new at hnew hnewr hnewc hcreate
  have hrange : List.range btreeMinKeys = [0, 1] := rfl
  have hone : 1 < NodeArray.children.capacity := by decide
  simp only [btreeSplitChild, StateT.run_bind, run_isLeaf hchild, hcreate, if_neg hnew,
    run_setNumKeys hnew, hrange, List.forM_eq_forM, List.forM_cons, List.forM_nil,
    run_copyAt_access hnew hchild, if_neg hleaf, run_setNumKeys hchild, run_numKeys hroot, hrn,
    Nat.sub_zero, List.range'_zero, List.reverse_nil, run_setAt hroot hone, Nat.zero_add,
    run_setParent hnew, run_copyAt_access hroot hchild, run_setNumKeys hroot,
    BtreeMem.words_setNode_self, BtreeMem.setNode_setNode, BtreeMem.words_access,
    BtreeMem.access_setNode, BtreeMem.words_setNode_of_ne hnewc.symm,
    BtreeMem.words_setNode_of_ne hnewr.symm, BtreeMem.words_setNode_of_ne hne,
    BtreeMem.words_setNode_of_ne hne.symm, BtreeMem.words_setNode_of_ne hnewc,
    BtreeMem.words_setNode_of_ne hnewr, BtreeMem.nextCall, Option.bind_eq_bind, Option.bind_some,
    StateT.run_pure, Option.pure_def]
  refine ⟨_, rfl, ?_, ?_⟩
  · have hfour : decide (1 + btreeMinKeys + 1 < NodeArray.keys.capacity) = false := by decide
    simp only [BtreeMem.inBounds_setNode, BtreeMem.access, hfour, Bool.and_false, Bool.false_and]
  · refine (stored_twoLeaves hroot).2 ⟨?_, IsPair.stored ?_ hchild, IsPair.stored ?_ hnew⟩
    · rw [BtreeMem.words_setNode_self]
      exact ⟨rfl, hrl, rfl, hrc, rfl⟩
    · rw [BtreeMem.words_setNode_of_ne hne, BtreeMem.words_setNode_of_ne hnewc.symm,
        BtreeMem.words_setNode_of_ne hne, BtreeMem.words_setNode_self]
      exact ⟨rfl, hleaf, rfl, rfl⟩
    · rw [BtreeMem.words_setNode_of_ne hnewr, BtreeMem.words_setNode_self]
      exact ⟨rfl, hleaf, rfl, rfl⟩

/-- The child for a key, after the last of the first `n` keys that is not greater. -/
theorem run_findChild (hp : p ≠ 0) (n : ℕ) (hn : n ≤ btreeMaxKeys) :
    ∃ i ≤ n, (findChild p key n).run s = some (i, s) ∧
      (∀ x, i ≤ x → x < n → key < s.words p (NodeArray.keys.base + x)) ∧
      ∀ x, x + 1 = i → s.words p (NodeArray.keys.base + x) ≤ key := by
  induction n with
  | zero =>
    exact ⟨0, le_rfl, rfl, fun x _ hx => absurd hx (Nat.not_lt_zero x), fun x hx => by omega⟩
  | succ n ih =>
    rw [findChild, StateT.run_bind, run_getAt (a := .keys) hp hn, Option.bind_eq_bind,
      Option.bind_some]
    dsimp only
    by_cases hlt : key < s.words p (NodeArray.keys.base + n)
    · rw [if_pos hlt]
      obtain ⟨i, hi, hrun, habove, hbelow⟩ := ih (Nat.le_of_succ_le hn)
      refine ⟨i, Nat.le_succ_of_le hi, hrun, fun x hx hx' => ?_, hbelow⟩
      rcases Nat.lt_succ_iff_lt_or_eq.1 hx' with hx' | rfl
      · exact habove x hx hx'
      · exact hlt
    · rw [if_neg hlt]
      refine ⟨n + 1, le_rfl, rfl, fun x hx hx' => absurd hx' (by omega), fun x hx => ?_⟩
      obtain rfl : x = n := by omega
      exact not_lt.1 hlt

/-- Insertion into an inner node goes on in a child that is not full. -/
theorem run_btreeInsertNonFull_child (hp : p ≠ 0) (hn : s.words p numKeysWord ≤ btreeMaxKeys)
    (hleaf : s.words p isLeafWord = 0) (hi : i ≤ s.words p numKeysWord)
    (hrun : (findChild p key (s.words p numKeysWord)).run s = some (i, s))
    (hc : s.words p (NodeArray.children.base + i) ≠ 0)
    (hfull : s.words (s.words p (NodeArray.children.base + i)) numKeysWord ≠ btreeMaxKeys)
    (fuel value : ℕ) : (btreeInsertNonFull (fuel + 1) p key value).run s =
      (btreeInsertNonFull fuel (s.words p (NodeArray.children.base + i)) key value).run s := by
  have hi5 : i < NodeArray.children.capacity := Nat.lt_succ_of_le (hi.trans hn)
  simp only [btreeInsertNonFull, StateT.run_bind, run_numKeys hp, run_isLeaf hp, hleaf, ne_eq,
    not_true_eq_false, if_false, hrun, run_getAt hp hi5, run_numKeys hc, if_neg hfull,
    Option.bind_eq_bind, Option.bind_some]

/-- Insertion into an inner node none of whose children is full. -/
theorem run_btreeInsertNonFull_inner (hp : p ≠ 0) (hn : s.words p numKeysWord ≤ btreeMaxKeys)
    (hleaf : s.words p isLeafWord = 0)
    (hchild : ∀ i ≤ s.words p numKeysWord, s.words p (NodeArray.children.base + i) ≠ 0 ∧
      s.words (s.words p (NodeArray.children.base + i)) numKeysWord ≠ btreeMaxKeys)
    (fuel key value : ℕ) : ∃ i ≤ s.words p numKeysWord,
      (btreeInsertNonFull (fuel + 1) p key value).run s =
        (btreeInsertNonFull fuel (s.words p (NodeArray.children.base + i)) key value).run s := by
  obtain ⟨i, hi, hrun, -⟩ := run_findChild (s := s) hp _ hn
  obtain ⟨hc, hfull⟩ := hchild i hi
  exact ⟨i, hi, run_btreeInsertNonFull_child hp hn hleaf hi hrun hc hfull fuel value⟩

/-- Insertion into a tree with two leaves that are not full: an entry more in one of them. -/
theorem run_btreeInsertNonFull_twoLeaves {root child new : ℕ} {es es' : List (ℕ × ℕ)} {e : ℕ × ℕ}
    (hroot : root ≠ 0) (h : Stored s.words root 0 (twoLeaves root child new es e es'))
    (hne : child ≠ root) (hnewr : new ≠ root) (hnewc : new ≠ child)
    (hes : es.length < btreeMaxKeys) (hes' : es'.length < btreeMaxKeys) (fuel key value : ℕ) :
    ∃ (s' : BtreeMem) (t : MultiTree ℕ ℕ ℕ .tree),
      (btreeInsertNonFull (fuel + 2) root key value).run s = some ((), s') ∧
      s'.inBounds = s.inBounds ∧ Stored s'.words root 0 t ∧ t.height = 2 ∧
      t.toList.length = es.length + es'.length + 2 := by
  obtain ⟨hr, hc, hl⟩ := (stored_twoLeaves hroot).1 h
  have ⟨hn, hleaf, _, hc0, hc1⟩ := hr
  have hchild : ∀ i ≤ s.words root numKeysWord,
      s.words root (NodeArray.children.base + i) ≠ 0 ∧
        s.words (s.words root (NodeArray.children.base + i)) numKeysWord ≠ btreeMaxKeys := by
    intro i hi
    obtain rfl | rfl : i = 0 ∨ i = 1 := by omega
    · rw [Nat.add_zero, hc0, hc.2.2.1]
      exact ⟨hc.2.1, hes.ne⟩
    · rw [hc1, hl.2.2.1]
      exact ⟨hl.2.1, hes'.ne⟩
  obtain ⟨i, hi, hrun⟩ := run_btreeInsertNonFull_inner hroot (by rw [hn]; decide) hleaf hchild
    (fuel + 1) key value
  rw [hrun]
  obtain rfl | rfl : i = 0 ∨ i = 1 := by omega
  · rw [show NodeArray.children.base + 0 = NodeArray.children.base from rfl, hc0]
    obtain ⟨pos, w', hrun, hpos, -, -, -, hstored⟩ :=
      run_btreeInsertNonFull_leaf hc hes fuel key value
    have hframe := BtreeMem.words_setNode_of_ne hnewc s w'
    refine ⟨_, twoLeaves root child new (es.insertIdx pos (key, value)) e es', hrun, rfl,
      (stored_twoLeaves hroot).2 ⟨?_, hstored, hl.congr hframe fun q hq => ?_⟩, height_twoLeaves,
      ?_⟩
    · rw [BtreeMem.words_setNode_of_ne hne.symm]
      exact hr
    · rw [List.mem_singleton.1 hq, hframe]
    · rw [length_twoLeaves, List.length_insertIdx_of_le_length hpos]
      omega
  · rw [hc1]
    obtain ⟨pos, w', hrun, hpos, -, -, -, hstored⟩ :=
      run_btreeInsertNonFull_leaf hl hes' fuel key value
    have hframe := BtreeMem.words_setNode_of_ne hnewc.symm s w'
    refine ⟨_, twoLeaves root child new es e (es'.insertIdx pos (key, value)), hrun, rfl,
      (stored_twoLeaves hroot).2 ⟨?_, hc.congr hframe fun q hq => ?_, hstored⟩, height_twoLeaves,
      ?_⟩
    · rw [BtreeMem.words_setNode_of_ne hnewr.symm]
      exact hr
    · rw [List.mem_singleton.1 hq, hframe]
    · rw [length_twoLeaves, List.length_insertIdx_of_le_length hpos]
      omega

/-! ## Insertion without a split -/

/-- Insertion of a new key into the tree, and into the child `i` of the node that has the row,
    where the nodes on the way have room. -/
def InsertOk (s : BtreeMem) (key value : ℕ) : {b : Kind} → MultiTree ℕ ℕ ℕ b → Prop
  | .tree, t => ∀ p j fuel, Stored s.words p j t → t.names.Nodup → t.Room btreeMaxKeys key →
      t.height ≤ fuel → p ≠ 0 ∧ s.words p numKeysWord ≠ btreeMaxKeys ∧
      ∃ m, (btreeInsertNonFull fuel p key value).run s = some ((), s.withWords m) ∧
        Stored m p j (t.insert key value) ∧ ∀ q ∉ t.names, m q = s.words q
  | .row, r => ∀ p j i fuel, Stored s.words p j r → p ∉ r.names → r.names.Nodup →
      r.Room btreeMaxKeys key → r.height ≤ fuel → j ≤ i → i ≤ j + r.width →
      (∀ x, i ≤ x → x < j + r.width → key < s.words p (NodeArray.keys.base + x)) →
      (∀ x, x + 1 = i → s.words p (NodeArray.keys.base + x) ≤ key) →
      s.words p (NodeArray.children.base + i) ≠ 0 ∧
      s.words (s.words p (NodeArray.children.base + i)) numKeysWord ≠ btreeMaxKeys ∧
      ∃ m, (btreeInsertNonFull fuel (s.words p (NodeArray.children.base + i)) key value).run s =
          some ((), s.withWords m) ∧
        Stored m p j (r.insert key value) ∧ ∀ q ∉ r.names, m q = s.words q

/-- The keys of a node are keys of entries. -/
theorem Stored.key_mem {m : ℕ → ℕ → ℕ} {r : MultiTree ℕ ℕ ℕ .row} {j x : ℕ} (h : Stored m p j r)
    (hx : j ≤ x) (hx' : x < j + r.width) :
    ∃ e ∈ r.toList, m p (NodeArray.keys.base + x) = e.1 := by
  match r with
  | last t =>
    rw [width] at hx'
    exact absurd hx' (by omega)
  | cons t k v r =>
    obtain ⟨hk, -, -, hr⟩ := h
    rw [width] at hx'
    rcases Nat.lt_or_eq_of_le hx with hlt | rfl
    · obtain ⟨e, he, heq⟩ := Stored.key_mem hr hlt (by omega)
      exact ⟨e, List.mem_append_right _ (List.mem_cons_of_mem _ he), heq⟩
    · exact ⟨(k, v), List.mem_append_right _ List.mem_cons_self, hk⟩

/-- The child for a key before the first one of the row is the first one: the key before another
    child would be too great. -/
theorem Stored.index_eq_of_lt {m : ℕ → ℕ → ℕ} {t : MultiTree ℕ ℕ ℕ .tree} {k v : ℕ}
    {r : MultiTree ℕ ℕ ℕ .row} {j i : ℕ} (h : Stored m p j (cons t k v r))
    (ht : (cons t k v r).Ordered) (hlt : key < k) (hji : j ≤ i)
    (hi : i ≤ j + (cons t k v r).width)
    (hbelow : ∀ x, x + 1 = i → m p (NodeArray.keys.base + x) ≤ key) : i = j := by
  obtain ⟨-, -, -, hrk⟩ := ordered_cons.1 ht
  obtain ⟨hk, -, -, hr⟩ := h
  rw [width] at hi
  by_contra hne
  have hle := hbelow (i - 1) (by omega)
  rcases Nat.lt_or_eq_of_le (Nat.le_sub_one_of_lt (lt_of_le_of_ne hji (Ne.symm hne)))
    with hlt' | heq
  · obtain ⟨e, he, heq⟩ := hr.key_mem hlt' (by omega)
    rw [heq] at hle
    exact absurd (hlt.trans (hrk e he)) hle.not_gt
  · rw [← heq, hk] at hle
    exact absurd hlt hle.not_gt

/-- The recursion of `btree_insert_non_full`, in an ordered tree of any shape. -/
theorem insertOk (s : BtreeMem) (key value : ℕ) {b : Kind} (t : MultiTree ℕ ℕ ℕ b)
    (ht : t.Ordered) (hkey : ∀ e ∈ t.toList, e.1 ≠ key) : InsertOk s key value t := by
  induction t with
  | leaf q es =>
    rintro p j (_ | fuel) h hnodup hroom hfuel
    · exact absurd hfuel (by rw [height]; omega)
    obtain rfl : q = p := h.1
    obtain ⟨pos, w', hrun, hpos, habove, hbelow, -, hst⟩ :=
      run_btreeInsertNonFull_leaf h hroom fuel key value
    have heq : es.insertIdx pos (key, value) = insertEntry key value es :=
      insertIdx_eq_insertEntry ht hkey hpos habove hbelow
    rw [heq] at hst
    exact ⟨h.2.1, by rw [h.2.2.1]; exact ne_of_lt hroom, _, hrun, hst, fun x hx =>
      BtreeMem.words_setNode_of_ne (fun hx' : x = q => hx (List.mem_singleton.2 hx')) s w'⟩
  | node q r ih =>
    rintro p j (_ | fuel) ⟨rfl, hp, hn, hle, hleaf, hr⟩ hnodup hroom hfuel
    · exact absurd hfuel (by rw [height]; omega)
    rw [names, List.nodup_cons] at hnodup
    obtain ⟨i, hi, hrun, habove, hbelow⟩ :=
      run_findChild (s := s) hp (s.words q numKeysWord) (hn ▸ hle)
    obtain ⟨hc, hfull, m, hout, hst, hframe⟩ := ih ht hkey q 0 i fuel hr hnodup.1 hnodup.2 hroom.2
      (Nat.le_of_succ_le_succ hfuel) (Nat.zero_le i) (by omega) (by rwa [Nat.zero_add, ← hn]) hbelow
    have hq : m q = s.words q := hframe q hnodup.1
    refine ⟨hp, by rw [hn]; exact ne_of_lt hroom.1, m, ?_, ⟨rfl, hp, ?_, ?_, ?_, hst⟩,
      fun x hx => hframe x fun hx' => hx (List.mem_cons_of_mem _ hx')⟩
    · rw [run_btreeInsertNonFull_child hp (hn ▸ hle) hleaf hi hrun hc hfull fuel value]
      exact hout
    · rw [hq, hn, width_insert]
    · rwa [width_insert]
    · rw [hq, hleaf]
  | last t ih =>
    intro p j i fuel hr hpr hnodup hroom hfuel hji hi habove hbelow
    rw [width] at hi
    obtain rfl : i = j := by omega
    obtain ⟨hc, hfull, m, hout, hst, hframe⟩ := ih ht hkey _ 0 fuel hr hnodup hroom hfuel
    refine ⟨hc, hfull, m, hout, ?_, hframe⟩
    rw [MultiTree.insert, Stored, hframe p hpr]
    exact hst
  | cons t k v r iht ihr =>
    intro p j i fuel h hpr hnodup hroom hfuel hji hi habove hbelow
    obtain ⟨hto, hro, htk, hrk⟩ := ordered_cons.1 ht
    obtain ⟨hk, hv, ht', hr'⟩ := id h
    have hkt : ∀ e ∈ t.toList, e.1 ≠ key := fun e he => hkey e (List.mem_append_left _ he)
    have hkr : ∀ e ∈ r.toList, e.1 ≠ key := fun e he =>
      hkey e (List.mem_append_right _ (List.mem_cons_of_mem _ he))
    rw [width] at hi habove
    rw [height] at hfuel
    rw [names, List.mem_append, not_or] at hpr
    rw [names, List.nodup_append'] at hnodup
    obtain ⟨hnt, hnr, hdisj⟩ := hnodup
    rw [Room] at hroom
    rw [MultiTree.insert]
    by_cases hlt : key < k
    · rw [if_pos hlt] at hroom ⊢
      obtain rfl := h.index_eq_of_lt ht hlt hji (by rw [width]; omega) hbelow
      obtain ⟨hc, hfull, m, hout, hst, hframe⟩ := iht hto hkt _ 0 fuel ht' hnt hroom
        (le_of_max_le_left hfuel)
      have hp' : m p = s.words p := hframe p hpr.1
      have hframe' : ∀ q ∈ r.names, m q = s.words q := fun q hq => hframe q fun hq' => hdisj hq' hq
      refine ⟨hc, hfull, m, hout, ⟨by rw [hp', hk], by rw [hp', hv], ?_, hr'.congr hp' hframe'⟩,
        fun q hq => hframe q fun hq' => hq (List.mem_append_left _ hq')⟩
      rw [hp']
      exact hst
    · rw [if_neg hlt] at hroom ⊢
      have hij : j + 1 ≤ i := by
        by_contra hnot
        obtain rfl : i = j := by omega
        exact hlt (hk ▸ habove i le_rfl (by omega))
      obtain ⟨hc, hfull, m, hout, hst, hframe⟩ := ihr hro hkr p (j + 1) i fuel hr' hpr.2 hnr hroom
        (le_of_max_le_right hfuel) hij (by omega) (fun x hx hx' => habove x hx (by omega)) hbelow
      have hp' : m p = s.words p := hframe p hpr.2
      have hframe' : ∀ q ∈ t.names, m q = s.words q := fun q hq => hframe q (hdisj hq)
      refine ⟨hc, hfull, m, hout, ⟨by rw [hp', hk], by rw [hp', hv], ?_, hst⟩,
        fun q hq => hframe q fun hq' => hq (List.mem_append_right _ hq')⟩
      rw [hp']
      exact ht'.congr (hframe' _ ht'.mem_names) hframe'

/-! ## Insertion -/

variable {tree : Btree} {fuel : ℕ}

/-- A key that is found. -/
theorem run_btreeInsert_of_found {v : ℕ} (h : (btreeSearch fuel tree key).run s = some (v, s))
    (hv : v ≠ 0) : (btreeInsert fuel tree key value).run s = some ((-1, tree), s) := by
  simp only [btreeInsert, StateT.run_bind, h, Option.bind_eq_bind, Option.bind_some, ne_eq, hv,
    not_false_eq_true, if_true]
  rfl

/-- A new key, where the first node that is needed is a root, and there is none. -/
theorem run_btreeInsert_null (h : (btreeSearch fuel tree key).run s = some (0, s))
    (hroot : tree.root = 0 ∨ s.words tree.root numKeysWord = btreeMaxKeys)
    (hq : s.fresh s.calls = 0) (value : ℕ) :
    (btreeInsert fuel tree key value).run s = some ((-1, tree), s.nextCall) := by
  by_cases h0 : tree.root = 0
  · simp only [btreeInsert, StateT.run_bind, h, h0, Option.bind_eq_bind, Option.bind_some, ne_eq,
      not_true_eq_false, if_false, if_true, run_btreeNodeCreate_null 1 hq]
    rfl
  · simp only [btreeInsert, StateT.run_bind, h, if_neg h0, Option.bind_eq_bind, Option.bind_some,
      ne_eq, not_true_eq_false, if_false, run_numKeys h0, hroot.resolve_left h0, if_true,
      run_btreeNodeCreate_null 0 hq]
    rfl

/-- The first key. -/
theorem run_btreeInsert_empty (h : (btreeSearch fuel tree key).run s = some (0, s))
    (hroot : tree.root = 0) (hq : s.fresh s.calls ≠ 0) (value : ℕ) :
    ∃ w', (btreeInsert fuel tree key value).run s =
        some ((0, ⟨s.fresh s.calls, 1, 1⟩), s.nextCall.setNode (s.fresh s.calls) w') ∧
      w' parentWord = 0 ∧ Stored (s.nextCall.setNode (s.fresh s.calls) w').words (s.fresh s.calls) 0
        (leaf (s.fresh s.calls) [(key, value)]) := by
  have hcreate := run_btreeNodeCreate 1 hq
  generalize s.fresh s.calls = q at hq hcreate ⊢
  simp only [btreeInsert, StateT.run_bind, h, hroot, Option.bind_eq_bind, Option.bind_some, ne_eq,
    not_true_eq_false, if_false, if_true, hcreate, if_neg hq,
    run_setAt (a := .keys) hq (show 0 < 4 by decide),
    run_setAt (a := .values) hq (show 0 < 4 by decide), run_setNumKeys hq,
    BtreeMem.words_setNode_self, BtreeMem.setNode_setNode]
  refine ⟨_, rfl, rfl, rfl, hq, ?_, by simp, ?_, ?_⟩
  · rw [BtreeMem.words_setNode_self]
    rfl
  · rw [BtreeMem.words_setNode_self]
    exact Nat.one_ne_zero
  · rw [BtreeMem.words_setNode_self]
    rintro (_ | i) e he
    · obtain rfl := Option.some.inj he
      exact ⟨rfl, rfl⟩
    · exact absurd he (by simp)

/-- A new key for a tree that is one leaf, not full. -/
theorem run_btreeInsert_leaf {es : List (ℕ × ℕ)}
    (h : (btreeSearch (fuel + 1) tree key).run s = some (0, s))
    (hst : Stored s.words tree.root j (leaf tree.root es)) (hlt : es.length < btreeMaxKeys)
    (value : ℕ) :
    ∃ pos w', (btreeInsert (fuel + 1) tree key value).run s =
        some ((0, { tree with numNodes := tree.numNodes + 1 }), s.setNode tree.root w') ∧
      pos ≤ es.length ∧ (∀ e ∈ es.drop pos, key < e.1) ∧
      (∀ i e, i + 1 = pos → es[i]? = some e → e.1 ≤ key) ∧
      w' parentWord = s.words tree.root parentWord ∧
      Stored (s.setNode tree.root w').words tree.root j
        (leaf tree.root (es.insertIdx pos (key, value))) := by
  obtain ⟨pos, w', hrun, hrest⟩ := run_btreeInsertNonFull_leaf hst hlt fuel key value
  obtain ⟨-, hp, hn, -⟩ := hst
  refine ⟨pos, w', ?_, hrest⟩
  simp only [btreeInsert, StateT.run_bind, h, Option.bind_eq_bind, Option.bind_some, ne_eq,
    not_true_eq_false, if_false, if_neg hp, run_numKeys hp, hn, if_neg hlt.ne, hrun]
  rfl

/-- A new key for a tree that is one full leaf: the split reads past the end of the arrays, and
    there is an entry too many. -/
theorem run_btreeInsert_full {es : List (ℕ × ℕ)}
    (h : (btreeSearch (fuel + 2) tree key).run s = some (0, s))
    (hst : Stored s.words tree.root 0 (leaf tree.root es)) (hlen : es.length = btreeMaxKeys)
    (hfresh : ∀ n, s.fresh n ≠ 0) (hinj : Function.Injective s.fresh)
    (hroot : ∀ n, s.calls ≤ n → s.fresh n ≠ tree.root) (value : ℕ) :
    ∃ (tree' : Btree) (s' : BtreeMem) (t : MultiTree ℕ ℕ ℕ .tree),
      (btreeInsert (fuel + 2) tree key value).run s = some ((0, tree'), s') ∧
      s'.inBounds = false ∧ Stored s'.words tree'.root 0 t ∧ t.height = 2 ∧
      t.toList.length = 6 := by
  obtain ⟨-, hp, hn, -, hleaf, -⟩ := hst
  have hcreate := run_btreeNodeCreate 0 (hfresh s.calls)
  have hq := hfresh s.calls
  have hqr := hroot s.calls le_rfl
  have hnew := hfresh (s.calls + 1)
  have hnewr := hroot (s.calls + 1) (Nat.le_succ _)
  have hnewq : s.fresh (s.calls + 1) ≠ s.fresh s.calls := fun heq =>
    absurd (hinj heq) (Nat.succ_ne_self _)
  -- The memory when the split starts.
  have hs₂ : ∃ s₂ : BtreeMem, s₂ = (s.nextCall.setNode (s.fresh s.calls)
      (Function.update (blankNode 0 (s.words (s.fresh s.calls))) (NodeArray.children.base + 0)
        tree.root)).setNode tree.root
      (Function.update (s.words tree.root) parentWord (s.fresh s.calls)) := ⟨_, rfl⟩
  obtain ⟨s₂, hs₂⟩ := hs₂
  have hw₂ : s₂.words tree.root =
      Function.update (s.words tree.root) parentWord (s.fresh s.calls) := by
    rw [hs₂, BtreeMem.words_setNode_self]
  have hq₂ : s₂.words (s.fresh s.calls) = Function.update
      (blankNode 0 (s.words (s.fresh s.calls))) (NodeArray.children.base + 0) tree.root := by
    rw [hs₂, BtreeMem.words_setNode_of_ne hqr, BtreeMem.words_setNode_self]
  have hfresh₂ : s₂.fresh s₂.calls = s.fresh (s.calls + 1) := by
    rw [hs₂]
    rfl
  obtain ⟨s₃, hrun₃, hbounds₃, hst₃⟩ := run_btreeSplitChild_leaf (s := s₂) hq hp hqr.symm
    (hfresh₂ ▸ hnew) (hfresh₂ ▸ hnewq) (hfresh₂ ▸ hnewr) (by rw [hq₂]; rfl) (by rw [hq₂]; rfl)
    (by rw [hq₂]; rfl) (by rw [hw₂]; exact hleaf)
  rw [hfresh₂] at hst₃
  obtain ⟨s₄, t, hrun₄, hbounds₄, hst₄, hheight, hlength⟩ :=
    run_btreeInsertNonFull_twoLeaves hq hst₃ hqr.symm hnewq hnewr (by simp) (by simp) fuel key value
  refine ⟨⟨s.fresh s.calls, tree.height + 1, tree.numNodes + 1⟩, s₄, t, ?_,
    hbounds₄.trans hbounds₃, hst₄, hheight, hlength⟩
  have hzero : 0 < NodeArray.children.capacity := by decide
  simp only [btreeInsert, StateT.run_bind, h, Option.bind_eq_bind, Option.bind_some, ne_eq,
    not_true_eq_false, if_false, if_neg hp, run_numKeys hp, hn, hlen, if_true, hcreate, if_neg hq,
    run_setAt hq hzero, run_setParent hp, BtreeMem.words_setNode_self, BtreeMem.setNode_setNode,
    BtreeMem.words_setNode_of_ne hqr.symm]
  simp only [BtreeMem.nextCall] at hs₂ ⊢
  rw [← hs₂, hrun₃, Option.bind_some, hrun₄]
  rfl

end Fru1tOs
