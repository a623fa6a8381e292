import Fru1tOs.Btree.Insert

/-!
# Deletion from a B-tree

`btree_delete` removes a key that is in a leaf, and refuses one that is in an inner
node (`deleteOk`), in an ordered tree of any shape. Nothing but the leaf changes.

At the end are the operations on a whole tree, which may be empty: `HoldsTree.search`,
`HoldsTree.traverse`, `HoldsTree.delete`, and `HoldsTree.insert` for an insertion that
splits no node.
-/

namespace Fru1tOs

open Lib MultiTree

variable {s s' : BtreeMem} {p i j key : ℕ}

/-! ## Deletion from a leaf -/

/-- The words `w'` of a node are `w` with the entries after `i`, up to `i + n`, moved down by
    one. -/
def MovedDown (w w' : ℕ → ℕ) (i n : ℕ) : Prop := ∀ x,
  w' x = if (1 + i ≤ x ∧ x < 1 + i + n) ∨ (5 + i ≤ x ∧ x < 5 + i + n) then w (x + 1) else w x

/-- The loop of `delete_leaf_node`. -/
theorem run_shiftDown (hp : p ≠ 0) (n i : ℕ) (hn : i + n < btreeMaxKeys) (s : BtreeMem) :
    ∃ w', ((List.range' i n).forM fun j => (do
        copyAt .keys p j p (j + 1)
        copyAt .values p j p (j + 1) : BtreeM Unit)).run s = some ((), s.setNode p w') ∧
      MovedDown (s.words p) w' i n := by
  induction n generalizing i s with
  | zero =>
    refine ⟨s.words p, ?_, fun x => (if_neg (by omega)).symm⟩
    rw [BtreeMem.setNode_self]
    rfl
  | succ n ih =>
    have hi : i < btreeMaxKeys := by omega
    have hi' : i + 1 < btreeMaxKeys := by omega
    have hn4 : i + (n + 1) < 4 := hn
    -- The first pass. The words that the other passes read are as they were.
    have hw : ∀ x, Function.update (Function.update (s.words p) (1 + i) (s.words p (1 + (i + 1))))
        (5 + i) (s.words p (5 + (i + 1))) x =
        if x = 5 + i then s.words p (5 + (i + 1)) else if x = 1 + i then s.words p (1 + (i + 1))
          else s.words p x := fun x => by
      simp only [Function.update_apply]
    obtain ⟨w', hrun, hmoved⟩ := ih (i + 1) (by omega) (s.setNode p (Function.update
      (Function.update (s.words p) (1 + i) (s.words p (1 + (i + 1)))) (5 + i)
        (s.words p (5 + (i + 1)))))
    rw [BtreeMem.words_setNode_self] at hmoved
    rw [BtreeMem.setNode_setNode] at hrun
    refine ⟨w', ?_, fun x => ?_⟩
    · rw [List.forM_eq_forM] at hrun ⊢
      rw [List.range'_succ, List.forM_cons, bind_assoc, StateT.run_bind,
        run_copyAt (a := .keys) hp hp hi hi', Option.bind_eq_bind, Option.bind_some,
        StateT.run_bind, run_copyAt (a := .values) hp hp hi hi', Option.bind_eq_bind,
        Option.bind_some, BtreeMem.words_setNode_self, BtreeMem.setNode_setNode, base_keys,
        base_values, Function.update_of_ne (by omega)]
      exact hrun
    · rw [hmoved x, hw, hw]
      split_ifs <;> first | omega | (congr 1; omega)

/-- A node whose entries were moved down loses the one in between. -/
theorem HasEntries.erase {w w' : ℕ → ℕ} {es : List (ℕ × ℕ)} (h : HasEntries w es)
    (hle : es.length ≤ btreeMaxKeys) (hi : i < es.length)
    (hmoved : MovedDown w w' i (es.length - 1 - i)) : HasEntries w' (es.eraseIdx i) := by
  intro x e he
  have hle4 : es.length ≤ 4 := hle
  have hx : x < (es.eraseIdx i).length := (List.getElem?_eq_some_iff.1 he).1
  rw [List.length_eraseIdx_of_lt hi] at hx
  rw [List.getElem?_eraseIdx] at he
  rw [base_keys, base_values, hmoved, hmoved]
  split_ifs at he with hlt
  · rw [if_neg (by omega), if_neg (by omega)]
    exact h x e he
  · obtain ⟨hk, hv⟩ := h (x + 1) e he
    rw [if_pos (by omega), if_pos (by omega)]
    exact ⟨hk, hv⟩

theorem run_findKeyIndex_leaf {es : List (ℕ × ℕ)} (h : Stored s.words p j (leaf p es)) (key : ℕ) :
    (findKeyIndex p key).run s = some ((es.takeWhile fun e => e.1 < key).length, s) := by
  obtain ⟨-, hp, hn, hle, -, hes⟩ := h
  rw [findKeyIndex, StateT.run_bind, run_numKeys hp, Option.bind_eq_bind, Option.bind_some, hn,
    run_findFrom_leaf hp hes hle key es List.drop_zero, Nat.zero_add]

theorem run_deleteLeafNode {es : List (ℕ × ℕ)} {e : ℕ × ℕ} (h : Stored s.words p j (leaf p es))
    (hsorted : es.Pairwise fun e e' => e.1 < e'.1)
    (he : es[(es.takeWhile fun e => e.1 < key).length]? = some e) (hk : e.1 = key) :
    ∃ w', (deleteLeafNode p key).run s = some ((), s.setNode p w') ∧
      Stored (s.setNode p w').words p j (leaf p (es.filter (·.1 ≠ key))) := by
  rw [filter_eq_eraseIdx hsorted he hk]
  have hfind := run_findKeyIndex_leaf h key
  generalize (es.takeWhile fun e => e.1 < key).length = i at he hfind ⊢
  obtain ⟨-, hp, hn, hle, hleaf, hes⟩ := h
  have hi : i < es.length := (List.getElem?_eq_some_iff.1 he).1
  have hle4 : es.length ≤ 4 := hle
  have hi4 : i < NodeArray.keys.capacity := lt_of_lt_of_le hi hle
  obtain ⟨w', hrun, hmoved⟩ := run_shiftDown hp (es.length - 1 - i) i (by omega) s
  refine ⟨Function.update w' numKeysWord (es.length - 1), ?_, rfl, hp, ?_, ?_, ?_, ?_⟩
  · simp only [deleteLeafNode, StateT.run_bind, hfind, run_numKeys hp, hn, if_pos hi,
      run_getAt hp hi4, (hes i e he).1, if_pos hk, hrun, run_setNumKeys hp,
      BtreeMem.words_setNode_self, BtreeMem.setNode_setNode, Option.bind_eq_bind, Option.bind_some]
  · rw [BtreeMem.words_setNode_self, Function.update_self, List.length_eraseIdx_of_lt hi]
  · rw [List.length_eraseIdx_of_lt hi]
    omega
  · have hleaf' : isLeafWord = 15 := rfl
    have hnum : numKeysWord = 0 := rfl
    rw [BtreeMem.words_setNode_self, Function.update_of_ne (by omega), hmoved, if_neg (by omega)]
    exact hleaf
  · rw [BtreeMem.words_setNode_self]
    exact (hes.erase hle hi hmoved).update_numKeys _

/-! ## The descent -/

variable {tree : Btree} {fuel : ℕ}

/-- What `btree_delete` does with the index of the key in the node. -/
def deleteAt (tree : Btree) (key fuel node i : ℕ) : BtreeM (ℤ × Btree) := do
  if i < (← numKeys node) then
    if (← getAt .keys node i) = key then
      if (← isLeaf node) ≠ 0 then
        deleteLeafNode node key
        return (0, { tree with numNodes := tree.numNodes - 1 })
      return (-1, tree)
  if (← isLeaf node) ≠ 0 then return (-1, tree)
  btreeDeleteFrom tree key fuel (← getAt .children node i)

theorem btreeDeleteFrom_succ (hp : p ≠ 0) :
    btreeDeleteFrom tree key (fuel + 1) p = findKeyIndex p key >>= deleteAt tree key fuel p := by
  rw [btreeDeleteFrom, if_neg hp]
  rfl

theorem deleteAt_inner (hp : p ≠ 0) (hi : i < s.words p numKeysWord)
    (hn : s.words p numKeysWord ≤ btreeMaxKeys)
    (hk : s.words p (NodeArray.keys.base + i) = key) (hleaf : s.words p isLeafWord = 0) :
    (deleteAt tree key fuel p i).run s = some ((-1, tree), s) := by
  have hi4 : i < NodeArray.keys.capacity := lt_of_lt_of_le hi hn
  simp only [deleteAt, StateT.run_bind, run_numKeys hp, if_pos hi, run_getAt hp hi4, hk, if_true,
    run_isLeaf hp, hleaf, ne_eq, not_true_eq_false, if_false, Option.bind_eq_bind,
    Option.bind_some]
  rfl

theorem deleteAt_found (hp : p ≠ 0) (hi : i < s.words p numKeysWord)
    (hn : s.words p numKeysWord ≤ btreeMaxKeys)
    (hk : s.words p (NodeArray.keys.base + i) = key) (hleaf : s.words p isLeafWord ≠ 0)
    (hdelete : (deleteLeafNode p key).run s = some ((), s')) :
    (deleteAt tree key fuel p i).run s =
      some ((0, { tree with numNodes := tree.numNodes - 1 }), s') := by
  have hi4 : i < NodeArray.keys.capacity := lt_of_lt_of_le hi hn
  simp only [deleteAt, StateT.run_bind, run_numKeys hp, if_pos hi, run_getAt hp hi4, hk, if_true,
    run_isLeaf hp, if_pos hleaf, hdelete, Option.bind_eq_bind, Option.bind_some]
  rfl

theorem deleteAt_leaf (hp : p ≠ 0) (hn : s.words p numKeysWord ≤ btreeMaxKeys)
    (hk : i < s.words p numKeysWord → s.words p (NodeArray.keys.base + i) ≠ key)
    (hleaf : s.words p isLeafWord ≠ 0) :
    (deleteAt tree key fuel p i).run s = some ((-1, tree), s) := by
  by_cases hi : i < s.words p numKeysWord
  · have hi4 : i < NodeArray.keys.capacity := lt_of_lt_of_le hi hn
    simp only [deleteAt, StateT.run_bind, run_numKeys hp, if_pos hi, run_getAt hp hi4,
      if_neg (hk hi), run_isLeaf hp, if_pos hleaf, Option.bind_eq_bind, Option.bind_some]
    rfl
  · simp only [deleteAt, StateT.run_bind, run_numKeys hp, if_neg hi, run_isLeaf hp, if_pos hleaf,
      Option.bind_eq_bind, Option.bind_some]
    rfl

theorem deleteAt_child (hp : p ≠ 0) (hn : s.words p numKeysWord ≤ btreeMaxKeys)
    (hi : i ≤ s.words p numKeysWord)
    (hk : i < s.words p numKeysWord → s.words p (NodeArray.keys.base + i) ≠ key)
    (hleaf : s.words p isLeafWord = 0) : (deleteAt tree key fuel p i).run s =
      (btreeDeleteFrom tree key fuel (s.words p (NodeArray.children.base + i))).run s := by
  have hi5 : i < NodeArray.children.capacity := Nat.lt_succ_of_le (hi.trans hn)
  by_cases hlt : i < s.words p numKeysWord
  · have hi4 : i < NodeArray.keys.capacity := lt_of_lt_of_le hlt hn
    simp only [deleteAt, StateT.run_bind, run_numKeys hp, if_pos hlt, run_getAt hp hi4,
      if_neg (hk hlt), run_isLeaf hp, hleaf, ne_eq, not_true_eq_false, if_false, run_getAt hp hi5,
      Option.bind_eq_bind, Option.bind_some]
  · simp only [deleteAt, StateT.run_bind, run_numKeys hp, if_neg hlt, run_isLeaf hp, hleaf, ne_eq,
      not_true_eq_false, if_false, run_getAt hp hi5, Option.bind_eq_bind, Option.bind_some]

/-- What a deletion from the tree `t`, or from the row `t`, at `p` gives: the key is removed if it
    is in a leaf, and refused otherwise, without any change. -/
def Deletes (tree : Btree) (s : BtreeMem) (key : ℕ) {b : Kind} (t : MultiTree ℕ ℕ ℕ b) (p j : ℕ)
    (out : Option ((ℤ × Btree) × BtreeMem)) : Prop :=
  ∃ m, out = some (if key ∈ t.leafKeys then (0, { tree with numNodes := tree.numNodes - 1 })
      else (-1, tree), s.withWords m) ∧ Stored m p j (t.erase key) ∧
    (∀ q ∉ t.names, m q = s.words q) ∧ (key ∉ t.leafKeys → m = s.words)

/-- A deletion that finds nothing to delete. -/
theorem Deletes.of_not_mem {b : Kind} {t : MultiTree ℕ ℕ ℕ b}
    {out : Option ((ℤ × Btree) × BtreeMem)} (h : Stored s.words p j t)
    (hk : key ∉ t.leafKeys) (hout : out = some ((-1, tree), s)) :
    Deletes tree s key t p j out :=
  ⟨s.words, by rw [hout, if_neg hk]; rfl, by rwa [erase_eq_self hk], fun _ _ => rfl, fun _ => rfl⟩

/-- A deletion from the first child of a row, if the key is in none of the others. -/
theorem Deletes.child {t : MultiTree ℕ ℕ ℕ .tree} {k v : ℕ} {r : MultiTree ℕ ℕ ℕ .row}
    {out : Option ((ℤ × Btree) × BtreeMem)} (h : Stored s.words p j (cons t k v r))
    (hp : p ∉ t.names) (hdisj : t.names.Disjoint r.names) (hnot : key ∉ r.leafKeys)
    (hd : Deletes tree s key t (s.words p (NodeArray.children.base + j)) 0 out) :
    Deletes tree s key (cons t k v r) p j out := by
  obtain ⟨hk, hv, -, hr⟩ := h
  obtain ⟨m, hout, hst, hframe, hsame⟩ := hd
  have hp' : m p = s.words p := hframe p hp
  have hmem : key ∈ (cons t k v r).leafKeys ↔ key ∈ t.leafKeys := by
    rw [leafKeys_cons, List.mem_append, or_iff_left hnot]
  refine ⟨m, by simp only [hmem]; exact hout, ?_, fun q hq => hframe q fun hq' =>
    hq (List.mem_append_left _ hq'), fun h => hsame (hmem.not.1 h)⟩
  rw [MultiTree.erase, erase_eq_self hnot]
  refine ⟨by rw [hp', hk], by rw [hp', hv], by rw [hp']; exact hst, ?_⟩
  exact hr.congr hp' fun q hq => hframe q (hdisj.symm hq)

/-- A deletion from the other children of a row, if the key is not in the first. -/
theorem Deletes.rest {t : MultiTree ℕ ℕ ℕ .tree} {k v : ℕ} {r : MultiTree ℕ ℕ ℕ .row}
    {out : Option ((ℤ × Btree) × BtreeMem)} (h : Stored s.words p j (cons t k v r))
    (hp : p ∉ r.names) (hdisj : t.names.Disjoint r.names) (hnot : key ∉ t.leafKeys)
    (hd : Deletes tree s key r p (j + 1) out) : Deletes tree s key (cons t k v r) p j out := by
  obtain ⟨hk, hv, ht, -⟩ := h
  obtain ⟨m, hout, hst, hframe, hsame⟩ := hd
  have hp' : m p = s.words p := hframe p hp
  have hframe' : ∀ q ∈ t.names, m q = s.words q := fun q hq => hframe q (hdisj hq)
  have hmem : key ∈ (cons t k v r).leafKeys ↔ key ∈ r.leafKeys := by
    rw [leafKeys_cons, List.mem_append, or_iff_right hnot]
  refine ⟨m, by simp only [hmem]; exact hout, ?_, fun q hq => hframe q fun hq' =>
    hq (List.mem_append_right _ hq'), fun h => hsame (hmem.not.1 h)⟩
  rw [MultiTree.erase, erase_eq_self hnot]
  refine ⟨by rw [hp', hk], by rw [hp', hv], ?_, hst⟩
  rw [hp']
  exact ht.congr (hframe' _ ht.mem_names) hframe'

/-- A deletion from a leaf. -/
theorem deletes_leaf {q : ℕ} {es : List (ℕ × ℕ)} (h : Stored s.words p j (leaf q es))
    (ht : (leaf q es : MultiTree ℕ ℕ ℕ .tree).Ordered) :
    Deletes tree s key (leaf q es) p j ((btreeDeleteFrom tree key (fuel + 1) p).run s) := by
  obtain rfl : q = p := h.1
  obtain ⟨-, hp, hn, hle, hleaf, hes⟩ := id h
  rw [btreeDeleteFrom_succ hp, StateT.run_bind, run_findKeyIndex_leaf h key, Option.bind_eq_bind,
    Option.bind_some]
  dsimp only
  by_cases hfound : ∃ e, es[(es.takeWhile fun e => e.1 < key).length]? = some e ∧ e.1 = key
  · obtain ⟨e, he, hk⟩ := hfound
    obtain ⟨w', hrun, hst⟩ := run_deleteLeafNode h ht he hk
    have hmem : key ∈ (leaf q es : MultiTree ℕ ℕ ℕ .tree).leafKeys :=
      hk ▸ List.mem_map_of_mem (List.mem_of_getElem? he)
    have hi := (List.getElem?_eq_some_iff.1 he).1
    refine ⟨_, ?_, hst, fun x hx => ?_, fun hnot => absurd hmem hnot⟩
    · rw [if_pos hmem,
        deleteAt_found hp (hn ▸ hi) (hn ▸ hle) ((hes _ e he).1.trans hk) hleaf hrun]
      rfl
    · exact BtreeMem.words_setNode_of_ne (fun hx' : x = q => hx (List.mem_singleton.2 hx')) s w'
  · have hnone : es.lookup key = none := by
      rw [lookup_eq_getElem? (l := es) ht, Option.bind_eq_none_iff]
      exact fun e he => if_neg fun hk => hfound ⟨e, he, hk⟩
    refine Deletes.of_not_mem h (not_mem_leafKeys fun e he hk => ?_)
      (deleteAt_leaf hp (hn ▸ hle) (fun hlt hk => ?_) hleaf)
    · have := List.lookup_eq_none_iff.1 hnone e he
      simp [hk] at this
    · rw [hn] at hlt
      have he := List.getElem?_eq_getElem hlt
      exact hfound ⟨_, he, (hes _ _ he).1.symm.trans hk⟩

/-- The deletion of the key from the tree, and from the node from the first index of the row
    on. -/
def DeleteOk (tree : Btree) (s : BtreeMem) (key : ℕ) : {b : Kind} → MultiTree ℕ ℕ ℕ b → Prop
  | .tree, t => ∀ p j fuel, Stored s.words p j t → t.names.Nodup → t.height ≤ fuel →
      Deletes tree s key t p j ((btreeDeleteFrom tree key fuel p).run s)
  | .row, r => ∀ p j fuel, p ≠ 0 → s.words p numKeysWord = j + r.width →
      j + r.width ≤ btreeMaxKeys → s.words p isLeafWord = 0 → Stored s.words p j r →
      p ∉ r.names → r.names.Nodup → r.height ≤ fuel →
      Deletes tree s key r p j ((findFrom p key r.width j >>= deleteAt tree key fuel p).run s)

/-- The descent of `btree_delete`, in an ordered tree of any shape. -/
theorem deleteOk (tree : Btree) (s : BtreeMem) (key : ℕ) {b : Kind} (t : MultiTree ℕ ℕ ℕ b)
    (ht : t.Ordered) : DeleteOk tree s key t := by
  induction t with
  | leaf q es =>
    rintro p j (_ | fuel) h hnodup hfuel
    · exact absurd hfuel (by rw [height]; omega)
    exact deletes_leaf h ht
  | node q r ih =>
    rintro p j (_ | fuel) ⟨rfl, hp, hn, hle, hleaf, hr⟩ hnodup hfuel
    · exact absurd hfuel (by rw [height]; omega)
    rw [btreeDeleteFrom_succ hp, findKeyIndex, bind_assoc, StateT.run_bind, run_numKeys hp,
      Option.bind_eq_bind, Option.bind_some, hn]
    rw [names, List.nodup_cons] at hnodup
    obtain ⟨m, hout, hst, hframe, hsame⟩ := ih ht q 0 fuel hp (by rw [hn, Nat.zero_add])
      (by rwa [Nat.zero_add]) hleaf hr hnodup.1 hnodup.2 (Nat.le_of_succ_le_succ hfuel)
    have hq : m q = s.words q := hframe q hnodup.1
    refine ⟨m, hout, ⟨rfl, hp, ?_, ?_, ?_, hst⟩, fun x hx => hframe x fun hx' =>
      hx (List.mem_cons_of_mem _ hx'), hsame⟩
    · rw [hq, hn, width_erase]
    · rwa [width_erase]
    · rw [hq, hleaf]
  | last t ih =>
    intro p j fuel hp hn hle hleaf hr hpr hnodup hfuel
    rw [width] at hn hle ⊢
    have hne : j < s.words p numKeysWord → s.words p (NodeArray.keys.base + j) ≠ key :=
      fun hj => absurd hj (by omega)
    obtain ⟨m, hout, hst, hframe, hsame⟩ := ih ht _ 0 fuel hr hnodup hfuel
    refine ⟨m, (deleteAt_child hp (hn ▸ hle) (by omega) hne hleaf).trans hout, ?_, hframe, hsame⟩
    rw [erase, Stored, hframe p hpr]
    exact hst
  | cons t k v r iht ihr =>
    intro p j fuel hp hn hle hleaf h hpr hnodup hfuel
    obtain ⟨hto, hro, htk, hrk⟩ := ordered_cons.1 ht
    obtain ⟨hk, -, ht', hr'⟩ := id h
    rw [width] at hn hle ⊢
    rw [height] at hfuel
    rw [names, List.mem_append, not_or] at hpr
    rw [names, List.nodup_append'] at hnodup
    obtain ⟨hnt, hnr, hdisj⟩ := hnodup
    have hj : j < NodeArray.keys.capacity := lt_of_lt_of_le (by omega) hle
    rw [findFrom, bind_assoc, StateT.run_bind, run_getAt hp hj, Option.bind_eq_bind,
      Option.bind_some, hk]
    rcases lt_trichotomy k key with hlt | rfl | hgt
    · -- The key is after the first entry. The first child is as it was.
      have hnot : key ∉ t.leafKeys := not_mem_leafKeys fun e he => ((htk e he).trans hlt).ne
      rw [if_pos hlt]
      exact .rest h hpr.2 hdisj hnot (ihr hro p (j + 1) fuel hp (by omega) (by omega) hleaf hr'
        hpr.2 hnr (le_of_max_le_right hfuel))
    · rw [if_neg (lt_irrefl k), pure_bind]
      refine Deletes.of_not_mem h ?_
        (deleteAt_inner (s := s) (i := j) hp (by omega) (by omega) hk hleaf)
      rw [leafKeys_cons, List.mem_append, not_or]
      exact ⟨not_mem_leafKeys fun e he => (htk e he).ne,
        not_mem_leafKeys fun e he => (hrk e he).ne'⟩
    · -- The key is before the first entry. The rest of the row is as it was.
      have hnot : key ∉ r.leafKeys := not_mem_leafKeys fun e he => (hgt.trans (hrk e he)).ne'
      rw [if_neg hgt.not_gt, pure_bind,
        deleteAt_child hp (by omega) (by omega) (fun _ => by rw [hk]; exact hgt.ne') hleaf]
      exact .child h hpr.1 hdisj hnot (iht hto _ 0 fuel ht' hnt (le_of_max_le_left hfuel))

/-! ## Whole trees -/

/-- `struct btree` holds the tree: none when it is empty. -/
def HoldsTree (m : ℕ → ℕ → ℕ) (root : ℕ) : Option (MultiTree ℕ ℕ ℕ .tree) → Prop
  | none => root = 0
  | some t => Stored m root 0 t ∧ t.Ordered ∧ t.names.Nodup

/-- The entries, in order. -/
def treeList : Option (MultiTree ℕ ℕ ℕ .tree) → List (ℕ × ℕ)
  | none => []
  | some t => t.toList

/-- The keys in the leaves. -/
def treeLeafKeys : Option (MultiTree ℕ ℕ ℕ .tree) → List ℕ
  | none => []
  | some t => t.leafKeys

/-- The addresses of the nodes. -/
def treeNames : Option (MultiTree ℕ ℕ ℕ .tree) → List ℕ
  | none => []
  | some t => t.names

/-- The number of nodes on a longest path down. -/
def treeHeight : Option (MultiTree ℕ ℕ ℕ .tree) → ℕ
  | none => 0
  | some t => t.height

section Whole

variable {o : Option (MultiTree ℕ ℕ ℕ .tree)} {m' : ℕ → ℕ → ℕ}

theorem HoldsTree.pairwise (h : HoldsTree s.words tree.root o) :
    (treeList o).Pairwise fun e e' => e.1 < e'.1 := by
  cases o with
  | none => exact List.Pairwise.nil
  | some t => exact h.2.1

theorem HoldsTree.congr (h : HoldsTree s.words tree.root o)
    (hm : ∀ q ∈ treeNames o, m' q = s.words q) : HoldsTree m' tree.root o := by
  cases o with
  | none => exact h
  | some t => exact ⟨h.1.congr (hm _ h.1.mem_names) hm, h.2⟩

/-- `btree_search` in an ordered tree of any shape. -/
theorem HoldsTree.search (h : HoldsTree s.words tree.root o) (hfuel : treeHeight o < fuel)
    (key : ℕ) :
    (btreeSearch fuel tree key).run s = some (((treeList o).lookup key).getD 0, s) := by
  cases o with
  | none =>
    obtain ⟨fuel, rfl⟩ := Nat.exists_eq_succ_of_ne_zero (Nat.ne_zero_of_lt hfuel)
    rw [btreeSearch, btreeSearchFrom, if_pos (show tree.root = 0 from h)]
    rfl
  | some t => exact searchOk s key t h.2.1 _ _ fuel h.1 hfuel.le

/-- `btree_traverse` in a tree of any shape. -/
theorem HoldsTree.traverse (h : HoldsTree s.words tree.root o) (hfuel : treeHeight o < fuel) :
    (btreeTraverse fuel tree).run s = some (treeList o, s) := by
  cases o with
  | none =>
    obtain ⟨fuel, rfl⟩ := Nat.exists_eq_succ_of_ne_zero (Nat.ne_zero_of_lt hfuel)
    rw [btreeTraverse, traverseRecursive, if_pos (show tree.root = 0 from h)]
    rfl
  | some t => exact traverseOk s t _ _ fuel h.1 hfuel.le

/-- The tree after `btree_delete`. -/
def treeErase (key : ℕ) (o : Option (MultiTree ℕ ℕ ℕ .tree)) : Option (MultiTree ℕ ℕ ℕ .tree) :=
  o.map fun t => t.erase key

theorem treeHeight_erase (key : ℕ) (o : Option (MultiTree ℕ ℕ ℕ .tree)) :
    treeHeight (treeErase key o) = treeHeight o := by
  cases o with
  | none => rfl
  | some t => exact height_erase t

theorem treeNames_erase (key : ℕ) (o : Option (MultiTree ℕ ℕ ℕ .tree)) :
    treeNames (treeErase key o) = treeNames o := by
  cases o with
  | none => rfl
  | some t => exact names_erase t

/-- A key in a leaf loses its entry. -/
theorem treeList_erase (h : HoldsTree s.words tree.root o) (hkey : key ∈ treeLeafKeys o) :
    treeList (treeErase key o) = (treeList o).filter (·.1 ≠ key) := by
  cases o with
  | none => exact absurd hkey List.not_mem_nil
  | some t => exact toList_erase h.2.1 hkey

/-- Other keys stay. -/
theorem treeErase_eq_self (hkey : key ∉ treeLeafKeys o) : treeErase key o = o := by
  cases o with
  | none => rfl
  | some t => exact congrArg some (erase_eq_self hkey)

/-- `btree_delete` in an ordered tree of any shape: a key in a leaf is removed, and nothing changes
    otherwise. -/
theorem HoldsTree.delete_eq (h : HoldsTree s.words tree.root o) (hfuel : treeHeight o < fuel)
    (key : ℕ) : ∃ m, (btreeDelete fuel tree key).run s =
        some (if key ∈ treeLeafKeys o then (0, { tree with numNodes := tree.numNodes - 1 })
          else (-1, tree), s.withWords m) ∧
      HoldsTree m tree.root (treeErase key o) ∧ (∀ q ∉ treeNames o, m q = s.words q) ∧
      (key ∉ treeLeafKeys o → m = s.words) := by
  cases o with
  | none =>
    obtain ⟨fuel, rfl⟩ := Nat.exists_eq_succ_of_ne_zero (Nat.ne_zero_of_lt hfuel)
    refine ⟨s.words, ?_, h, fun _ _ => rfl, fun _ => rfl⟩
    rw [btreeDelete, btreeDeleteFrom, if_pos (show tree.root = 0 from h),
      if_neg (show key ∉ treeLeafKeys none from List.not_mem_nil)]
    rfl
  | some t =>
    obtain ⟨m, hout, hst, hframe, hsame⟩ := deleteOk tree s key t h.2.1 _ _ fuel h.1 h.2.2 hfuel.le
    exact ⟨m, hout, ⟨hst, h.2.1.erase key, by rw [names_erase]; exact h.2.2⟩, hframe, hsame⟩

theorem HoldsTree.delete (h : HoldsTree s.words tree.root o) (hfuel : treeHeight o < fuel)
    (key : ℕ) : ∃ m r tree', (btreeDelete fuel tree key).run s = some ((r, tree'), s.withWords m) ∧
      tree'.root = tree.root ∧ HoldsTree m tree.root (treeErase key o) ∧
      ∀ q ∉ treeNames o, m q = s.words q := by
  obtain ⟨m, hout, hholds, hframe, -⟩ := h.delete_eq hfuel key
  by_cases hmem : key ∈ treeLeafKeys o
  · rw [if_pos hmem] at hout
    exact ⟨m, _, _, hout, rfl, hholds, hframe⟩
  · rw [if_neg hmem] at hout
    exact ⟨m, _, _, hout, rfl, hholds, hframe⟩

/-! ## Insertion without a split -/

/-- The nodes on the way to the leaf for the key are not full. -/
def treeRoom (key : ℕ) : Option (MultiTree ℕ ℕ ℕ .tree) → Prop
  | none => True
  | some t => t.Room btreeMaxKeys key

/-- The tree `o'` is `o`, and it may have got the entry. -/
structure Inserted (key value : ℕ) (s s' : BtreeMem) (o o' : Option (MultiTree ℕ ℕ ℕ .tree)) :
    Prop where
  mem : ∀ e, e.1 ≠ key → (e ∈ treeList o' ↔ e ∈ treeList o)
  value : ∀ e ∈ treeList o', e.1 = key → e.2 = value
  height : treeHeight o' ≤ treeHeight o + 1
  frame : ∀ q ∉ treeNames o, q ≠ s.fresh s.calls → s'.words q = s.words q
  names : ∀ q ∈ treeNames o', q ∈ treeNames o ∨ q = s.fresh s.calls ∧ q ≠ 0 ∧ s.calls < s'.calls
  fresh : s'.fresh = s.fresh
  calls : s.calls ≤ s'.calls

theorem HoldsTree.search_eq_zero (h : HoldsTree s.words tree.root o)
    (hnew : ∀ e ∈ treeList o, e.1 ≠ key) (hfuel : treeHeight o < fuel) :
    (btreeSearch fuel tree key).run s = some (0, s) := by
  rw [h.search hfuel key, lookup_eq_none hnew, Option.getD_none]

/-- A new key for a tree that is not empty, where no node has to be split. -/
theorem HoldsTree.run_insert {t : MultiTree ℕ ℕ ℕ .tree} (h : HoldsTree s.words tree.root (some t))
    (hnew : ∀ e ∈ t.toList, e.1 ≠ key) (hroom : t.Room btreeMaxKeys key) (hfuel : t.height < fuel)
    (value : ℕ) : ∃ m, (btreeInsert fuel tree key value).run s =
        some ((0, { tree with numNodes := tree.numNodes + 1 }), s.withWords m) ∧
      HoldsTree m tree.root (some (t.insert key value)) ∧ ∀ q ∉ t.names, m q = s.words q := by
  have hsearch := h.search_eq_zero hnew hfuel
  obtain ⟨hp, hfull, m, hrun, hst, hframe⟩ :=
    insertOk s key value t h.2.1 hnew _ 0 fuel h.1 h.2.2 hroom hfuel.le
  refine ⟨m, ?_, ⟨hst, h.2.1.insert hnew value, by rw [names_insert]; exact h.2.2⟩, hframe⟩
  simp only [btreeInsert, StateT.run_bind, hsearch, Option.bind_eq_bind, Option.bind_some, ne_eq,
    not_true_eq_false, if_false, if_neg hp, run_numKeys hp, if_neg hfull, hrun]
  rfl

/-- A tree that is left as it was. -/
theorem Inserted.refl {v : ℕ} (hval : ∀ e ∈ treeList o, e.1 = key → e.2 = v)
    (hwords : s'.words = s.words) (hfresh : s'.fresh = s.fresh) (hcalls : s.calls ≤ s'.calls) :
    Inserted key v s s' o o :=
  ⟨fun _ _ => Iff.rfl, hval, Nat.le_succ _, fun q _ _ => congrFun hwords q, fun _ hq => .inl hq,
    hfresh, hcalls⟩

/-- Where there is room on the way, the root is not full. -/
theorem HoldsTree.not_full (h : HoldsTree s.words tree.root o) (hroom : treeRoom key o)
    (h0 : tree.root ≠ 0) : s.words tree.root numKeysWord ≠ btreeMaxKeys := by
  match o, h, hroom with
  | none, h, _ => exact absurd h h0
  | some (leaf q es), h, hroom =>
    rw [h.1.2.2.1]
    exact Nat.ne_of_lt hroom
  | some (node q r), h, hroom =>
    rw [h.1.2.2.1]
    exact Nat.ne_of_lt hroom.1

/-- `btree_insert` of a new key in an ordered tree of any shape, where no node has to be split. The
    key gets its entry, if the tree is not empty or there is a node for the root. -/
theorem HoldsTree.insert (h : HoldsTree s.words tree.root o)
    (hnew : ∀ e ∈ treeList o, e.1 ≠ key) (hroom : treeRoom key o) (hfuel : treeHeight o < fuel)
    (value : ℕ) : ∃ r tree' s' o', (btreeInsert fuel tree key value).run s = some ((r, tree'), s') ∧
      HoldsTree s'.words tree'.root o' ∧ Inserted key value s s' o o' ∧
      s'.calls = s.calls + (if tree.root = 0 then 1 else 0) ∧
      ((key, value) ∈ treeList o' ↔ (tree.root = 0 → s.fresh s.calls ≠ 0)) := by
  have hsearch := h.search_eq_zero hnew hfuel
  cases o with
  | none =>
    have hroot : tree.root = 0 := h
    rw [if_pos hroot]
    by_cases hq : s.fresh s.calls = 0
    · refine ⟨-1, tree, s.nextCall, none, run_btreeInsert_null hsearch (.inl hroot) hq value, hroot,
        .refl (fun e he => absurd he List.not_mem_nil) rfl rfl (Nat.le_succ _), rfl, ?_⟩
      exact iff_of_false List.not_mem_nil fun hne => hne hroot hq
    · obtain ⟨w', hrun, -, hst⟩ := run_btreeInsert_empty hsearch hroot hq value
      refine ⟨_, _, _, some (leaf (s.fresh s.calls) [(key, value)]), hrun,
        ⟨hst, List.pairwise_singleton _ _, List.nodup_singleton _⟩, ⟨fun e he => ?_,
        fun e he _ => ?_, le_rfl, fun q _ hne => BtreeMem.words_setNode_of_ne hne _ _,
        fun q hmem => ?_, rfl, Nat.le_succ _⟩, rfl,
        iff_of_true (List.mem_singleton_self _) fun _ => hq⟩
      · refine iff_of_false (fun he' => he ?_) List.not_mem_nil
        rw [List.mem_singleton.1 he']
      · rw [List.mem_singleton.1 he]
      · obtain rfl := List.mem_singleton.1 hmem
        exact .inr ⟨rfl, hq, Nat.lt_succ_self _⟩
  | some t =>
    obtain ⟨m, hrun, hholds, hframe⟩ := h.run_insert hnew hroom hfuel value
    have hroot := h.1.ne_zero
    refine ⟨0, { tree with numNodes := tree.numNodes + 1 }, s.withWords m,
      some (t.insert key value), hrun, hholds,
      ⟨fun e he => ?_, fun e he hkey => ?_, ?_, fun q hq _ => hframe q hq,
      fun q hq => ?_, rfl, le_rfl⟩, by rw [if_neg hroot]; rfl,
      iff_of_true (mem_toList_insert.2 (.inl rfl)) fun h0 => absurd h0 hroot⟩
    · refine mem_toList_insert.trans ⟨fun he' => he'.resolve_left fun heq => he ?_, .inr⟩
      rw [heq]
    · rcases mem_toList_insert.1 he with rfl | he
      · rfl
      · exact absurd hkey (hnew e he)
    · exact (height_insert t).le.trans (Nat.le_succ _)
    · rw [treeNames, names_insert] at hq
      exact .inl hq

end Whole

end Fru1tOs
