import Fru1tOs.Btree.Delete

/-!
# Insertion when a node cannot be allocated

`btree_insert` returns -1 for a new key only if the first node it asks for is a root, and
`kmalloc` has none: the tree is empty, or its root is full. `btree_split_child` has no way to
report that it failed, so that an insertion that needs a split goes on without it
(`btreeInsert_atomic_iff`). What an insertion comes to that needs none is `HoldsTree.insert_cases`.
-/

namespace Fru1tOs

open Lib MultiTree

/-! ## Calls of `kmalloc` -/

section Calls

variable {α β : Type} {k k' : ℕ}

/-- The computation asks `kmalloc` for `k` nodes at least, if it returns. -/
def CallsGrow (k : ℕ) (x : BtreeM α) : Prop :=
  ∀ s a s', x.run s = some (a, s') → s.calls + k ≤ s'.calls

namespace CallsGrow

theorem mono {x : BtreeM α} (h : CallsGrow k x) (hk : k' ≤ k) : CallsGrow k' x :=
  fun s a s' hrun => (Nat.add_le_add_left hk _).trans (h s a s' hrun)

theorem pure (a : α) : CallsGrow 0 (Pure.pure a : BtreeM α) := by
  intro s b s' hrun
  cases hrun
  exact le_rfl

theorem bind {x : BtreeM α} {f : α → BtreeM β} (hx : CallsGrow 0 x)
    (hf : ∀ a, CallsGrow k (f a)) : CallsGrow k (x >>= f) := by
  intro s b s' hrun
  rw [StateT.run_bind] at hrun
  obtain ⟨⟨a, s₁⟩, hx', hf'⟩ := Option.bind_eq_some_iff.1 hrun
  exact (Nat.add_le_add_right (hx s a s₁ hx') k).trans (hf a s₁ b s' hf')

/-- What comes after the calls. -/
theorem andThen {x : BtreeM α} {f : α → BtreeM β} (hx : CallsGrow k x)
    (hf : ∀ a, CallsGrow 0 (f a)) : CallsGrow k (x >>= f) := by
  intro s b s' hrun
  rw [StateT.run_bind] at hrun
  obtain ⟨⟨a, s₁⟩, hx', hf'⟩ := Option.bind_eq_some_iff.1 hrun
  exact (hx s a s₁ hx').trans (hf a s₁ b s' hf')

theorem ite {c : Prop} [Decidable c] {x y : BtreeM α} (hx : CallsGrow k x) (hy : CallsGrow k y) :
    CallsGrow k (if c then x else y) := by
  split_ifs
  · exact hx
  · exact hy

theorem forM {l : List α} {f : α → BtreeM PUnit} (hf : ∀ a, CallsGrow 0 (f a)) :
    CallsGrow 0 (l.forM f) := by
  induction l with
  | nil => exact pure _
  | cons a l ih => exact (hf a).bind fun _ => ih

end CallsGrow

variable (p i v node key : ℕ) (a : NodeArray)

theorem callsGrow_loadWord : CallsGrow 0 (loadWord p i) := by
  intro s a s' hrun
  simp only [loadWord, StateT.run] at hrun
  split_ifs at hrun
  cases hrun
  exact le_rfl

theorem callsGrow_storeWord : CallsGrow 0 (storeWord p i v) := by
  intro s a s' hrun
  simp only [storeWord, StateT.run] at hrun
  split_ifs at hrun
  cases hrun
  exact le_rfl

theorem callsGrow_logAccess (ok : Bool) : CallsGrow 0 (logAccess ok) := by
  intro s a s' hrun
  cases hrun
  exact le_rfl

theorem callsGrow_getAt : CallsGrow 0 (getAt a p i) :=
  (callsGrow_logAccess _).bind fun _ => callsGrow_loadWord _ _

theorem callsGrow_setAt : CallsGrow 0 (setAt a p i v) :=
  (callsGrow_logAccess _).bind fun _ => callsGrow_storeWord _ _ _

theorem callsGrow_copyAt (j q : ℕ) : CallsGrow 0 (copyAt a q j p i) :=
  (callsGrow_getAt _ _ _).bind fun _ => callsGrow_setAt _ _ _ _

theorem callsGrow_kmallocNode : CallsGrow 1 kmallocNode := by
  intro s a s' hrun
  cases hrun
  exact le_rfl

theorem callsGrow_btreeNodeCreate (leaf : ℕ) : CallsGrow 1 (btreeNodeCreate leaf) := by
  refine callsGrow_kmallocNode.andThen fun node => .ite (.pure _) ?_
  refine (callsGrow_storeWord _ _ _).bind fun _ => (callsGrow_storeWord _ _ _).bind fun _ =>
    (callsGrow_storeWord _ _ _).bind fun _ => ?_
  refine (CallsGrow.forM fun i => ?_).bind fun _ => (CallsGrow.forM fun i => ?_).bind fun _ =>
    .pure _
  · exact (callsGrow_setAt _ _ _ _).bind fun _ => callsGrow_setAt _ _ _ _
  · exact callsGrow_setAt _ _ _ _

/-- A split asks for a node. -/
theorem callsGrow_btreeSplitChild (parent index child : ℕ) :
    CallsGrow 1 (btreeSplitChild parent index child) := by
  have hcopy : ∀ p i q j, CallsGrow 0 (do copyAt .keys p i q j; copyAt .values p i q j) :=
    fun p i q j => (callsGrow_copyAt _ _ _ _ _).bind fun _ => callsGrow_copyAt _ _ _ _ _
  refine (callsGrow_loadWord _ _).bind fun leaf => (callsGrow_btreeNodeCreate _).andThen fun new =>
    .ite (.pure _) ?_
  refine (callsGrow_storeWord _ _ _).bind fun _ => (CallsGrow.forM fun i => hcopy _ _ _ _).bind
    fun _ => (callsGrow_loadWord _ _).bind fun leaf => ?_
  have hrest : ∀ n, CallsGrow 0 (do
      (List.range' (index + 1) (n - index)).reverse.forM fun i =>
        copyAt .children parent (i + 1) parent i
      setAt .children parent (index + 1) new
      setParent new parent
      (List.range' index (n - index)).reverse.forM fun i => do
        copyAt .keys parent (i + 1) parent i
        copyAt .values parent (i + 1) parent i
      copyAt .keys parent index child btreeMinKeys
      copyAt .values parent index child btreeMinKeys
      setNumKeys parent (n + 1)) := fun n =>
    (CallsGrow.forM fun i => callsGrow_copyAt _ _ _ _ _).bind fun _ =>
      (callsGrow_setAt _ _ _ _).bind fun _ => (callsGrow_storeWord _ _ _).bind fun _ =>
      (CallsGrow.forM fun i => hcopy _ _ _ _).bind fun _ =>
      (callsGrow_copyAt _ _ _ _ _).bind fun _ => (callsGrow_copyAt _ _ _ _ _).bind fun _ =>
      callsGrow_storeWord _ _ _
  refine .ite ((CallsGrow.forM fun i => ?_).bind fun _ => (callsGrow_storeWord _ _ _).bind fun _ =>
    (callsGrow_loadWord _ _).bind hrest)
    ((callsGrow_storeWord _ _ _).bind fun _ => (callsGrow_loadWord _ _).bind hrest)
  exact (callsGrow_copyAt _ _ _ _ _).bind fun _ => (callsGrow_getAt _ _ _).bind fun c =>
    .ite (callsGrow_storeWord _ _ _) (.pure _)

theorem callsGrow_shiftUp (n : ℕ) : CallsGrow 0 (shiftUp node key n) := by
  induction n with
  | zero => exact .pure _
  | succ n ih =>
    refine (callsGrow_getAt _ _ _).bind fun k => .ite ?_ (.pure _)
    exact (callsGrow_copyAt _ _ _ _ _).bind fun _ => (callsGrow_copyAt _ _ _ _ _).bind fun _ => ih

theorem callsGrow_findChild (n : ℕ) : CallsGrow 0 (findChild node key n) := by
  induction n with
  | zero => exact .pure _
  | succ n ih => exact (callsGrow_getAt _ _ _).bind fun k => .ite ih (.pure _)

theorem callsGrow_btreeInsertNonFull (fuel value : ℕ) :
    CallsGrow 0 (btreeInsertNonFull fuel node key value) := by
  induction fuel generalizing node with
  | zero => exact fun s a s' hrun => by cases hrun
  | succ fuel ih =>
    refine (callsGrow_loadWord _ _).bind fun n => (callsGrow_loadWord _ _).bind fun leaf =>
      .ite ?_ ?_
    · exact (callsGrow_shiftUp _ _ _).bind fun i => (callsGrow_setAt _ _ _ _).bind fun _ =>
        (callsGrow_setAt _ _ _ _).bind fun _ => callsGrow_storeWord _ _ _
    · refine (callsGrow_findChild _ _ _).bind fun i => (callsGrow_getAt _ _ _).bind fun child =>
        (callsGrow_loadWord _ _).bind fun n => ?_
      have hrest : ∀ i, CallsGrow 0 (getAt .children node i >>= fun c =>
          btreeInsertNonFull fuel c key value) := fun i =>
        (callsGrow_getAt _ _ _).bind fun c => ih c
      exact .ite (((callsGrow_btreeSplitChild _ _ _).mono (Nat.zero_le 1)).bind fun _ =>
        (callsGrow_getAt _ _ _).bind fun k => .ite (hrest _) (hrest _)) (hrest _)

end Calls

/-! ## The descent to the first full node -/

section Descent

variable {s s' : BtreeMem} {p i j key : ℕ}

/-- When the child for the key is full, a node is asked for. -/
theorem calls_lt_of_full (hp : p ≠ 0) (hn : s.words p numKeysWord ≤ btreeMaxKeys)
    (hleaf : s.words p isLeafWord = 0) (hi : i ≤ s.words p numKeysWord)
    (hfind : (findChild p key (s.words p numKeysWord)).run s = some (i, s))
    (hc : s.words p (NodeArray.children.base + i) ≠ 0)
    (hfull : s.words (s.words p (NodeArray.children.base + i)) numKeysWord = btreeMaxKeys)
    {fuel value : ℕ} (hrun : (btreeInsertNonFull (fuel + 1) p key value).run s = some ((), s')) :
    s.calls < s'.calls := by
  have hi5 : i < NodeArray.children.capacity := Nat.lt_succ_of_le (hi.trans hn)
  have hrest : ∀ i, CallsGrow 0 (getAt .children p i >>= fun c =>
      btreeInsertNonFull fuel c key value) := fun i =>
    (callsGrow_getAt _ _ _).bind fun c => callsGrow_btreeInsertNonFull _ _ _ _
  have hsplit : CallsGrow 1 (do
      btreeSplitChild p i (s.words p (NodeArray.children.base + i))
      if key > (← getAt .keys p i) then
        btreeInsertNonFull fuel (← getAt .children p (i + 1)) key value
      else btreeInsertNonFull fuel (← getAt .children p i) key value) :=
    (callsGrow_btreeSplitChild _ _ _).andThen fun _ => (callsGrow_getAt _ _ _).bind fun k =>
      .ite (hrest _) (hrest _)
  refine hsplit s () s' ?_
  rw [← hrun]
  simp only [btreeInsertNonFull, StateT.run_bind, run_numKeys hp, run_isLeaf hp, hleaf, ne_eq,
    not_true_eq_false, if_false, hfind, run_getAt hp hi5, run_numKeys hc, if_pos hfull,
    Option.bind_eq_bind, Option.bind_some]

/-- An insertion into the tree, and into the child `i` of the node that has the row, where a node
    on the way is full, asks for a node. -/
def AsksOk (s : BtreeMem) (key value : ℕ) : {b : Kind} → MultiTree ℕ ℕ ℕ b → Prop
  | .tree, t => ∀ p j fuel s', Stored s.words p j t → ¬ t.Room btreeMaxKeys key →
      p ≠ 0 ∧ (s.words p numKeysWord ≠ btreeMaxKeys →
        (btreeInsertNonFull fuel p key value).run s = some ((), s') → s.calls < s'.calls)
  | .row, r => ∀ p j i fuel s', Stored s.words p j r → ¬ r.Room btreeMaxKeys key → j ≤ i →
      i ≤ j + r.width →
      (∀ x, i ≤ x → x < j + r.width → key < s.words p (NodeArray.keys.base + x)) →
      (∀ x, x + 1 = i → s.words p (NodeArray.keys.base + x) ≤ key) →
      s.words p (NodeArray.children.base + i) ≠ 0 ∧
      (s.words (s.words p (NodeArray.children.base + i)) numKeysWord ≠ btreeMaxKeys →
        (btreeInsertNonFull fuel (s.words p (NodeArray.children.base + i)) key value).run s =
          some ((), s') → s.calls < s'.calls)

/-- The recursion of `btree_insert_non_full` up to the first full node, in an ordered tree of any
    shape. -/
theorem asksOk (s : BtreeMem) (key value : ℕ) {b : Kind} (t : MultiTree ℕ ℕ ℕ b)
    (ht : t.Ordered) : AsksOk s key value t := by
  induction t with
  | leaf q es =>
    intro p j fuel s' h hroom
    refine ⟨h.2.1, fun hfull => ?_⟩
    rw [h.2.2.1] at hfull
    exact absurd (lt_of_le_of_ne h.2.2.2.1 hfull) hroom
  | node q r ih =>
    rintro p j fuel s' ⟨rfl, hp, hn, hle, hleaf, hr⟩ hroom
    refine ⟨hp, fun hfull hrun => ?_⟩
    have hroom' : ¬ r.Room btreeMaxKeys key := fun hr =>
      hroom ⟨lt_of_le_of_ne hle (hn ▸ hfull), hr⟩
    rcases fuel with _ | fuel
    · cases hrun
    obtain ⟨i, hi, hfind, habove, hbelow⟩ :=
      run_findChild (s := s) hp (s.words q numKeysWord) (hn ▸ hle)
    obtain ⟨hc, hchild⟩ := ih ht q 0 i fuel s' hr hroom' (Nat.zero_le i) (by omega)
      (by rwa [Nat.zero_add, ← hn]) hbelow
    by_cases hfull' : s.words (s.words q (NodeArray.children.base + i)) numKeysWord = btreeMaxKeys
    · exact calls_lt_of_full hp (hn ▸ hle) hleaf hi hfind hc hfull' hrun
    · rw [run_btreeInsertNonFull_child hp (hn ▸ hle) hleaf hi hfind hc hfull' fuel value] at hrun
      exact hchild hfull' hrun
  | last t ih =>
    intro p j i fuel s' hr hroom hji hi habove hbelow
    rw [width] at hi
    obtain rfl : i = j := by omega
    exact ih ht _ 0 fuel s' hr hroom
  | cons t k v r iht ihr =>
    intro p j i fuel s' h hroom hji hi habove hbelow
    obtain ⟨hto, hro, htk, hrk⟩ := ordered_cons.1 ht
    obtain ⟨hk, hv, ht', hr'⟩ := id h
    rw [width] at hi habove
    rw [Room] at hroom
    by_cases hlt : key < k
    · rw [if_pos hlt] at hroom
      obtain rfl := h.index_eq_of_lt ht hlt hji (by rw [width]; omega) hbelow
      exact iht hto _ 0 fuel s' ht' hroom
    · rw [if_neg hlt] at hroom
      have hij : j + 1 ≤ i := by
        by_contra hnot
        obtain rfl : i = j := by omega
        exact hlt (hk ▸ habove i le_rfl (by omega))
      exact ihr hro p (j + 1) i fuel s' hr' hroom hij (by omega)
        (fun x hx hx' => habove x hx (by omega)) hbelow

end Descent

/-! ## Failed insertions -/

section Atomic

variable {s s' : BtreeMem} {tree tree' : Btree} {o : Option (MultiTree ℕ ℕ ℕ .tree)}
  {key value fuel : ℕ}

/-- The height, the searches and the traversal are the same in both trees. -/
structure SameView (fuel : ℕ) (tree tree' : Btree) (s s' : BtreeMem) : Prop where
  height : tree'.height = tree.height
  search : ∀ key, ((btreeSearch fuel tree' key).run s').map Prod.fst =
    ((btreeSearch fuel tree key).run s).map Prod.fst
  traverse : ((btreeTraverse fuel tree').run s').map Prod.fst =
    ((btreeTraverse fuel tree).run s).map Prod.fst

/-- The insertion returns -1 and leaves the tree as it was. -/
def Refuses (fuel : ℕ) (tree : Btree) (s : BtreeMem) (key value : ℕ) : Prop :=
  ∃ tree' s', (btreeInsert fuel tree key value).run s = some ((-1, tree'), s') ∧
    SameView fuel tree tree' s s'

/-- The insertion returns, and if a node that it asks for is not allocated, it returns -1 and
    leaves the tree as it was. -/
def InsertAtomic (fuel : ℕ) (tree : Btree) (s : BtreeMem) (key value : ℕ) : Prop :=
  ∃ r tree' s', (btreeInsert fuel tree key value).run s = some ((r, tree'), s') ∧
    ((∃ n, s.calls ≤ n ∧ n < s'.calls ∧ s.fresh n = 0) → r = -1 ∧ SameView fuel tree tree' s s')

/-- The nodes that `kmalloc` will give are new ones. -/
def NewNodes (s : BtreeMem) (o : Option (MultiTree ℕ ℕ ℕ .tree)) : Prop :=
  ∀ n, s.calls ≤ n → s.fresh n ≠ 0 → s.fresh n ∉ treeNames o ∧
    ∀ k, s.calls ≤ k → s.fresh k = s.fresh n → k = n

/-- A call of `kmalloc` that fails changes nothing in the tree. -/
theorem HoldsTree.sameView (h : HoldsTree s.words tree.root o) (hfuel : treeHeight o < fuel) :
    SameView fuel tree tree s s.nextCall := by
  have h' : HoldsTree s.nextCall.words tree.root o := h
  refine ⟨rfl, fun key => ?_, ?_⟩
  · rw [h.search hfuel, h'.search hfuel, Option.map_some, Option.map_some]
  · rw [h.traverse hfuel, h'.traverse hfuel, Option.map_some, Option.map_some]

/-- The two ways to -1, for a new key. -/
theorem root_of_run_neg (hsearch : (btreeSearch fuel tree key).run s = some (0, s))
    (hrun : (btreeInsert fuel tree key value).run s = some ((-1, tree'), s')) :
    (tree.root = 0 ∨ s.words tree.root numKeysWord = btreeMaxKeys) ∧ s.fresh s.calls = 0 := by
  by_cases h0 : tree.root = 0
  · refine ⟨.inl h0, ?_⟩
    by_contra hq
    obtain ⟨w', hrun', -⟩ := run_btreeInsert_empty hsearch h0 hq value
    cases hrun.symm.trans hrun'
  simp only [btreeInsert, StateT.run_bind, hsearch, if_neg h0, Option.bind_eq_bind,
    Option.bind_some, ne_eq, not_true_eq_false, if_false, run_numKeys h0] at hrun
  by_cases hfull : s.words tree.root numKeysWord = btreeMaxKeys
  · refine ⟨.inr hfull, ?_⟩
    by_contra hq
    simp only [hfull, if_true, StateT.run_bind, run_btreeNodeCreate 0 hq, Option.bind_eq_bind,
      Option.bind_some, if_neg hq] at hrun
    -- After the new root, the result is 0.
    obtain ⟨_, -, hrun⟩ := Option.bind_eq_some_iff.1 hrun
    obtain ⟨_, -, hrun⟩ := Option.bind_eq_some_iff.1 hrun
    obtain ⟨_, -, hrun⟩ := Option.bind_eq_some_iff.1 hrun
    obtain ⟨_, -, hrun⟩ := Option.bind_eq_some_iff.1 hrun
    cases hrun
  · simp only [if_neg hfull, StateT.run_bind, Option.bind_eq_bind] at hrun
    obtain ⟨_, -, hrun⟩ := Option.bind_eq_some_iff.1 hrun
    cases hrun

/-- With a full root, a node is asked for the split too. -/
theorem calls_of_full_root (hsearch : (btreeSearch fuel tree key).run s = some (0, s))
    (h0 : tree.root ≠ 0) (hfull : s.words tree.root numKeysWord = btreeMaxKeys)
    (hq : s.fresh s.calls ≠ 0) {r : ℤ}
    (hrun : (btreeInsert fuel tree key value).run s = some ((r, tree'), s')) :
    s.calls + 2 ≤ s'.calls := by
  have htail : CallsGrow 1 (do
      setAt .children (s.fresh s.calls) 0 tree.root
      setParent tree.root (s.fresh s.calls)
      btreeSplitChild (s.fresh s.calls) 0 tree.root
      btreeInsertNonFull fuel (s.fresh s.calls) key value
      return ((0 : ℤ), Btree.mk (s.fresh s.calls) (tree.height + 1) (tree.numNodes + 1))) :=
    (callsGrow_setAt _ _ _ _).bind fun _ => (callsGrow_storeWord _ _ _).bind fun _ =>
      (callsGrow_btreeSplitChild _ _ _).andThen fun _ =>
      (callsGrow_btreeInsertNonFull _ _ _ _).bind fun _ => .pure _
  refine htail (s.nextCall.setNode (s.fresh s.calls) (blankNode 0 (s.words (s.fresh s.calls))))
    (r, tree') s' ?_
  rw [← hrun]
  simp only [btreeInsert, StateT.run_bind, hsearch, if_neg h0, Option.bind_eq_bind,
    Option.bind_some, ne_eq, not_true_eq_false, if_false, run_numKeys h0, hfull, if_true,
    run_btreeNodeCreate 0 hq, if_neg hq]

/-- With a full node on the way, there is a pattern of failures for which the insertion does not
    report them: the split of a full root fails, or everything if the root is not full. -/
theorem exists_not_atomic {m : ℕ → ℕ → ℕ} {t : MultiTree ℕ ℕ ℕ .tree}
    (h : HoldsTree m tree.root (some t)) (hnew : ∀ e ∈ t.toList, e.1 ≠ key)
    (hroom : ¬ t.Room btreeMaxKeys key) (hfuel : t.height < fuel) (value : ℕ) :
    ∃ s : BtreeMem, s.words = m ∧ NewNodes s (some t) ∧ ¬ InsertAtomic fuel tree s key value := by
  have hsearch : ∀ s : BtreeMem, s.words = m → (btreeSearch fuel tree key).run s = some (0, s) :=
    fun s hs => HoldsTree.search_eq_zero (o := some t) (by rwa [hs]) hnew hfuel
  have hasks := fun s' => asksOk ⟨m, fun _ => 0, 0, true⟩ key value t h.2.1 tree.root 0 fuel s' h.1
    hroom
  have hp : tree.root ≠ 0 := (hasks ⟨m, fun _ => 0, 0, true⟩).1
  by_cases hfull : m tree.root numKeysWord = btreeMaxKeys
  · obtain ⟨q, hq⟩ := Infinite.exists_notMem_finset (insert 0 t.names.toFinset)
    rw [Finset.mem_insert, not_or, List.mem_toFinset] at hq
    refine ⟨⟨m, fun n => if n = 0 then q else 0, 0, true⟩, rfl, fun n hn hne => ?_, ?_⟩
    · obtain rfl : n = 0 := by
        by_contra h0
        exact hne (if_neg h0)
      refine ⟨hq.2, fun k hk heq => ?_⟩
      by_contra h0
      have hzero : 0 = q := (if_neg h0).symm.trans heq
      exact hq.1 hzero.symm
    · rintro ⟨r, tree', s', hrun, hatomic⟩
      have hcalls := calls_of_full_root (hsearch _ rfl) hp hfull (by simpa using hq.1) hrun
      obtain ⟨rfl, -⟩ :=
        hatomic ⟨1, Nat.zero_le 1, Nat.lt_of_lt_of_le (Nat.lt_succ_self 1) hcalls, rfl⟩
      exact hq.1 (by simpa using (root_of_run_neg (hsearch _ rfl) hrun).2)
  · refine ⟨⟨m, fun _ => 0, 0, true⟩, rfl, fun n hn hne => absurd rfl hne, ?_⟩
    rintro ⟨r, tree', s', hrun, hatomic⟩
    have hcalls : 0 < s'.calls := by
      simp only [btreeInsert, StateT.run_bind, hsearch ⟨m, fun _ => 0, 0, true⟩ rfl, if_neg hp,
        Option.bind_eq_bind, Option.bind_some, ne_eq, not_true_eq_false, if_false, run_numKeys hp,
        if_neg hfull] at hrun
      obtain ⟨⟨_, s₁⟩, hrun₁, hrun⟩ := Option.bind_eq_some_iff.1 hrun
      cases hrun
      exact (hasks s₁).2 hfull hrun₁
    obtain ⟨rfl, -⟩ := hatomic ⟨0, le_rfl, hcalls, rfl⟩
    exact (root_of_run_neg (hsearch _ rfl) hrun).1.elim hp hfull

/-- A new key for an ordered tree, whose nodes are within capacity.

    The insertion returns -1, and leaves the tree as it was, exactly if the tree is empty or its
    root is full, and the first node is not allocated. Whatever allocations fail, they leave the
    tree as it was and are reported, exactly if the tree is empty or no node on the way to the leaf
    for the key is full: then there is nothing to split. -/
theorem btreeInsert_atomic_iff {m : ℕ → ℕ → ℕ} (h : HoldsTree m tree.root o)
    (hnew : ∀ e ∈ treeList o, e.1 ≠ key) (value : ℕ) : ∃ n, ∀ fuel ≥ n,
    (∀ s : BtreeMem, s.words = m → (Refuses fuel tree s key value ↔
      (tree.root = 0 ∨ m tree.root numKeysWord = btreeMaxKeys) ∧ s.fresh s.calls = 0)) ∧
    ((∀ s : BtreeMem, s.words = m → NewNodes s o → InsertAtomic fuel tree s key value) ↔
      treeRoom key o) := by
  refine ⟨treeHeight o + 1, fun fuel hfuel => ⟨?_, ?_, fun hroom => ?_⟩⟩
  · rintro s rfl
    have hsearch := h.search_eq_zero hnew hfuel
    constructor
    · rintro ⟨tree', s', hrun, -⟩
      exact root_of_run_neg hsearch hrun
    · rintro ⟨hroot, hq⟩
      exact ⟨tree, s.nextCall, run_btreeInsert_null hsearch hroot hq value, h.sameView hfuel⟩
  · intro hall
    cases o with
    | none => trivial
    | some t =>
      by_contra hroom
      obtain ⟨s, hs, hs', hnot⟩ := exists_not_atomic h hnew hroom hfuel value
      exact hnot (hall s hs hs')
  · rintro s rfl -
    cases o with
    | none =>
      have hsearch := h.search_eq_zero hnew hfuel
      by_cases hq : s.fresh s.calls = 0
      · exact ⟨-1, tree, s.nextCall, run_btreeInsert_null hsearch (.inl h) hq value,
          fun _ => ⟨rfl, h.sameView hfuel⟩⟩
      · obtain ⟨w', hrun, -⟩ := run_btreeInsert_empty hsearch h hq value
        refine ⟨0, _, _, hrun, ?_⟩
        rintro ⟨n, hn, hn', hfail⟩
        obtain rfl : n = s.calls := le_antisymm (Nat.lt_succ_iff.1 hn') hn
        exact absurd hfail hq
    | some t =>
      obtain ⟨m, hrun, -⟩ := h.run_insert hnew hroom hfuel value
      refine ⟨0, _, _, hrun, ?_⟩
      rintro ⟨n, hn, hn', -⟩
      exact absurd hn' (not_lt.2 hn)

/-- The insertion asks for a root: there is no entry for the key, and the tree is empty or its root
    is full. -/
def AsksRoot (m : ℕ → ℕ → ℕ) (tree : Btree) (o : Option (MultiTree ℕ ℕ ℕ .tree)) (key : ℕ) : Prop :=
  (∀ e ∈ treeList o, e.1 ≠ key) ∧ (tree.root = 0 ∨ m tree.root numKeysWord = btreeMaxKeys)

instance (m : ℕ → ℕ → ℕ) (tree : Btree) (o : Option (MultiTree ℕ ℕ ℕ .tree)) (key : ℕ) :
    Decidable (AsksRoot m tree o key) := inferInstanceAs (Decidable (_ ∧ _))

/-- The key has its entry after the insertion: it is there already, or no node on the way to the
    leaf for it is full and an empty tree gets a root, `q`. -/
def Enters (q : ℕ) (tree : Btree) (o : Option (MultiTree ℕ ℕ ℕ .tree)) (key : ℕ) : Prop :=
  (∃ e ∈ treeList o, e.1 = key) ∨ treeRoom key o ∧ (tree.root = 0 → q ≠ 0)

/-- The insertion comes to a split: there is no entry for the key, but a full node on the way to the
    leaf for it, and if that is the root, there is a new root `q`. -/
def Splits (q : ℕ) (m : ℕ → ℕ → ℕ) (tree : Btree) (o : Option (MultiTree ℕ ℕ ℕ .tree))
    (key : ℕ) : Prop :=
  (∀ e ∈ treeList o, e.1 ≠ key) ∧ ¬treeRoom key o ∧ (m tree.root numKeysWord = btreeMaxKeys → q ≠ 0)

/-- What an insertion without a split comes to. -/
theorem HoldsTree.insert_cases (h : HoldsTree s.words tree.root o)
    (hval : ∀ e ∈ treeList o, e.1 = key → e.2 = value) (hvalue : value ≠ 0)
    (hfuel : treeHeight o < fuel) (hsplit : ¬Splits (s.fresh s.calls) s.words tree o key) :
    ∃ r tree' s' o', (btreeInsert fuel tree key value).run s = some ((r, tree'), s') ∧
      HoldsTree s'.words tree'.root o' ∧ Inserted key value s s' o o' ∧
      s'.calls = s.calls + (if AsksRoot s.words tree o key then 1 else 0) ∧
      ((key, value) ∈ treeList o' ↔ Enters (s.fresh s.calls) tree o key) := by
  by_cases hkey : ∃ e ∈ treeList o, e.1 = key
  · obtain ⟨e, he, rfl⟩ := hkey
    obtain rfl := hval e he rfl
    have hfound : (btreeSearch fuel tree e.1).run s = some (e.2, s) := by
      rw [h.search hfuel, lookup_of_mem h.pairwise he, Option.getD_some]
    refine ⟨-1, tree, s, o, run_btreeInsert_of_found hfound hvalue, h,
      .refl hval rfl rfl le_rfl, ?_, iff_of_true he (.inl ⟨e, he, rfl⟩)⟩
    rw [if_neg fun hasks => hasks.1 e he rfl]
    rfl
  have hnew : ∀ e ∈ treeList o, e.1 ≠ key := fun e he heq => hkey ⟨e, he, heq⟩
  rw [Enters, or_iff_right hkey]
  by_cases hroom : treeRoom key o
  · obtain ⟨r, tree', s', o', hrun, hholds, hins, hcalls, hmem⟩ := h.insert hnew hroom hfuel value
    have hasks : AsksRoot s.words tree o key ↔ tree.root = 0 :=
      ⟨fun ha => by_contra fun h0 => h.not_full hroom h0 (ha.2.resolve_left h0),
        fun h0 => ⟨hnew, .inl h0⟩⟩
    refine ⟨r, tree', s', o', hrun, hholds, hins, ?_, hmem.trans (and_iff_right hroom).symm⟩
    simp only [hcalls, hasks]
  · -- The root is full, and there is no new one.
    have hnull : s.words tree.root numKeysWord = btreeMaxKeys ∧ s.fresh s.calls = 0 := by
      rw [Splits, not_and, not_and] at hsplit
      simpa using hsplit hnew hroom
    have hrun := run_btreeInsert_null (h.search_eq_zero hnew hfuel) (.inr hnull.1) hnull.2 value
    refine ⟨-1, tree, s.nextCall, o, hrun, h, .refl hval rfl rfl (Nat.le_succ _), ?_,
      iff_of_false (fun he => hnew _ he rfl) fun he => hroom he.1⟩
    rw [if_pos ⟨hnew, .inr hnull.1⟩]
    rfl

/-- A root with one key, between a full leaf and one with a key. -/
def fullLeaf : MultiTree ℕ ℕ ℕ .tree :=
  node 16 (cons (leaf 32 [(1, 11), (2, 12), (3, 13), (4, 14)]) 10 100 (last (leaf 48 [(20, 21)])))

/-- The nodes of `fullLeaf`. There is no memory for another one. -/
def fullLeafMem : BtreeMem where
  words p := fun i => (if p = 16 then [1, 10, 0, 0, 0, 100, 0, 0, 0, 32, 48]
    else if p = 32 then [4, 1, 2, 3, 4, 11, 12, 13, 14, 0, 0, 0, 0, 0, 16, 1]
    else if p = 48 then [1, 20, 0, 0, 0, 21, 0, 0, 0, 0, 0, 0, 0, 0, 16, 1] else []).getD i 0
  fresh _ := 0
  calls := 0
  inBounds := true

theorem fullLeafMem_holdsTree : HoldsTree fullLeafMem.words 16 (some fullLeaf) := by
  refine ⟨⟨rfl, by decide, by simp [fullLeafMem, width], by simp [width], rfl, rfl, rfl, ?_, ?_⟩,
    ?_, ?_⟩
  · refine ⟨rfl, by decide, rfl, by decide, by decide, fun i e he => ?_⟩
    have hi : i < 4 := (List.getElem?_eq_some_iff.1 he).1
    interval_cases i <;> cases he <;> exact ⟨rfl, rfl⟩
  · refine ⟨rfl, by decide, rfl, by decide, by decide, fun i e he => ?_⟩
    have hi : i < 1 := (List.getElem?_eq_some_iff.1 he).1
    interval_cases i
    cases he
    exact ⟨rfl, rfl⟩
  · show List.Pairwise _ [(1, 11), (2, 12), (3, 13), (4, 14), (10, 100), (20, 21)]
    simp
  · show [16, 32, 48].Nodup
    decide

/-- The key 15 belongs in the leaf that is not full. -/
theorem btreeInsert_atomic_iff_room :
    HoldsTree fullLeafMem.words (Btree.mk 16 2 6).root (some fullLeaf) ∧
    (∀ e ∈ treeList (some fullLeaf), e.1 ≠ 15) ∧ treeRoom 15 (some fullLeaf) ∧
    ∃ n, ∀ fuel ≥ n, ∀ s : BtreeMem, s.words = fullLeafMem.words → NewNodes s (some fullLeaf) →
      InsertAtomic fuel ⟨16, 2, 6⟩ s 15 150 := by
  have hnew : ∀ e ∈ treeList (some fullLeaf), e.1 ≠ 15 := by decide
  have hroom : treeRoom 15 (some fullLeaf) := by simp [treeRoom, fullLeaf, Room, width]
  obtain ⟨n, h⟩ := btreeInsert_atomic_iff (show HoldsTree fullLeafMem.words
    (Btree.mk 16 2 6).root (some fullLeaf) from fullLeafMem_holdsTree) hnew 150
  exact ⟨fullLeafMem_holdsTree, hnew, hroom, n, fun fuel hfuel => (h fuel hfuel).2.2 hroom⟩

/-- The key 5 belongs in the full leaf. The leaf is not split, for want of memory, and the key is
    stored past the end of the keys: the insertion returns 0, and the value of the key 1 is 5. -/
theorem btreeInsert_not_atomic_full :
    HoldsTree fullLeafMem.words (Btree.mk 16 2 6).root (some fullLeaf) ∧
    (∀ e ∈ treeList (some fullLeaf), e.1 ≠ 5) ∧ NewNodes fullLeafMem (some fullLeaf) ∧
    (∃ s', (btreeInsert 3 ⟨16, 2, 6⟩ 5 50).run fullLeafMem = some ((0, ⟨16, 2, 7⟩), s') ∧
      s'.calls = 1 ∧ s'.fresh 0 = 0 ∧
      ((btreeSearch 3 ⟨16, 2, 6⟩ 1).run fullLeafMem).map Prod.fst = some 11 ∧
      ((btreeSearch 3 ⟨16, 2, 7⟩ 1).run s').map Prod.fst = some 5) ∧
    ¬ InsertAtomic 3 ⟨16, 2, 6⟩ fullLeafMem 5 50 := by
  obtain ⟨s₁, hrun₁, hcalls⟩ : ∃ s', (btreeInsert 3 ⟨16, 2, 6⟩ 5 50).run fullLeafMem =
      some ((0, ⟨16, 2, 7⟩), s') ∧ s'.calls = 1 := ⟨_, rfl, rfl⟩
  refine ⟨fullLeafMem_holdsTree, by decide, fun n hn hne => absurd rfl hne,
    ⟨_, rfl, rfl, rfl, rfl, rfl⟩, ?_⟩
  rintro ⟨r, tree', s', hrun, hatomic⟩
  cases hrun₁.symm.trans hrun
  exact absurd (hatomic ⟨0, le_rfl, hcalls ▸ Nat.one_pos, rfl⟩).1 (by decide)

end Atomic

end Fru1tOs
