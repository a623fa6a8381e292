import Fru1tOs.Btree.Insert

/-!
# Runs of insertions

Sequences of `btree_insert` from the empty tree, every allocation succeeding. With at
most four distinct keys the tree is one leaf, which holds what was inserted (`OneLeaf`). The
fifth one splits the leaf, and the tree is wrong from then on.

* `inserts_right_iff`: all insertions are right, as seen by their result, search and
  traversal, iff there are at most four distinct keys.
* `tree_shaped_iff`: the same for the accesses to the arrays being in bounds, and the shape
  of the tree.
-/

namespace Fru1tOs

open Lib MultiTree

/-! ## What insertions should do -/

/-- A call of `btree_insert` with the key and the value of `c`. -/
def insertStep (fuel : ℕ) (s : Btree × BtreeMem) (c : ℕ × ℕ) : Option (ℤ × Btree × BtreeMem) :=
  ((btreeInsert fuel s.1 c.1 c.2).run s.2).map fun r => (r.1.1, r.1.2, r.2)

/-- A sequence of calls of `btree_insert`. -/
def insertRun (fuel : ℕ) (s : Btree × BtreeMem) (calls : List (ℕ × ℕ)) :
    Option (Btree × BtreeMem) :=
  run (fun s c => (insertStep fuel s c).map Prod.snd) s calls

/-- An empty tree, in any memory. -/
def emptyTree (words : ℕ → ℕ → ℕ) (fresh : ℕ → ℕ) : Btree × BtreeMem :=
  (btreeInit, ⟨words, fresh, 0, true⟩)

/-- The call `c` after `calls` does what it should: the result tells whether the key is new, if
    it is not then nothing changes, and search and traversal find the first value inserted
    for each key. -/
structure InsertRight (fuel : ℕ) (calls : List (ℕ × ℕ)) (s : Btree × BtreeMem) (c : ℕ × ℕ) (r : ℤ)
    (s' : Btree × BtreeMem) : Prop where
  code : r = if c.1 ∈ calls.map Prod.fst then -1 else 0
  unchanged : c.1 ∈ calls.map Prod.fst → s' = s
  search : ∀ k, (btreeSearch fuel s'.1 k).run s'.2 =
    some (((calls ++ [c]).lookup k).getD 0, s'.2)
  traverse : ∃ l, (btreeTraverse fuel s'.1).run s'.2 = some (l, s'.2) ∧
    (l.Pairwise fun e e' => e.1 < e'.1) ∧ ∀ e, e ∈ l ↔ (calls ++ [c]).lookup e.1 = some e.2

/-- All calls do what they should. -/
def InsertsRight (fuel : ℕ) (s₀ : Btree × BtreeMem) (calls : List (ℕ × ℕ)) : Prop :=
  ∀ pre c, pre ++ [c] <+: calls → ∃ s r s', insertRun fuel s₀ pre = some s ∧
    insertStep fuel s c = some (r, s') ∧ InsertRight fuel pre s c r s'

/-- The parent pointers are right, `par` being the one above. -/
def HasParents (m : ℕ → ℕ → ℕ) : {b : Kind} → ℕ → MultiTree ℕ ℕ ℕ b → Prop
  | _, par, leaf p _ => m p parentWord = par
  | _, par, node p r => m p parentWord = par ∧ HasParents m p r
  | _, par, last t => HasParents m par t
  | _, par, cons t _ _ r => HasParents m par t ∧ HasParents m par r

/-- All accesses to the arrays were in bounds, the tree is empty or a finite tree of distinct
    nodes within capacity, with right parent pointers and all leaves at the depth `height`,
    and search and traversal end, with accesses in bounds. -/
structure TreeShaped (fuel : ℕ) (s : Btree × BtreeMem) : Prop where
  inBounds : s.2.inBounds = true
  shape : (s.1.root = 0 ∧ s.1.height = 0) ∨ ∃ t : MultiTree ℕ ℕ ℕ .tree,
    Stored s.2.words s.1.root 0 t ∧ t.names.Nodup ∧ HasParents s.2.words 0 t ∧
      ∃ n : ℕ, s.1.height = n ∧ t.Level n
  search : ∀ k, ∃ v, (btreeSearch fuel s.1 k).run s.2 = some (v, s.2)
  traverse : ∃ l, (btreeTraverse fuel s.1).run s.2 = some (l, s.2)

/-! ## Entries -/

section Entries

variable {l es : List (ℕ × ℕ)} {k v : ℕ}

theorem mem_keys_iff_lookup : k ∈ l.map Prod.fst ↔ ∃ v, l.lookup k = some v := by
  rw [← Option.isSome_iff_exists, Option.isSome_iff_ne_none, ne_eq, List.lookup_eq_none_iff]
  simp

/-- In a list with one entry for each key, the entry of a key is found. -/
theorem lookup_eq_some_iff_mem (h : l.Pairwise fun e e' => e.1 < e'.1) :
    l.lookup k = some v ↔ (k, v) ∈ l := by
  induction l with
  | nil => simp
  | cons e l ih =>
    obtain ⟨he, hl⟩ := List.pairwise_cons.1 h
    rw [List.lookup_cons, List.mem_cons]
    by_cases hk : k = e.1
    · subst hk
      have hnot : (e.1, v) ∉ l := fun hmem => (he (e.1, v) hmem).ne rfl
      simp [hnot, Prod.ext_iff, eq_comm]
    · rw [beq_eq_false_iff_ne.2 hk, ih hl]
      simp [Prod.ext_iff, hk]

/-- The entries are those of the calls: the first value for each key, in order. -/
structure EntriesOf (calls es : List (ℕ × ℕ)) : Prop where
  pairwise : es.Pairwise fun e e' => e.1 < e'.1
  mem : ∀ e, e ∈ es ↔ calls.lookup e.1 = some e.2

variable {calls : List (ℕ × ℕ)}

theorem EntriesOf.lookup (h : EntriesOf calls es) (k : ℕ) : es.lookup k = calls.lookup k := by
  ext v
  rw [lookup_eq_some_iff_mem h.pairwise, h.mem]

theorem EntriesOf.mem_keys (h : EntriesOf calls es) :
    k ∈ es.map Prod.fst ↔ k ∈ calls.map Prod.fst := by
  rw [mem_keys_iff_lookup, mem_keys_iff_lookup, h.lookup]

/-- The number of distinct keys. -/
def distinctKeys (calls : List (ℕ × ℕ)) : ℕ := (calls.map Prod.fst).toFinset.card

theorem EntriesOf.length (h : EntriesOf calls es) : es.length = distinctKeys calls := by
  have hnodup : (es.map Prod.fst).Nodup :=
    List.pairwise_map.2 (h.pairwise.imp fun hlt => hlt.ne)
  have hset : (es.map Prod.fst).toFinset = (calls.map Prod.fst).toFinset := by
    ext k
    rw [List.mem_toFinset, List.mem_toFinset, h.mem_keys]
  rw [distinctKeys, ← hset, List.toFinset_card_of_nodup hnodup, List.length_map]

theorem entriesOf_nil : EntriesOf [] [] := ⟨List.Pairwise.nil, by simp⟩

/-- A key that occurred already. -/
theorem EntriesOf.old {c : ℕ × ℕ} (h : EntriesOf calls es) (hc : c.1 ∈ calls.map Prod.fst) :
    EntriesOf (calls ++ [c]) es := by
  obtain ⟨k, v⟩ := c
  refine ⟨h.pairwise, fun e => ?_⟩
  rw [h.mem, List.lookup_append]
  rcases hlook : calls.lookup e.1 with _ | v
  · have hne : e.1 ≠ k := fun heq => by
      obtain ⟨v, hv⟩ := mem_keys_iff_lookup.1 hc
      rw [show (k, v).1 = e.1 from heq.symm, hlook] at hv
      cases hv
    simp [List.lookup_cons, beq_eq_false_iff_ne.2 hne]
  · simp

/-- A new key, put in its place. -/
theorem EntriesOf.insert {c : ℕ × ℕ} {pos : ℕ} (h : EntriesOf calls es)
    (hc : c.1 ∉ calls.map Prod.fst) (hpos : pos ≤ es.length) (habove : ∀ e ∈ es.drop pos, c.1 < e.1)
    (hbelow : ∀ i e, i + 1 = pos → es[i]? = some e → e.1 ≤ c.1) :
    EntriesOf (calls ++ [c]) (es.insertIdx pos c) := by
  have htake : ∀ e ∈ es.take pos, e.1 < c.1 := lt_of_mem_take h.pairwise
    (fun e he heq => hc (heq ▸ h.mem_keys.1 (List.mem_map_of_mem he))) hpos hbelow
  refine ⟨?_, fun e => ?_⟩
  · rw [insertIdx_eq_append hpos, List.pairwise_append, List.pairwise_cons]
    refine ⟨h.pairwise.sublist (List.take_sublist _ _),
      ⟨habove, h.pairwise.sublist (List.drop_sublist _ _)⟩, fun e he e' he' => ?_⟩
    rcases List.mem_cons.1 he' with rfl | he'
    · exact htake e he
    · exact (htake e he).trans (habove e' he')
  · obtain ⟨k, v⟩ := c
    have hnone : calls.lookup k = none := by
      rcases hlook : calls.lookup k with _ | v'
      · rfl
      · exact absurd (mem_keys_iff_lookup.2 ⟨v', hlook⟩) hc
    rw [List.mem_insertIdx hpos, h.mem, List.lookup_append, List.lookup_cons]
    by_cases hk : e.1 = k
    · subst hk
      simp [hnone, Prod.ext_iff, eq_comm]
    · simp [Prod.ext_iff, hk, beq_eq_false_iff_ne.2 hk]

end Entries

/-! ## One leaf -/

/-- The tree after `calls`, as long as it is empty or one leaf with the entries `es`. -/
structure OneLeaf (fresh : ℕ → ℕ) (calls es : List (ℕ × ℕ)) (s : Btree × BtreeMem) : Prop where
  entries : EntriesOf calls es
  allocs : s.2.fresh = fresh
  inBounds : s.2.inBounds = true
  tree : (es = [] ∧ s.1.root = 0 ∧ s.1.height = 0 ∧ s.2.calls = 0) ∨
    (s.1.root = fresh 0 ∧ s.1.height = 1 ∧ s.2.calls = 1 ∧ s.2.words s.1.root parentWord = 0 ∧
      Stored s.2.words s.1.root 0 (leaf s.1.root es))

section OneLeaf

variable {fresh : ℕ → ℕ} {calls es : List (ℕ × ℕ)} {s : Btree × BtreeMem} {c : ℕ × ℕ}

theorem oneLeaf_emptyTree (words : ℕ → ℕ → ℕ) : OneLeaf fresh [] [] (emptyTree words fresh) :=
  ⟨entriesOf_nil, rfl, rfl, .inl ⟨rfl, rfl, rfl, rfl⟩⟩

theorem OneLeaf.search (h : OneLeaf fresh calls es s) (fuel k : ℕ) :
    (btreeSearch (fuel + 1) s.1 k).run s.2 = some ((calls.lookup k).getD 0, s.2) := by
  rw [← h.entries.lookup]
  rcases h.tree with ⟨rfl, hroot, -⟩ | ⟨-, -, -, -, hst⟩
  · rw [btreeSearch, btreeSearchFrom, if_pos hroot]
    rfl
  · exact searchOk s.2 k (leaf s.1.root es) h.entries.pairwise _ _ (fuel + 1) hst
      (by rw [height]; omega)

theorem OneLeaf.traverse (h : OneLeaf fresh calls es s) (fuel : ℕ) :
    (btreeTraverse (fuel + 1) s.1).run s.2 = some (es, s.2) := by
  rcases h.tree with ⟨rfl, hroot, -⟩ | ⟨-, -, -, -, hst⟩
  · rw [btreeTraverse, traverseRecursive, if_pos hroot]
    rfl
  · exact traverseOk s.2 (leaf s.1.root es) _ _ (fuel + 1) hst (by rw [height]; omega)

/-- The search for a key that was not inserted. -/
theorem OneLeaf.search_new (h : OneLeaf fresh calls es s) (hc : c.1 ∉ calls.map Prod.fst)
    (fuel : ℕ) : (btreeSearch (fuel + 1) s.1 c.1).run s.2 = some (0, s.2) := by
  rw [h.search]
  rcases hlook : calls.lookup c.1 with _ | v
  · rfl
  · exact absurd (mem_keys_iff_lookup.2 ⟨v, hlook⟩) hc

/-- A key that was inserted already. -/
theorem OneLeaf.old (h : OneLeaf fresh calls es s) (hvalues : ∀ e ∈ calls, e.2 ≠ 0)
    (hc : c.1 ∈ calls.map Prod.fst) (fuel : ℕ) :
    insertStep (fuel + 1) s c = some (-1, s) ∧ OneLeaf fresh (calls ++ [c]) es s := by
  refine ⟨?_, h.entries.old hc, h.allocs, h.inBounds, h.tree⟩
  obtain ⟨v, hv⟩ := mem_keys_iff_lookup.1 hc
  have hmem : (c.1, v) ∈ calls := by
    obtain ⟨l₁, l₂, hl, -⟩ := List.lookup_eq_some_iff.1 hv
    rw [hl]
    exact List.mem_append_right _ List.mem_cons_self
  have hsearch := h.search fuel c.1
  rw [hv] at hsearch
  rw [insertStep, run_btreeInsert_of_found hsearch (hvalues _ hmem)]
  rfl

/-- A new key, among the first four. -/
theorem OneLeaf.new (h : OneLeaf fresh calls es s) (hfresh : fresh 0 ≠ 0)
    (hc : c.1 ∉ calls.map Prod.fst) (hlt : es.length < btreeMaxKeys) (fuel : ℕ) :
    ∃ s' es', insertStep (fuel + 1) s c = some (0, s') ∧ OneLeaf fresh (calls ++ [c]) es' s' := by
  have hsearch := h.search_new hc fuel
  rcases h.tree with ⟨rfl, hroot, hheight, hcalls⟩ | ⟨hroot, hheight, hcalls, hpar, hst⟩
  · have hq : s.2.fresh s.2.calls = fresh 0 := by rw [hcalls, h.allocs]
    obtain ⟨w', hrun, hpar, hst⟩ :=
      run_btreeInsert_empty hsearch hroot (by rwa [hq]) c.2
    rw [hq] at hrun hst
    refine ⟨(⟨fresh 0, 1, 1⟩, s.2.nextCall.setNode (fresh 0) w'), [c],
      by rw [insertStep, hrun]; rfl, ?_, h.allocs, h.inBounds,
      .inr ⟨rfl, rfl, congrArg (· + 1) hcalls, ?_, hst⟩⟩
    · exact h.entries.insert hc (Nat.zero_le _) (fun e he => absurd he (by simp))
        fun i e hi => absurd hi (by omega)
    · exact (congrFun (BtreeMem.words_setNode_self ..) _).trans hpar
  · obtain ⟨pos, w', hrun, hpos, habove, hbelow, hpar', hst'⟩ :=
      run_btreeInsert_leaf hsearch hst hlt c.2
    refine ⟨({ s.1 with numNodes := s.1.numNodes + 1 }, s.2.setNode s.1.root w'), _,
      by rw [insertStep, hrun]; rfl, h.entries.insert hc hpos habove hbelow, h.allocs,
      h.inBounds, .inr ⟨hroot, hheight, hcalls, ?_, hst'⟩⟩
    exact (congrFun (BtreeMem.words_setNode_self ..) _).trans (hpar'.trans hpar)

/-- The fifth key. -/
theorem OneLeaf.fifth (h : OneLeaf fresh calls es s) (hfresh : ∀ n, fresh n ≠ 0)
    (hinj : Function.Injective fresh) (hc : c.1 ∉ calls.map Prod.fst)
    (hlen : es.length = btreeMaxKeys) (fuel : ℕ) :
    ∃ s', insertStep (fuel + 2) s c = some (0, s') ∧ s'.2.inBounds = false ∧
      ∃ l, (btreeTraverse (fuel + 2) s'.1).run s'.2 = some (l, s'.2) ∧ l.length = 6 := by
  have hsearch := h.search_new hc (fuel + 1)
  rcases h.tree with ⟨rfl, -⟩ | ⟨hroot, -, hcalls, -, hst⟩
  · exact absurd hlen (by decide)
  · obtain ⟨tree', s', t, hrun, hbounds, hst', hheight, hlength⟩ :=
      run_btreeInsert_full hsearch hst hlen (h.allocs ▸ hfresh) (h.allocs ▸ hinj)
        (fun n hn heq => by
          rw [hroot, h.allocs] at heq
          have := hinj heq
          omega) c.2
    exact ⟨(tree', s'), by rw [insertStep, hrun]; rfl, hbounds, t.toList,
      traverseOk s' t _ _ (fuel + 2) hst' (by omega), hlength⟩

end OneLeaf

/-! ## Runs -/

section Runs

variable {fresh : ℕ → ℕ} {calls : List (ℕ × ℕ)}

theorem distinctKeys_mono {pre : List (ℕ × ℕ)} (h : pre <+: calls) :
    distinctKeys pre ≤ distinctKeys calls := by
  refine Finset.card_le_card fun k hk => ?_
  rw [List.mem_toFinset] at hk ⊢
  exact (h.sublist.map Prod.fst).subset hk

theorem distinctKeys_append {c : ℕ × ℕ} (hc : c.1 ∉ calls.map Prod.fst) :
    distinctKeys (calls ++ [c]) = distinctKeys calls + 1 := by
  have hset : ((calls ++ [c]).map Prod.fst).toFinset =
      Insert.insert c.1 (calls.map Prod.fst).toFinset := by
    ext k
    simp
  rw [distinctKeys, hset, Finset.card_insert_of_notMem (by rwa [List.mem_toFinset]), distinctKeys]

theorem distinctKeys_append_old {c : ℕ × ℕ} (hc : c.1 ∈ calls.map Prod.fst) :
    distinctKeys (calls ++ [c]) = distinctKeys calls := by
  refine congrArg Finset.card ?_
  ext k
  rw [List.mem_toFinset, List.mem_toFinset, List.map_append, List.mem_append]
  refine ⟨fun h => h.elim id fun h => ?_, .inl⟩
  rw [List.map_singleton, List.mem_singleton] at h
  exact h ▸ hc

/-- When there are more than four distinct keys, one of the calls has the fifth. -/
theorem exists_fifth (h : btreeMaxKeys < distinctKeys calls) :
    ∃ pre c, pre ++ [c] <+: calls ∧ c.1 ∉ pre.map Prod.fst ∧ distinctKeys pre = btreeMaxKeys := by
  induction calls using List.reverseRecOn with
  | nil => exact absurd h (by decide)
  | append_singleton calls c ih =>
    by_cases hlt : btreeMaxKeys < distinctKeys calls
    · obtain ⟨pre, c', hpre, hrest⟩ := ih hlt
      exact ⟨pre, c', hpre.trans (List.prefix_append _ _), hrest⟩
    · have hc : c.1 ∉ calls.map Prod.fst := fun hc => hlt (distinctKeys_append_old hc ▸ h)
      rw [distinctKeys_append hc] at h
      exact ⟨calls, c, List.prefix_rfl, hc, by omega⟩

/-- With at most four distinct keys the tree stays one leaf. -/
theorem insertRun_oneLeaf (words : ℕ → ℕ → ℕ) (hfresh : ∀ n, fresh n ≠ 0)
    (hvalues : ∀ e ∈ calls, e.2 ≠ 0) (hle : distinctKeys calls ≤ btreeMaxKeys) (fuel : ℕ) :
    ∃ s es, insertRun (fuel + 1) (emptyTree words fresh) calls = some s ∧
      OneLeaf fresh calls es s := by
  induction calls using List.reverseRecOn with
  | nil => exact ⟨_, [], rfl, oneLeaf_emptyTree words⟩
  | append_singleton calls c ih =>
    obtain ⟨s, es, hrun, h⟩ := ih (fun e he => hvalues e (List.mem_append_left _ he))
      ((distinctKeys_mono (List.prefix_append _ _)).trans hle)
    have hcalls : ∀ e ∈ calls, e.2 ≠ 0 := fun e he => hvalues e (List.mem_append_left _ he)
    rw [insertRun] at hrun
    rw [insertRun, run_concat, hrun, Option.bind_some]
    by_cases hc : c.1 ∈ calls.map Prod.fst
    · obtain ⟨hstep, h'⟩ := h.old hcalls hc fuel
      exact ⟨s, es, by rw [hstep]; rfl, h'⟩
    · have hlt : es.length < btreeMaxKeys := by
        rw [h.entries.length]
        rw [distinctKeys_append hc] at hle
        omega
      obtain ⟨s', es', hstep, h'⟩ := h.new (hfresh 0) hc hlt fuel
      exact ⟨s', es', by rw [hstep]; rfl, h'⟩

/-- At the fifth key, accesses go out of bounds, and there is an entry too many. -/
theorem exists_wrong (words : ℕ → ℕ → ℕ) (hfresh : ∀ n, fresh n ≠ 0)
    (hinj : Function.Injective fresh) (hvalues : ∀ e ∈ calls, e.2 ≠ 0)
    (h : btreeMaxKeys < distinctKeys calls) (fuel : ℕ) :
    ∃ pre c s s', pre ++ [c] <+: calls ∧
      insertRun (fuel + 2) (emptyTree words fresh) pre = some s ∧
      insertStep (fuel + 2) s c = some (0, s') ∧ s'.2.inBounds = false ∧
      distinctKeys (pre ++ [c]) = 5 ∧
      ∃ l, (btreeTraverse (fuel + 2) s'.1).run s'.2 = some (l, s'.2) ∧ l.length = 6 := by
  obtain ⟨pre, c, hpre, hc, hcard⟩ := exists_fifth h
  have hpre' : pre <+: calls := (List.prefix_append _ _).trans hpre
  obtain ⟨s, es, hrun, hs⟩ := insertRun_oneLeaf words hfresh
    (fun e he => hvalues e (hpre'.subset he)) hcard.le (fuel + 1)
  obtain ⟨s', hstep, hbounds, hl⟩ := hs.fifth hfresh hinj hc (hs.entries.length.trans hcard) fuel
  exact ⟨pre, c, s, s', hpre, hrun, hstep, hbounds, by rw [distinctKeys_append hc, hcard]; rfl, hl⟩

/-- The entries of the calls are as many as the distinct keys. -/
theorem InsertRight.length {fuel : ℕ} {s s' : Btree × BtreeMem} {c : ℕ × ℕ} {r : ℤ}
    (h : InsertRight fuel calls s c r s') : ∃ l, (btreeTraverse fuel s'.1).run s'.2 =
      some (l, s'.2) ∧ l.length = distinctKeys (calls ++ [c]) := by
  obtain ⟨l, hl, hpairwise, hmem⟩ := h.traverse
  exact ⟨l, hl, EntriesOf.length ⟨hpairwise, hmem⟩⟩

theorem insertsRight_of_le (words : ℕ → ℕ → ℕ) (hfresh : ∀ n, fresh n ≠ 0)
    (hvalues : ∀ e ∈ calls, e.2 ≠ 0) (hle : distinctKeys calls ≤ btreeMaxKeys) (fuel : ℕ) :
    InsertsRight (fuel + 1) (emptyTree words fresh) calls := by
  intro pre c hpre
  have hle' := (distinctKeys_mono hpre).trans hle
  have hvalues' : ∀ e ∈ pre ++ [c], e.2 ≠ 0 := fun e he => hvalues e (hpre.subset he)
  have hvalues'' : ∀ e ∈ pre, e.2 ≠ 0 := fun e he => hvalues' e (List.mem_append_left _ he)
  obtain ⟨s, es, hrun, h⟩ := insertRun_oneLeaf words hfresh hvalues''
    ((distinctKeys_mono (List.prefix_append _ _)).trans hle') fuel
  by_cases hc : c.1 ∈ pre.map Prod.fst
  · obtain ⟨hstep, h'⟩ := h.old hvalues'' hc fuel
    exact ⟨s, -1, s, hrun, hstep, (if_pos hc).symm, fun _ => rfl, h'.search fuel, es,
      h'.traverse fuel, h'.entries.pairwise, h'.entries.mem⟩
  · have hlt : es.length < btreeMaxKeys := by
      rw [h.entries.length]
      rw [distinctKeys_append hc] at hle'
      omega
    obtain ⟨s', es', hstep, h'⟩ := h.new (hfresh 0) hc hlt fuel
    exact ⟨s, 0, s', hrun, hstep, (if_neg hc).symm, fun hc' => absurd hc' hc, h'.search fuel, es',
      h'.traverse fuel, h'.entries.pairwise, h'.entries.mem⟩

theorem not_insertsRight (words : ℕ → ℕ → ℕ) (hfresh : ∀ n, fresh n ≠ 0)
    (hinj : Function.Injective fresh) (hvalues : ∀ e ∈ calls, e.2 ≠ 0)
    (h : btreeMaxKeys < distinctKeys calls) (fuel : ℕ) :
    ¬InsertsRight (fuel + 2) (emptyTree words fresh) calls := by
  intro hright
  obtain ⟨pre, c, s, s', hpre, hrun, hstep, -, hcard, l, hl, hlen⟩ :=
    exists_wrong words hfresh hinj hvalues h fuel
  obtain ⟨s₁, r, s₁', hrun₁, hstep₁, hok⟩ := hright pre c hpre
  obtain rfl := Option.some.inj (hrun.symm.trans hrun₁)
  obtain ⟨-, rfl⟩ := Prod.mk_inj.1 (Option.some.inj (hstep.symm.trans hstep₁))
  obtain ⟨l', hl', hlen'⟩ := hok.length
  obtain ⟨rfl, -⟩ := Prod.mk_inj.1 (Option.some.inj (hl.symm.trans hl'))
  omega

/-- A tree that is one leaf has the right shape. -/
theorem OneLeaf.treeShaped {es : List (ℕ × ℕ)} {s : Btree × BtreeMem}
    (h : OneLeaf fresh calls es s) (fuel : ℕ) : TreeShaped (fuel + 1) s := by
  refine ⟨h.inBounds, ?_, fun k => ⟨_, h.search fuel k⟩, ⟨_, h.traverse fuel⟩⟩
  rcases h.tree with ⟨-, hroot, hheight, -⟩ | ⟨-, hheight, -, hpar, hst⟩
  · exact .inl ⟨hroot, hheight⟩
  · exact .inr ⟨_, hst, List.nodup_singleton _, hpar, 1, hheight, rfl⟩

/-- Some state on the way is not a tree. -/
theorem not_treeShaped (words : ℕ → ℕ → ℕ) (hfresh : ∀ n, fresh n ≠ 0)
    (hinj : Function.Injective fresh) (hvalues : ∀ e ∈ calls, e.2 ≠ 0)
    (h : btreeMaxKeys < distinctKeys calls) (fuel : ℕ) :
    ¬∀ pre, pre <+: calls → ∃ s, insertRun (fuel + 2) (emptyTree words fresh) pre = some s ∧
      TreeShaped (fuel + 2) s := by
  intro hall
  obtain ⟨pre, c, s, s', hpre, hrun, hstep, hbounds, -⟩ :=
    exists_wrong words hfresh hinj hvalues h fuel
  obtain ⟨s₁, hrun₁, hshaped⟩ := hall _ hpre
  rw [insertRun] at hrun
  rw [insertRun, run_concat, hrun, Option.bind_some, hstep, Option.map_some,
    Option.some_inj] at hrun₁
  subst hrun₁
  exact absurd hshaped.inBounds (by rw [hbounds]; decide)

/-- Addresses that `kmalloc` gives for nodes, one after the other. -/
def nodeAddr (n : ℕ) : ℕ := 4096 + 76 * n

theorem nodeAddr_ne_zero (n : ℕ) : nodeAddr n ≠ 0 := by
  rw [nodeAddr]
  omega

theorem nodeAddr_injective : Function.Injective nodeAddr := fun m n h => by
  rw [nodeAddr, nodeAddr] at h
  omega

/-- Sequences of insertions, every allocation succeeding: they all do what they should iff there
    are at most four distinct keys. -/
theorem inserts_right_iff (words : ℕ → ℕ → ℕ) (hfresh : ∀ n, fresh n ≠ 0)
    (hinj : Function.Injective fresh) (hvalues : ∀ e ∈ calls, e.2 ≠ 0) :
    (∃ n, ∀ fuel ≥ n, InsertsRight fuel (emptyTree words fresh) calls) ↔
      distinctKeys calls ≤ btreeMaxKeys := by
  constructor
  · rintro ⟨n, hright⟩
    by_contra hlt
    exact not_insertsRight words hfresh hinj hvalues (not_le.1 hlt) n (hright (n + 2) (by omega))
  · intro hle
    refine ⟨1, fun fuel hfuel => ?_⟩
    obtain ⟨fuel, rfl⟩ := Nat.exists_eq_add_of_le' hfuel
    exact insertsRight_of_le words hfresh hvalues hle fuel

/-- Four keys. -/
theorem inserts_right_four : ∃ n, ∀ fuel ≥ n,
    InsertsRight fuel (emptyTree (fun _ _ => 0) nodeAddr)
      [(10, 100), (20, 200), (5, 50), (6, 60)] :=
  (inserts_right_iff _ nodeAddr_ne_zero nodeAddr_injective (by decide)).2 (by decide)

/-- Five keys. -/
theorem inserts_wrong_five : ¬∃ n, ∀ fuel ≥ n, InsertsRight fuel
    (emptyTree (fun _ _ => 0) nodeAddr) [(10, 100), (20, 200), (5, 50), (6, 60), (12, 120)] := by
  rintro ⟨n, h⟩
  exact not_insertsRight _ nodeAddr_ne_zero nodeAddr_injective (by decide) (by decide) n
    (h (n + 2) (by omega))

/-- Sequences of insertions, every allocation succeeding: all accesses are in bounds and all
    trees on the way have the right shape iff there are at most four distinct keys. -/
theorem tree_shaped_iff (words : ℕ → ℕ → ℕ) (hfresh : ∀ n, fresh n ≠ 0)
    (hinj : Function.Injective fresh) (hvalues : ∀ e ∈ calls, e.2 ≠ 0) :
    (∃ n, ∀ fuel ≥ n, ∀ pre, pre <+: calls →
      ∃ s, insertRun fuel (emptyTree words fresh) pre = some s ∧ TreeShaped fuel s) ↔
      distinctKeys calls ≤ btreeMaxKeys := by
  constructor
  · rintro ⟨n, hall⟩
    by_contra hlt
    exact not_treeShaped words hfresh hinj hvalues (not_le.1 hlt) n (hall (n + 2) (by omega))
  · intro hle
    refine ⟨1, fun fuel hfuel pre hpre => ?_⟩
    obtain ⟨fuel, rfl⟩ := Nat.exists_eq_add_of_le' hfuel
    obtain ⟨s, es, hrun, h⟩ := insertRun_oneLeaf words hfresh
      (fun e he => hvalues e (hpre.subset he)) ((distinctKeys_mono hpre).trans hle) fuel
    exact ⟨s, hrun, h.treeShaped fuel⟩

/-- Four keys. -/
theorem tree_shaped_four : ∃ n, ∀ fuel ≥ n,
    ∀ pre, pre <+: [(10, 100), (20, 200), (5, 50), (6, 60)] →
      ∃ s, insertRun fuel (emptyTree (fun _ _ => 0) nodeAddr) pre = some s ∧ TreeShaped fuel s :=
  (tree_shaped_iff _ nodeAddr_ne_zero nodeAddr_injective (by decide)).2 (by decide)

/-- Five keys. -/
theorem tree_misshaped_five : ¬∃ n, ∀ fuel ≥ n,
    ∀ pre, pre <+: [(10, 100), (20, 200), (5, 50), (6, 60), (12, 120)] →
      ∃ s, insertRun fuel (emptyTree (fun _ _ => 0) nodeAddr) pre = some s ∧ TreeShaped fuel s := by
  rintro ⟨n, h⟩
  exact not_treeShaped _ nodeAddr_ne_zero nodeAddr_injective (by decide) (by decide) n
    (h (n + 2) (by omega))

end Runs

end Fru1tOs
