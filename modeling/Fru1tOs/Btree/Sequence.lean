import Fru1tOs.Btree.Delete

/-!
# Search and deletion against the traversal

`btree_traverse` reports the entries of the tree. In an ordered tree of any shape, whose leaves
may have few entries or none, `btree_search` finds what is in that sequence
(`btreeSearch_traverse`), and `btree_delete` of a key in a leaf takes one entry from it
(`btreeDelete_traverse`).
-/

namespace Fru1tOs

open Lib MultiTree

section Sequence

variable {l : List (ℕ × ℕ)} {key value : ℕ}

/-- An ordered sequence without the entry of a key. -/
theorem exists_append_of_filter (hl : l.Pairwise fun e e' => e.1 < e'.1)
    (h : key ∈ l.map Prod.fst) :
    ∃ l₁ v l₂, l = l₁ ++ (key, v) :: l₂ ∧ l.filter (·.1 ≠ key) = l₁ ++ l₂ := by
  obtain ⟨⟨k, v⟩, hmem, rfl⟩ := List.mem_map.1 h
  obtain ⟨l₁, l₂, rfl⟩ := List.append_of_mem hmem
  obtain ⟨-, h₂, h₁⟩ := List.pairwise_append.1 hl
  have hbefore : l₁.filter (·.1 ≠ k) = l₁ := List.filter_eq_self.2 fun e he =>
    decide_eq_true (h₁ e he (k, v) List.mem_cons_self).ne
  have hafter : l₂.filter (·.1 ≠ k) = l₂ := List.filter_eq_self.2 fun e he =>
    decide_eq_true ((List.pairwise_cons.1 h₂).1 e he).ne'
  refine ⟨l₁, v, l₂, rfl, ?_⟩
  rw [List.filter_append, List.filter_cons_of_neg (by simp), hbefore, hafter]

end Sequence

variable {s : BtreeMem} {tree : Btree} {o : Option (MultiTree ℕ ℕ ℕ .tree)}

/-- The keys in the leaves are among those of the tree. -/
theorem mem_treeList_of_leaf {key : ℕ} (h : key ∈ treeLeafKeys o) :
    key ∈ (treeList o).map Prod.fst := by
  cases o with
  | none => exact h
  | some t =>
    obtain ⟨e, he, rfl⟩ := List.mem_map.1 h
    exact List.mem_map_of_mem (mem_toList_of_mem_leafList he)

theorem treeErase_skeleton (key : ℕ) (o : Option (MultiTree ℕ ℕ ℕ .tree)) :
    (treeErase key o).map skeleton = o.map skeleton := by
  cases o with
  | none => rfl
  | some t => exact congrArg some (skeleton_erase t)

/-- A root with one key, between a leaf with one key and an empty one. -/
def smallTree : MultiTree ℕ ℕ ℕ .tree :=
  node 16 (cons (leaf 32 [(3, 30)]) 7 70 (last (leaf 48 [])))

/-- The nodes of `smallTree`. -/
def smallMem : BtreeMem where
  words p := fun i => (if p = 16 then [1, 7, 0, 0, 0, 70, 0, 0, 0, 32, 48]
    else if p = 32 then [1, 3, 0, 0, 0, 30, 0, 0, 0, 0, 0, 0, 0, 0, 16, 1]
    else if p = 48 then [0, 0, 0, 0, 0, 0, 0, 0, 0, 0, 0, 0, 0, 0, 16, 1] else []).getD i 0
  fresh _ := 0
  calls := 0
  inBounds := true

theorem smallMem_holdsTree : HoldsTree smallMem.words 16 (some smallTree) := by
  refine ⟨⟨rfl, by decide, by simp [smallMem, width], by simp [width], rfl, rfl, rfl, ?_, ?_⟩, ?_,
    ?_⟩
  · refine ⟨rfl, by decide, rfl, by decide, by decide, fun i e he => ?_⟩
    obtain ⟨rfl, rfl⟩ : i = 0 ∧ e = (3, 30) := by
      rcases i with _ | i
      · exact ⟨rfl, (Option.some.inj he).symm⟩
      · cases he
    exact ⟨rfl, rfl⟩
  · refine ⟨rfl, by decide, rfl, by decide, by decide, fun i e he => ?_⟩
    cases he
  · show List.Pairwise _ [(3, 30), (7, 70)]
    simp
  · show [16, 32, 48].Nodup
    decide

/-- `btree_search` in an ordered tree returns the value next to the key in the sequence that
    `btree_traverse` reports, and `NULL` for a key that is not in it. -/
theorem btreeSearch_traverse (h : HoldsTree s.words tree.root o) :
    ∃ n, ∀ fuel ≥ n, ∃ l, (btreeTraverse fuel tree).run s = some (l, s) ∧
      ∀ key, ∃ r, (btreeSearch fuel tree key).run s = some (r, s) ∧
        (∀ value, (key, value) ∈ l → r = value) ∧ (key ∉ l.map Prod.fst → r = 0) := by
  refine ⟨treeHeight o + 1, fun fuel hfuel => ⟨treeList o, h.traverse hfuel, fun key =>
    ⟨_, h.search hfuel key, fun value hmem => ?_, fun hnot => ?_⟩⟩⟩
  · rw [lookup_of_mem h.pairwise hmem, Option.getD_some]
  · rw [lookup_eq_none fun e he heq => hnot (List.mem_map.2 ⟨e, he, heq⟩), Option.getD_none]

theorem btreeSearch_traverse_small :
    HoldsTree smallMem.words (Btree.mk 16 2 2).root (some smallTree) ∧
    ∃ n, ∀ fuel ≥ n, ∃ l, (btreeTraverse fuel ⟨16, 2, 2⟩).run smallMem = some (l, smallMem) ∧
      ∀ key, ∃ r, (btreeSearch fuel ⟨16, 2, 2⟩ key).run smallMem = some (r, smallMem) ∧
        (∀ value, (key, value) ∈ l → r = value) ∧ (key ∉ l.map Prod.fst → r = 0) :=
  ⟨smallMem_holdsTree, btreeSearch_traverse (show HoldsTree smallMem.words
    (Btree.mk 16 2 2).root (some smallTree) from smallMem_holdsTree)⟩

/-- `btree_delete` in an ordered tree. A key in a leaf is removed: the sequence that
    `btree_traverse` reports loses its entry, and `num_nodes` is one less. With a key that is in an
    inner node, or absent, nothing changes. The inner nodes stay, the tree is ordered, and the
    other keys are found as before. -/
theorem btreeDelete_traverse (h : HoldsTree s.words tree.root o) (key : ℕ) :
    ∃ n, ∀ fuel ≥ n, ∃ l r tree' m l' o',
      (btreeTraverse fuel tree).run s = some (l, s) ∧
      (btreeDelete fuel tree key).run s = some ((r, tree'), s.withWords m) ∧
      (btreeTraverse fuel tree').run (s.withWords m) = some (l', s.withWords m) ∧
      (key ∈ treeLeafKeys o → r = 0 ∧ tree' = { tree with numNodes := tree.numNodes - 1 } ∧
        ∃ l₁ v l₂, l = l₁ ++ (key, v) :: l₂ ∧ l' = l₁ ++ l₂) ∧
      (key ∉ treeLeafKeys o → r = -1 ∧ tree' = tree ∧ m = s.words) ∧
      (key ∉ l.map Prod.fst → r = -1 ∧ tree' = tree ∧ m = s.words) ∧
      HoldsTree m tree'.root o' ∧ o'.map skeleton = o.map skeleton ∧
      ∀ k ≠ key, ∃ v, (btreeSearch fuel tree k).run s = some (v, s) ∧
        (btreeSearch fuel tree' k).run (s.withWords m) = some (v, s.withWords m) := by
  refine ⟨treeHeight o + 1, fun fuel hfuel => ?_⟩
  have htraverse := h.traverse hfuel
  obtain ⟨m, hrun, hholds, -, hsame⟩ := h.delete_eq hfuel key
  have hheight : treeHeight (treeErase key o) < fuel := by rwa [treeHeight_erase]
  by_cases hmem : key ∈ treeLeafKeys o
  · rw [if_pos hmem] at hrun
    have hlist := treeList_erase h hmem
    -- The memory after the deletion, as that of the new `struct btree`.
    have hafter : HoldsTree (s.withWords m).words
        { tree with numNodes := tree.numNodes - 1 : Btree }.root (treeErase key o) := hholds
    refine ⟨_, _, _, m, _, _, htraverse, hrun, hafter.traverse hheight, fun _ => ⟨rfl, rfl, ?_⟩,
      fun hnot => absurd hmem hnot, fun hnot => absurd (mem_treeList_of_leaf hmem) hnot, hholds,
      treeErase_skeleton key o, fun k hk => ⟨_, h.search hfuel k, ?_⟩⟩
    · rw [hlist]
      exact exists_append_of_filter h.pairwise (mem_treeList_of_leaf hmem)
    · rw [hafter.search hheight, hlist, lookup_filter_of_ne hk]
  · rw [if_neg hmem] at hrun
    obtain rfl := hsame hmem
    exact ⟨_, _, _, _, _, o, htraverse, hrun, htraverse, fun hmem' => absurd hmem' hmem,
      fun _ => ⟨rfl, rfl, rfl⟩, fun _ => ⟨rfl, rfl, rfl⟩, h, rfl, fun k _ => ⟨_, h.search hfuel k,
        h.search hfuel k⟩⟩

/-- The leaf that loses its only key stays, and the key of the root is found as before. -/
theorem btreeDelete_traverse_small :
    HoldsTree smallMem.words (Btree.mk 16 2 2).root (some smallTree) ∧
    3 ∈ treeLeafKeys (some smallTree) ∧ ∃ n, ∀ fuel ≥ n, ∃ m o',
      (btreeDelete fuel ⟨16, 2, 2⟩ 3).run smallMem = some ((0, ⟨16, 2, 1⟩), smallMem.withWords m) ∧
      HoldsTree m 16 o' ∧ o'.map skeleton = some smallTree.skeleton := by
  refine ⟨smallMem_holdsTree, by decide, ?_⟩
  obtain ⟨n, h⟩ := btreeDelete_traverse (show HoldsTree smallMem.words
    (Btree.mk 16 2 2).root (some smallTree) from smallMem_holdsTree) 3
  refine ⟨n, fun fuel hfuel => ?_⟩
  obtain ⟨l, r, tree', m, l', o', -, hrun, -, hleaf, -, -, hholds, hskel, -⟩ := h fuel hfuel
  obtain ⟨rfl, rfl, -⟩ := hleaf (by decide)
  exact ⟨m, o', hrun, hholds, hskel⟩

end Fru1tOs
