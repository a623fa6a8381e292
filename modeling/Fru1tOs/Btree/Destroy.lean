import Fru1tOs.Btree.Delete
import Fru1tOs.Heap.Coalesce

/-!
# Destroying a B-tree

`btree_destroy` gives the nodes of a tree back to the heap, the children of a node before the node
itself. Here the nodes are blocks of the heap of `kernel.c`, and the memory is the one that `kfree`
changes. Reading or freeing a node that is not in use has no result, so that a result says that
this never happens. A tree of any shape is destroyed so: each node is freed once, and all other
blocks stay in use with what is in them (`btree_destroy_frees`).
-/

namespace Fru1tOs

open Lib

/-- `sizeof(struct btree_node)`. -/
abbrev btreeNodeSize : ℕ := 4 * (isLeafWord + 1)

/-- The word `i` of the node at `p`, which has to be in use. -/
def readWord (s : HeapRun) (p i : ℕ) : Option ℕ :=
  if p ∈ s.live then some (load32 s.heap.mem (p + 4 * i)) else none

/-- `kfree` of a node, which has to be in use. -/
def kfreeNode (s : HeapRun) (p : ℕ) : Option HeapRun :=
  if p ∈ s.live then s.call (.kfree p) else none

/-- A pass of the loop of `destroy_recursive`. -/
def destroyPass (destroy : HeapRun → ℕ → Option HeapRun) (node : ℕ) :
    ℕ × HeapRun → Option (Pass (ℕ × HeapRun) HeapRun)
  | (i, s) => do
    if i ≤ (← readWord s node numKeysWord) then
      let s ← destroy s (← readWord s node (NodeArray.children.base + i))
      return .next (i + 1, s)
    else return .done s

/-- `destroy_recursive`. -/
def destroyRecursive : ℕ → HeapRun → ℕ → Option HeapRun
  | 0, _, _ => none
  | fuel + 1, s, node =>
    if node = 0 then some s
    else do
      let s ← if (← readWord s node isLeafWord) = 0 then
          loop (destroyPass (destroyRecursive fuel) node) (btreeOrder + 1) (0, s)
        else some s
      kfreeNode s node

/-- `btree_destroy`. -/
def btreeDestroy (fuel : ℕ) (s : HeapRun) (tree : Btree) : Option (Btree × HeapRun) := do
  let s ← destroyRecursive fuel s tree.root
  return (⟨0, 0, 0⟩, s)

/-! ## Nodes in the heap -/

/-- The words of the nodes in the memory. -/
def nodeWords (m : Mem) (p i : ℕ) : ℕ := if i ≤ isLeafWord then load32 m (p + 4 * i) else 0

section Nodes

variable {m m' : Mem} {p n i : ℕ}

theorem nodeWords_of_le (hi : i ≤ isLeafWord) : nodeWords m p i = load32 m (p + 4 * i) := if_pos hi

/-- The words of a node depend on its payload only. -/
theorem nodeWords_congr (hn : btreeNodeSize ≤ n) (hm : ∀ x, p ≤ x → x < p + n → m' x = m x) :
    nodeWords m' p = nodeWords m p := by
  funext i
  rw [nodeWords, nodeWords]
  split_ifs with hi
  · simp only [btreeNodeSize] at hn
    exact load32_congr fun x hx hx' => hm x (by omega) (by omega)
  · rfl

end Nodes

/-- What is destroyed is not in use any more, and the other blocks are as they were. -/
structure Destroys (L : HeapLayout) (s : HeapRun) (bs : List Block) (names : List ℕ) (s' : HeapRun)
    (bs' : List Block) : Prop where
  inv : HeapInv L s' bs'
  used : ∀ u, u ∈ usedAt L.heap bs' ↔ u ∈ usedAt L.heap bs ∧ u.1 ∉ names
  keeps : Keeps L (usedAt L.heap bs') s.heap.mem s'.heap.mem

namespace Destroys

variable {L : HeapLayout} {s s' s'' : HeapRun} {bs bs' bs'' : List Block} {names names' : List ℕ}
  {p : ℕ}

theorem nil (h : HeapInv L s bs) : Destroys L s bs [] s bs where
  inv := h
  used u := by simp
  keeps _ _ := rfl

theorem trans (h : Destroys L s bs names s' bs') (h' : Destroys L s' bs' names' s'' bs'') :
    Destroys L s bs (names ++ names') s'' bs'' where
  inv := h'.inv
  used u := by
    rw [h'.used, h.used, List.mem_append, not_or, and_assoc]
  keeps x hx := by
    refine (h'.keeps x hx).trans (h.keeps x ?_)
    rcases hx with hx | hx | ⟨u, hu, hx⟩
    · exact .inl hx
    · exact .inr (.inl hx)
    · exact .inr (.inr ⟨u, ((h'.used u).1 hu).1, hx⟩)

theorem of_perm (h : Destroys L s bs names s' bs') (hp : names.Perm names') :
    Destroys L s bs names' s' bs' where
  inv := h.inv
  used u := by rw [h.used, hp.mem_iff]
  keeps := h.keeps

/-- What is in use afterwards. -/
theorem mem_live (h : Destroys L s bs names s' bs') (hinv : HeapInv L s bs) :
    p ∈ s'.live ↔ p ∈ s.live ∧ p ∉ names := by
  rw [← h.inv.mem_used, ← hinv.mem_used, List.mem_map, List.mem_map]
  constructor
  · rintro ⟨u, hu, rfl⟩
    obtain ⟨hu, hn⟩ := (h.used u).1 hu
    exact ⟨⟨u, hu, rfl⟩, hn⟩
  · rintro ⟨⟨u, hu, rfl⟩, hn⟩
    exact ⟨u, (h.used u).2 ⟨hu, hn⟩, rfl⟩

/-- A node that is freed. -/
theorem kfreeNode (hinv : HeapInv L s bs) (hp : p ∈ s.live) :
    ∃ s' bs', Fru1tOs.kfreeNode s p = some s' ∧ Destroys L s bs [p] s' bs' := by
  obtain ⟨heap, bs', hk, h', hused, hkeeps, -, -⟩ := hinv.kfree hp
  refine ⟨_, bs', ?_, h', fun u => ?_, hkeeps⟩
  · rw [Fru1tOs.kfreeNode, if_pos hp, HeapRun.call, if_pos (.inr hp), hk]
    rfl
  · rw [hused, List.mem_singleton]

end Destroys

/-- The nodes are in use, in blocks that are large enough. -/
def Allocated (L : HeapLayout) (bs : List Block) (names : List ℕ) : Prop :=
  ∀ p ∈ names, ∃ n, btreeNodeSize ≤ n ∧ (p, n) ∈ usedAt L.heap bs

section Destroy

variable {L : HeapLayout} {s s' : HeapRun} {bs bs' : List Block} {names names' : List ℕ} {p i : ℕ}

theorem Allocated.mem_live (h : Allocated L bs names) (hinv : HeapInv L s bs) (hp : p ∈ names) :
    p ∈ s.live := by
  obtain ⟨n, -, hn⟩ := h p hp
  exact hinv.mem_used.1 (List.mem_map_of_mem hn)

/-- The nodes that are not destroyed stay. -/
theorem Destroys.allocated (h : Destroys L s bs names s' bs') (ha : Allocated L bs names')
    (hdisj : ∀ q ∈ names', q ∉ names) : Allocated L bs' names' := fun q hq => by
  obtain ⟨n, hn, hu⟩ := ha q hq
  exact ⟨n, hn, (h.used _).2 ⟨hu, hdisj q hq⟩⟩

/-- The words of a node that is in use are as they were. -/
theorem Destroys.nodeWords (h : Destroys L s bs names s' bs') (ha : Allocated L bs' names')
    (hp : p ∈ names') : nodeWords s'.heap.mem p = nodeWords s.heap.mem p := by
  obtain ⟨n, hn, hu⟩ := ha p hp
  exact nodeWords_congr hn fun x hx hx' => h.keeps x (.inr (.inr ⟨_, hu, hx, hx'⟩))

theorem readWord_eq (hp : p ∈ s.live) (hi : i ≤ isLeafWord) :
    readWord s p i = some (nodeWords s.heap.mem p i) := by
  rw [readWord, if_pos hp, nodeWords_of_le hi]

/-! ## Trees in the heap -/

/-- A child is destroyed. -/
theorem destroyPass_next {destroy : HeapRun → ℕ → Option HeapRun} (hp : p ∈ s.live)
    (hi : i ≤ nodeWords s.heap.mem p numKeysWord) (hmax : i ≤ btreeMaxKeys)
    (hdestroy : destroy s (nodeWords s.heap.mem p (NodeArray.children.base + i)) = some s') :
    destroyPass destroy p (i, s) = some (.next (i + 1, s')) := by
  have hchild : NodeArray.children.base + i ≤ isLeafWord := by
    simp only [NodeArray.base, btreeMaxKeys, btreeOrder, isLeafWord, parentWord] at hmax ⊢
    omega
  rw [destroyPass, readWord_eq hp (Nat.zero_le _), readWord_eq hp hchild]
  simp only [Option.bind_eq_bind, Option.bind_some, if_pos hi, hdestroy, Option.pure_def]

/-- All children are destroyed. -/
theorem destroyPass_done {destroy : HeapRun → ℕ → Option HeapRun} (hp : p ∈ s.live)
    (hi : nodeWords s.heap.mem p numKeysWord < i) :
    destroyPass destroy p (i, s) = some (.done s) := by
  rw [destroyPass, readWord_eq hp (Nat.zero_le _)]
  simp only [Option.bind_eq_bind, Option.bind_some, if_neg (not_le.2 hi), Option.pure_def]

open MultiTree in
/-- The recursion destroys a tree, and the loop the children of a node from the first index of the
    row on. -/
def DestroyOk (L : HeapLayout) : {b : Kind} → MultiTree ℕ ℕ ℕ b → Prop
  | .tree, t => ∀ fuel s bs p j, Stored (nodeWords s.heap.mem) p j t → t.names.Nodup →
      t.height ≤ fuel → HeapInv L s bs → Allocated L bs t.names →
      ∃ s' bs', destroyRecursive fuel s p = some s' ∧ Destroys L s bs t.names s' bs'
  | .row, r => ∀ fuel s bs p j n, Stored (nodeWords s.heap.mem) p j r → r.names.Nodup →
      p ∉ r.names → r.height ≤ fuel → HeapInv L s bs → Allocated L bs (p :: r.names) →
      nodeWords s.heap.mem p numKeysWord = j + r.width → j + r.width ≤ btreeMaxKeys →
      r.width + 1 < n → ∃ s' bs',
        loop (destroyPass (destroyRecursive fuel) p) n (j, s) = some s' ∧
          Destroys L s bs r.names s' bs'

theorem destroyOk_leaf (q : ℕ) (es : List (ℕ × ℕ)) : DestroyOk L (.leaf q es) := by
  rintro (_ | fuel) s bs p j ⟨rfl, hp0, -, -, hleaf, -⟩ - hfuel hinv ha
  · exact absurd hfuel (by rw [MultiTree.height]; omega)
  have hp : q ∈ s.live := ha.mem_live hinv (List.mem_singleton_self q)
  obtain ⟨s', bs', hfree, h'⟩ := Destroys.kfreeNode hinv hp
  refine ⟨s', bs', ?_, h'⟩
  rw [destroyRecursive, if_neg hp0, readWord_eq hp le_rfl]
  simp only [Option.bind_eq_bind, Option.bind_some, if_neg hleaf, hfree]

/-- The node is still there when its children are not. -/
theorem destroyOk_node {r : MultiTree ℕ ℕ ℕ .row} (q : ℕ) (hr : DestroyOk L r) :
    DestroyOk L (.node q r) := by
  rintro (_ | fuel) s bs p j ⟨rfl, hp0, hnum, hwidth, hleaf, hstored⟩ hnodup hfuel hinv ha
  · exact absurd hfuel (by rw [MultiTree.height]; omega)
  rw [MultiTree.names] at hnodup ha
  obtain ⟨hq, hnodup⟩ := List.nodup_cons.1 hnodup
  have hp : q ∈ s.live := ha.mem_live hinv List.mem_cons_self
  obtain ⟨s₁, bs₁, hloop, h₁⟩ := hr fuel s bs q 0 (btreeOrder + 1) hstored hnodup hq
    (Nat.le_of_succ_le_succ hfuel) hinv ha (by rw [hnum, Nat.zero_add])
    (by rwa [Nat.zero_add]) (by simp only [btreeMaxKeys, btreeOrder] at hwidth ⊢; omega)
  have hp₁ : q ∈ s₁.live := (h₁.mem_live hinv).2 ⟨hp, hq⟩
  obtain ⟨s', bs', hfree, h'⟩ := Destroys.kfreeNode h₁.inv hp₁
  refine ⟨s', bs', ?_, (h₁.trans h').of_perm (List.perm_append_singleton _ _)⟩
  rw [destroyRecursive, if_neg hp0, readWord_eq hp le_rfl]
  simp only [Option.bind_eq_bind, Option.bind_some, if_pos hleaf, hloop, hfree]

theorem destroyOk_last {t : MultiTree ℕ ℕ ℕ .tree} (ht : DestroyOk L t) :
    DestroyOk L (.last t) := by
  intro fuel s bs p j n hr hnodup hp hfuel hinv ha hnum hmax hn
  obtain ⟨n, rfl⟩ : ∃ k, n = k + 2 := ⟨n - 2, by rw [MultiTree.width] at hn; omega⟩
  rw [MultiTree.width, Nat.add_zero] at hnum hmax
  rw [MultiTree.names] at hnodup hp ha ⊢
  have hlive : p ∈ s.live := ha.mem_live hinv List.mem_cons_self
  obtain ⟨s₁, bs₁, hdestroy, h₁⟩ := ht fuel s bs _ 0 hr hnodup hfuel hinv
    fun q hq => ha q (List.mem_cons_of_mem _ hq)
  have ha₁ : Allocated L bs₁ [p] := h₁.allocated
    (fun q hq => ha q (List.mem_singleton.1 hq ▸ List.mem_cons_self))
    fun q hq => List.mem_singleton.1 hq ▸ hp
  have hwords := h₁.nodeWords ha₁ (List.mem_singleton_self p)
  refine ⟨s₁, bs₁, ?_, h₁⟩
  rw [loop_next (destroyPass_next hlive hnum.ge hmax hdestroy)]
  refine loop_done (destroyPass_done (ha₁.mem_live h₁.inv (List.mem_singleton_self p)) ?_)
  rw [hwords, hnum]
  exact Nat.lt_succ_self j

/-- The node and the other children are as they were when the first child is not. -/
theorem destroyOk_cons {t : MultiTree ℕ ℕ ℕ .tree} {r : MultiTree ℕ ℕ ℕ .row} (k v : ℕ)
    (ht : DestroyOk L t) (hr : DestroyOk L r) : DestroyOk L (.cons t k v r) := by
  rintro fuel s bs p j n ⟨-, -, htree, hrow⟩ hnodup hp hfuel hinv ha hnum hmax hn
  obtain ⟨n, rfl⟩ : ∃ k, n = k + 1 := ⟨n - 1, by omega⟩
  rw [MultiTree.width] at hnum hmax hn
  rw [MultiTree.height] at hfuel
  rw [MultiTree.names] at hnodup hp ha ⊢
  obtain ⟨hnt, hnr, hdisj⟩ := List.nodup_append'.1 hnodup
  rw [List.mem_append, not_or] at hp
  have hlive : p ∈ s.live := ha.mem_live hinv List.mem_cons_self
  obtain ⟨s₁, bs₁, hdestroy, h₁⟩ := ht fuel s bs _ 0 htree hnt (le_of_max_le_left hfuel) hinv
    fun q hq => ha q (List.mem_cons_of_mem _ (List.mem_append_left _ hq))
  have ha₁ : Allocated L bs₁ (p :: r.names) := by
    refine h₁.allocated (fun q hq => ha q ?_) fun q hq => ?_
    · exact List.cons_subset_cons p (List.subset_append_right _ _) hq
    · rcases List.mem_cons.1 hq with rfl | hq
      · exact hp.1
      · exact fun hqt => hdisj hqt hq
  have hwords : ∀ q ∈ p :: r.names,
      nodeWords s₁.heap.mem q = nodeWords s.heap.mem q := fun q hq => h₁.nodeWords ha₁ hq
  have hrow₁ : Stored (nodeWords s₁.heap.mem) p (j + 1) r :=
    hrow.congr (hwords p List.mem_cons_self) fun q hq => hwords q (List.mem_cons_of_mem _ hq)
  obtain ⟨s', bs', hloop, h'⟩ := hr fuel s₁ bs₁ p (j + 1) n hrow₁ hnr hp.2
    (le_of_max_le_right hfuel) h₁.inv ha₁
    (by rw [hwords p List.mem_cons_self, hnum]; omega) (by omega) (by omega)
  refine ⟨s', bs', ?_, h₁.trans h'⟩
  rw [loop_next (destroyPass_next hlive (by omega) (by omega) hdestroy), hloop]

/-- The recursion of `btree_destroy`, in a tree of any shape. -/
theorem destroyOk (L : HeapLayout) {b : Kind} (t : MultiTree ℕ ℕ ℕ b) : DestroyOk L t := by
  induction t with
  | leaf q es => exact destroyOk_leaf q es
  | node q r ih => exact destroyOk_node q ih
  | last t ih => exact destroyOk_last ih
  | cons t k v r iht ihr => exact destroyOk_cons k v iht ihr

end Destroy

/-- `struct btree` holds the nodes of a tree of any shape: none when it is empty. -/
def HoldsNodes (m : ℕ → ℕ → ℕ) (root : ℕ) : Option (MultiTree ℕ ℕ ℕ .tree) → Prop
  | none => root = 0
  | some t => Stored m root 0 t ∧ t.names.Nodup

/-- `btree_destroy` frees the nodes of a tree, each once, and reads none that is freed. All other
    blocks stay in use, with what is in them. -/
theorem btree_destroy_frees {L : HeapLayout} {s : HeapRun} {bs : List Block} (hinv : HeapInv L s bs)
    (tree : Btree) {o : Option (MultiTree ℕ ℕ ℕ .tree)}
    (htree : HoldsNodes (nodeWords s.heap.mem) tree.root o)
    (hnodes : ∀ p ∈ treeNames o, p ∈ s.live ∧ btreeNodeSize ≤ s.payload p) {fuel : ℕ}
    (hfuel : treeHeight o < fuel) :
    ∃ s' bs', btreeDestroy fuel s tree = some (btreeInit, s') ∧ HeapInv L s' bs' ∧
      ∀ p, (p ∈ s'.live ↔ p ∈ s.live ∧ p ∉ treeNames o) ∧
        (p ∈ s'.live → s'.payload p = s.payload p ∧
          ∀ x, x < s.payload p → s'.heap.mem (p + x) = s.heap.mem (p + x)) := by
  have ha : Allocated L bs (treeNames o) := fun p hp =>
    ⟨s.payload p, (hnodes p hp).2, hinv.mem_usedAt_of_live (hnodes p hp).1⟩
  obtain ⟨s', bs', hdestroy, h⟩ : ∃ s' bs', destroyRecursive fuel s tree.root = some s' ∧
      Destroys L s bs (treeNames o) s' bs' := by
    cases o with
    | none =>
      obtain ⟨fuel, rfl⟩ : ∃ k, fuel = k + 1 := ⟨fuel - 1, by omega⟩
      exact ⟨s, bs, by rw [destroyRecursive]; exact if_pos htree, .nil hinv⟩
    | some t => exact destroyOk L t fuel s bs _ 0 htree.1 htree.2 hfuel.le hinv ha
  refine ⟨s', bs', by rw [btreeDestroy, hdestroy]; rfl, h.inv, fun p =>
    ⟨h.mem_live hinv, fun hp => ?_⟩⟩
  -- The block of the pointer is the one that it was.
  have hu := h.inv.mem_usedAt_of_live hp
  have hold := hinv.mem_usedAt_of_live ((h.mem_live hinv).1 hp).1
  have hpayload : s'.payload p = s.payload p := congrArg Prod.snd
    (List.inj_on_of_nodup_map (nodup_usedAt L.heap bs) ((h.used _).1 hu).1 hold rfl)
  refine ⟨hpayload, fun x hx => h.keeps _ (.inr (.inr ⟨_, hu, ?_, ?_⟩))⟩
  · exact Nat.le_add_right p x
  · simp only [hpayload]
    omega

/-- The bytes of the word `i` of the node at `p` are written. -/
def writeWord (p i v : ℕ) : List HeapCall :=
  (List.range 4).map fun j => .write p (4 * i + j) (.ofNat (v / 256 ^ j))

/-- The root of a tree, its two leaves, and another block. -/
def plantCalls : List HeapCall :=
  [.kmalloc 64, .kmalloc 64, .kmalloc 64, .kmalloc 8, .write 0x802100f0 0 42] ++
    writeWord 0x8021000c 0 1 ++ writeWord 0x8021000c 1 20 ++ writeWord 0x8021000c 5 2 ++
    writeWord 0x8021000c 9 0x80210058 ++ writeWord 0x8021000c 10 0x802100a4 ++
    writeWord 0x80210058 0 1 ++ writeWord 0x80210058 1 10 ++ writeWord 0x80210058 5 1 ++
    writeWord 0x80210058 14 0x8021000c ++ writeWord 0x80210058 15 1 ++
    writeWord 0x802100a4 0 1 ++ writeWord 0x802100a4 1 30 ++ writeWord 0x802100a4 5 3 ++
    writeWord 0x802100a4 14 0x8021000c ++ writeWord 0x802100a4 15 1

/-- The tree. -/
def plantedTree : MultiTree ℕ ℕ ℕ .tree :=
  .node 0x8021000c (.cons (.leaf 0x80210058 [(10, 1)]) 20 2 (.last (.leaf 0x802100a4 [(30, 3)])))

theorem hasEntries_singleton {w : ℕ → ℕ} {e : ℕ × ℕ} (hk : w 1 = e.1) (hv : w 5 = e.2) :
    HasEntries w [e] := fun i e' he' => by
  obtain ⟨hi, rfl⟩ := List.getElem?_eq_some_iff.1 he'
  obtain rfl : i = 0 := Nat.lt_one_iff.1 hi
  exact ⟨hk, hv⟩

theorem names_planted : plantedTree.names = [0x8021000c, 0x80210058, 0x802100a4] := by
  simp only [plantedTree, MultiTree.names, List.cons_append, List.nil_append]

/-- The three nodes are in the heap, and in use. -/
theorem exists_planted : ∃ s bs,
    run HeapRun.call (HeapRun.init default ⟨fun _ => 0, 0⟩) plantCalls = some s ∧
      HeapInv default s bs ∧ s.live = [0x802100f0, 0x802100a4, 0x80210058, 0x8021000c] ∧
      (∀ p ∈ s.live, p ≠ 0x802100f0 → s.payload p = btreeNodeSize) ∧ s.payload 0x802100f0 = 8 ∧
      s.heap.mem 0x802100f0 = 42 ∧
      HoldsNodes (nodeWords s.heap.mem) 0x8021000c (some plantedTree) := by
  obtain ⟨s, hs, hinv⟩ := heapInv_run default ⟨fun _ => 0, 0⟩ plantCalls
  have hlive : (run HeapRun.call (HeapRun.init default ⟨fun _ => 0, 0⟩) plantCalls).all fun s =>
      s.live = [0x802100f0, 0x802100a4, 0x80210058, 0x8021000c] ∧
        (∀ p ∈ s.live, p ≠ 0x802100f0 → s.payload p = btreeNodeSize) ∧
        s.payload 0x802100f0 = 8 ∧ s.heap.mem 0x802100f0 = 42 := by
    decide +kernel
  have hroot : (run HeapRun.call (HeapRun.init default ⟨fun _ => 0, 0⟩) plantCalls).all fun s =>
      [0, 1, 5, 9, 10, 15].map (nodeWords s.heap.mem 0x8021000c) =
        [1, 20, 2, 0x80210058, 0x802100a4, 0] := by
    decide +kernel
  have hleaves : (run HeapRun.call (HeapRun.init default ⟨fun _ => 0, 0⟩) plantCalls).all fun s =>
      [0, 1, 5, 15].map (nodeWords s.heap.mem 0x80210058) = [1, 10, 1, 1] ∧
        [0, 1, 5, 15].map (nodeWords s.heap.mem 0x802100a4) = [1, 30, 3, 1] := by
    decide +kernel
  rw [hs, Option.all_some, decide_eq_true_iff] at hlive hroot hleaves
  obtain ⟨hlive, hsize, hother, hbyte⟩ := hlive
  simp only [List.map_cons, List.map_nil, List.cons.injEq, and_true] at hroot hleaves
  obtain ⟨hn, hk, hv, hc₁, hc₂, hl⟩ := hroot
  obtain ⟨⟨hn₁, hk₁, hv₁, hl₁⟩, hn₂, hk₂, hv₂, hl₂⟩ := hleaves
  refine ⟨s, _, hs, hinv, hlive, hsize, hother, hbyte,
    ⟨rfl, by decide, ?_, ?_, hl, hk, hv, ?_, ?_⟩, ?_⟩
  · rw [MultiTree.width, MultiTree.width]
    exact hn
  · rw [MultiTree.width, MultiTree.width]
    decide
  · rw [base_children, hc₁]
    exact ⟨rfl, by decide, hn₁, by decide, hl₁.trans_ne (by decide), hasEntries_singleton hk₁ hv₁⟩
  · rw [Stored, base_children, hc₂]
    exact ⟨rfl, by decide, hn₂, by decide, hl₂.trans_ne (by decide), hasEntries_singleton hk₂ hv₂⟩
  · rw [names_planted]
    decide

/-- The nodes are freed, and the other block stays, with what is in it. -/
theorem btree_destroy_frees_planted : ∃ s s',
    run HeapRun.call (HeapRun.init default ⟨fun _ => 0, 0⟩) plantCalls = some s ∧
      btreeDestroy 3 s ⟨0x8021000c, 2, 3⟩ = some (btreeInit, s') ∧
      (∀ q, q ∈ s'.live ↔ q = 0x802100f0) ∧ s'.heap.mem 0x802100f0 = 42 := by
  obtain ⟨s, bs, hs, hinv, hlive, hsize, hother, hbyte, htree⟩ := exists_planted
  have hnames : treeNames (some plantedTree) = [0x8021000c, 0x80210058, 0x802100a4] :=
    names_planted
  have hheight : treeHeight (some plantedTree) = 2 := by
    simp only [treeHeight, plantedTree, MultiTree.height]
    decide
  have hnodes : ∀ p ∈ treeNames (some plantedTree), p ∈ s.live ∧ btreeNodeSize ≤ s.payload p := by
    intro p hp
    have hmem : p ∈ s.live ∧ p ≠ 0x802100f0 := by
      rw [hlive]
      rw [hnames] at hp
      revert p
      decide
    exact ⟨hmem.1, (hsize p hmem.1 hmem.2).ge⟩
  obtain ⟨s', bs', hdestroy, -, h⟩ :=
    btree_destroy_frees hinv ⟨0x8021000c, 2, 3⟩ htree hnodes (hheight ▸ Nat.lt_succ_self 2)
  have hlive' : ∀ q, q ∈ s'.live ↔ q = 0x802100f0 := fun q => by
    rw [(h q).1, hlive, hnames]
    simp only [List.mem_cons, List.not_mem_nil, or_false]
    omega
  obtain ⟨-, hkept⟩ := (h 0x802100f0).2 ((hlive' _).2 rfl)
  exact ⟨s, s', hs, hdestroy, hlive', (hkept 0 (by rw [hother]; decide)).trans hbyte⟩

end Fru1tOs
