import Fru1tOs.Epoll.Basic
import Fru1tOs.Rbtree.Insert
import Fru1tOs.Rbtree.Erase

/-!
# The items of an epoll instance

The tree of an instance represents a red-black tree of items with strictly
ascending descriptors (`ItemsTree`). The two descents of the source, of
`epoll_find_item` and of `epoll_insert_item`, go by comparing descriptors, keeping
the one they look for between what they leave on the left and what they leave on
the right (`Between`): the first finds the item of a descriptor, if there is one
(`epollFindItem_spec`), the second the place of a descriptor that has none
(`epollInsertItem_spec`).
-/

namespace Fru1tOs

open Lib RBTree

/-! ## Writes -/

namespace Epoll

variable (s : Epoll) (i j : EpIndex) (t : RbState ℕ) (n : ℤ) (a : ℕ) (f : EpollItem → EpollItem)

@[simp] theorem setTree_nodes : (s.setTree i t).nodes = t.mem := rfl
@[simp] theorem setTree_items : (s.setTree i t).items = s.items := rfl
@[simp] theorem setTree_live : (s.setTree i t).live = s.live := rfl
@[simp] theorem setTree_fds : (s.setTree i t).fds = s.fds := rfl
@[simp] theorem setTree_same : (s.setTree i t).instances i =
    { s.instances i with itemsTree := t.root } := by simp [setTree]

@[simp] theorem tree_setTree : (s.setTree i t).tree i = t := by simp [tree]

@[simp] theorem setNumItems_nodes : (s.setNumItems i n).nodes = s.nodes := rfl
@[simp] theorem setNumItems_items : (s.setNumItems i n).items = s.items := rfl
@[simp] theorem setNumItems_live : (s.setNumItems i n).live = s.live := rfl
@[simp] theorem setNumItems_fds : (s.setNumItems i n).fds = s.fds := rfl
@[simp] theorem setNumItems_same : (s.setNumItems i n).instances i =
    { s.instances i with numItems := n } := by simp [setNumItems]

@[simp] theorem modifyItem_nodes : (s.modifyItem a f).nodes = s.nodes := rfl
@[simp] theorem modifyItem_live : (s.modifyItem a f).live = s.live := rfl
@[simp] theorem modifyItem_fds : (s.modifyItem a f).fds = s.fds := rfl
@[simp] theorem modifyItem_instances : (s.modifyItem a f).instances = s.instances := rfl
@[simp] theorem modifyItem_same : (s.modifyItem a f).items a = f (s.items a) := by
  simp [modifyItem]

@[simp] theorem kfree_fds : (s.kfree a).fds = s.fds := rfl
@[simp] theorem kfree_live : (s.kfree a).live = s.live.erase a := rfl
@[simp] theorem kfree_instances : (s.kfree a).instances = s.instances := rfl

variable {i j a} {b : ℕ}

theorem setTree_ne (h : j ≠ i) : (s.setTree i t).instances j = s.instances j := by
  simp [setTree, h]

theorem setNumItems_ne (h : j ≠ i) : (s.setNumItems i n).instances j = s.instances j := by
  simp [setNumItems, h]

theorem modifyItem_ne (h : b ≠ a) : (s.modifyItem a f).items b = s.items b := by
  simp [modifyItem, h]

theorem kfree_nodes_ne (h : b ≠ a) : (s.kfree a).nodes b = s.nodes b := by simp [kfree, h]

theorem kfree_items_ne (h : b ≠ a) : (s.kfree a).items b = s.items b := by simp [kfree, h]

end Epoll

/-! ## The tree -/

/-- The tree of the instance `i` represents `t`. -/
structure ItemsTree (s : Epoll) (i : EpIndex) (t : RBTree ℕ) : Prop where
  repr : Represents (s.tree i) t
  rb : t.IsRB
  sorted : t.toList.Pairwise fun a b => (s.items a).fd < (s.items b).fd
  range : ∀ a ∈ t.toList, 0 ≤ (s.items a).fd ∧ (s.items a).fd < maxFds
  numItems : (s.instances i).numItems = t.toList.length

/-- The descriptor lies strictly between those on the left of a path and those on its
    right. -/
def Between (s : Epoll) (fd : ℤ) (p : TreePath ℕ) : Prop :=
  (∀ a ∈ p.before, (s.items a).fd < fd) ∧ ∀ a ∈ p.after, fd < (s.items a).fd

namespace ItemsTree

variable {s s' : Epoll} {i : EpIndex} {t : RBTree ℕ}

/-- There are at most as many items as descriptors. -/
theorem length_le (h : ItemsTree s i t) : t.toList.length ≤ maxFds := by
  have hnd : (t.toList.map fun a => (s.items a).fd).Nodup := by
    refine List.pairwise_map.2 (h.sorted.imp fun hab heq => ?_)
    exact absurd heq hab.ne
  have hsub : (t.toList.map fun a => (s.items a).fd) ⊆ (List.range maxFds).map Int.ofNat := by
    intro fd hfd
    obtain ⟨a, ha, rfl⟩ := List.mem_map.1 hfd
    obtain ⟨h0, hlt⟩ := h.range a ha
    exact List.mem_map.2 ⟨(s.items a).fd.toNat, List.mem_range.2 (by omega), by simpa using h0⟩
  simpa using (List.subperm_of_subset hnd hsub).length_le

/-- A node of the tree goes after its left subtree and before its right one. -/
theorem sorted_node {p : TreePath ℕ} {c : Color} {l r : RBTree ℕ} {e : ℕ}
    (h : ItemsTree s i (plug p (node c l e r))) :
    (∀ a ∈ l.toList, (s.items a).fd < (s.items e).fd) ∧
      ∀ a ∈ r.toList, (s.items e).fd < (s.items a).fd := by
  have hsorted := h.sorted
  rw [toList_plug, List.append_assoc, List.pairwise_append] at hsorted
  obtain ⟨-, hsub, -⟩ := hsorted
  rw [List.pairwise_append, toList_node, List.pairwise_append, List.pairwise_cons] at hsub
  obtain ⟨⟨-, ⟨hr, -⟩, hl⟩, -, -⟩ := hsub
  exact ⟨fun a ha => hl a ha e List.mem_cons_self, hr⟩

/-- The tree depends on its nodes and on the descriptors of its items. -/
theorem congr (h : ItemsTree s i t) (hinst : s'.instances i = s.instances i)
    (hnodes : ∀ a ∈ t.toList, s'.nodes a = s.nodes a)
    (hfd : ∀ a ∈ t.toList, (s'.items a).fd = (s.items a).fd) : ItemsTree s' i t where
  repr := h.repr.congr (by rw [Epoll.tree, hinst]; rfl) hnodes
  rb := h.rb
  sorted := h.sorted.imp_of_mem fun ha hb hab => by rwa [hfd _ ha, hfd _ hb]
  range a ha := by rw [hfd a ha]; exact h.range a ha
  numItems := by rw [hinst]; exact h.numItems

/-- Going down on the left. -/
theorem between_left {p : TreePath ℕ} {c : Color} {l r : RBTree ℕ} {e : ℕ} {fd : ℤ}
    (h : ItemsTree s i (plug p (node c l e r))) (hp : Between s fd p) (hfd : fd < (s.items e).fd) :
    Between s fd (⟨.left, c, e, r⟩ :: p) := by
  refine ⟨by simpa [Frame.before] using hp.1, fun a ha => ?_⟩
  simp only [TreePath.after_cons, Frame.after, List.cons_append, List.mem_cons,
    List.mem_append] at ha
  rcases ha with rfl | ha | ha
  · exact hfd
  · exact hfd.trans (h.sorted_node.2 a ha)
  · exact hp.2 a ha

/-- Going down on the right. -/
theorem between_right {p : TreePath ℕ} {c : Color} {l r : RBTree ℕ} {e : ℕ} {fd : ℤ}
    (h : ItemsTree s i (plug p (node c l e r))) (hp : Between s fd p) (hfd : (s.items e).fd < fd) :
    Between s fd (⟨.right, c, e, l⟩ :: p) := by
  refine ⟨fun a ha => ?_, by simpa [Frame.after] using hp.2⟩
  simp only [TreePath.before_cons, Frame.before, List.mem_append, List.mem_cons,
    List.not_mem_nil, or_false] at ha
  rcases ha with ha | ha | rfl
  · exact hp.1 a ha
  · exact (h.sorted_node.1 a ha).trans hfd
  · exact hfd

end ItemsTree

/-! ## The map -/

/-- What an item says about its descriptor. -/
def EpollItem.event (e : EpollItem) : EpollEvent := ⟨e.events, e.userData⟩

/-- The map of a list of items, from descriptors. -/
def itemsMap (items : ℕ → EpollItem) (l : List ℕ) (fd : ℤ) : Option EpollEvent :=
  (l.find? fun a => (items a).fd = fd).map fun a => (items a).event

section Map

variable {items items' : ℕ → EpollItem} {l l₁ l₂ : List ℕ} {a : ℕ}

theorem itemsMap_eq_none {fd : ℤ} :
    itemsMap items l fd = none ↔ ∀ b ∈ l, (items b).fd ≠ fd := by
  simp [itemsMap]

theorem itemsMap_congr (h : ∀ b ∈ l, (items' b).fd = (items b).fd ∧
    (items' b).event = (items b).event) : itemsMap items' l = itemsMap items l := by
  induction l with
  | nil => rfl
  | cons b l ih =>
    have hb := h b List.mem_cons_self
    have hl := ih fun c hc => h c (List.mem_cons_of_mem _ hc)
    funext fd
    have hfd := congrFun hl fd
    simp only [itemsMap, List.find?_cons, hb.1] at hfd ⊢
    split
    · simp [hb.2]
    · exact hfd

/-- An item in the middle of a list, where it is the only one of its descriptor. -/
theorem itemsMap_middle (h : ∀ b ∈ l₁ ++ l₂, (items b).fd ≠ (items a).fd) :
    itemsMap items (l₁ ++ a :: l₂) =
      Function.update (itemsMap items (l₁ ++ l₂)) (items a).fd (some (items a).event) := by
  funext fd
  by_cases hfd : fd = (items a).fd
  · subst hfd
    have hnone : l₁.find? (fun b => decide ((items b).fd = (items a).fd)) = none :=
      List.find?_eq_none.2 fun b hb => by simpa using h b (List.mem_append_left _ hb)
    rw [Function.update_self, itemsMap, List.find?_append, hnone, Option.none_or,
      List.find?_cons_of_pos (by simp), Option.map_some]
  · rw [Function.update_of_ne hfd, itemsMap, itemsMap, List.find?_append, List.find?_append,
      List.find?_cons_of_neg (by simpa using Ne.symm hfd)]

/-- The descriptor of an item that was taken out has none. -/
theorem itemsMap_erase (h : ∀ b ∈ l₁ ++ l₂, (items b).fd ≠ (items a).fd) :
    itemsMap items (l₁ ++ l₂) =
      Function.update (itemsMap items (l₁ ++ a :: l₂)) (items a).fd none := by
  rw [itemsMap_middle h, Function.update_idem, Function.eq_update_self_iff, itemsMap_eq_none]
  exact h

end Map

/-- In a sorted tree, an item is the only one of its descriptor. -/
theorem ItemsTree.fd_ne {s : Epoll} {i : EpIndex} {t : RBTree ℕ} (h : ItemsTree s i t) {a : ℕ}
    {l₁ l₂ : List ℕ} (hl : t.toList = l₁ ++ a :: l₂) :
    ∀ b ∈ l₁ ++ l₂, (s.items b).fd ≠ (s.items a).fd := by
  have hsorted := h.sorted
  rw [hl, List.pairwise_append, List.pairwise_cons] at hsorted
  obtain ⟨-, ⟨hafter, -⟩, hbefore⟩ := hsorted
  intro b hb
  rcases List.mem_append.1 hb with hb | hb
  · exact (hbefore b hb a List.mem_cons_self).ne
  · exact (hafter b hb).ne'

/-! ## Finding an item -/

section Find

variable {s : Epoll} {i : EpIndex} {t : RBTree ℕ}

/-- A pass of `epoll_find_item` goes down one side, or has found what there is to find. -/
theorem epollFindPass_spec (h : ItemsTree s i t) (fd : ℤ) (k : ℕ) (link : Option ℕ)
    (hst : ∃ (p : TreePath ℕ) (u : RBTree ℕ), plug p u = t ∧ u.height = k ∧ link = u.root ∧
      Between s fd p) :
    (∃ r, epollFindPass s fd link = some (.done r) ∧
      r = t.toList.find? fun a => (s.items a).fd = fd) ∨
    ∃ link' k', epollFindPass s fd link = some (.next link') ∧ k' < k ∧
      ∃ (p : TreePath ℕ) (u : RBTree ℕ), plug p u = t ∧ u.height = k' ∧ link' = u.root ∧
        Between s fd p := by
  obtain ⟨p, u, rfl, rfl, rfl, hp⟩ := hst
  have hbefore : ∀ a ∈ p.before, (s.items a).fd ≠ fd := fun a ha => (hp.1 a ha).ne
  have hafter : ∀ a ∈ p.after, (s.items a).fd ≠ fd := fun a ha => (hp.2 a ha).ne'
  cases u with
  | nil =>
    refine .inl ⟨none, rfl, ?_⟩
    rw [toList_plug, eq_comm, List.find?_eq_none]
    intro a ha
    simp only [toList_nil, List.append_nil, List.mem_append] at ha
    simpa using ha.elim (hbefore a) (hafter a)
  | node c l e r =>
    have hmem : s.nodes e = ⟨p.parent, l.root, r.root, c⟩ := h.repr.subtree.1
    rcases lt_trichotomy fd (s.items e).fd with hlt | heq | hgt
    · refine .inr ⟨l.root, l.height, ?_, ?_, _, l, rfl, rfl, rfl, h.between_left hp hlt⟩
      · simp [epollFindPass, hlt, hmem]
      · simp only [height]
        omega
    · refine .inl ⟨some e, ?_, ?_⟩
      · simp [epollFindPass, heq]
      · have hl : ∀ a ∈ l.toList, (s.items a).fd ≠ fd := fun a ha => by
          rw [heq]
          exact (h.sorted_node.1 a ha).ne
        rw [toList_plug, toList_node, eq_comm, List.find?_eq_some_iff_append]
        refine ⟨by simpa using heq.symm, p.before ++ l.toList, r.toList ++ p.after, by simp, ?_⟩
        intro a ha
        simpa using (List.mem_append.1 ha).elim (hbefore a) (hl a)
    · refine .inr ⟨r.root, r.height, ?_, ?_, _, r, rfl, rfl, rfl, h.between_right hp hgt⟩
      · simp [epollFindPass, hgt, hgt.not_gt, hmem]
      · simp only [height]
        omega

/-- `epoll_find_item` returns the item of the descriptor, if there is one. -/
theorem epollFindItem_spec (h : ItemsTree s i t) (fd : ℤ) :
    epollFindItem s i fd = some (t.toList.find? fun a => (s.items a).fd = fd) := by
  obtain ⟨r, hr, rfl⟩ := loop_of_variant (n := epollFuel) (epollFindPass_spec h fd)
    ⟨[], t, rfl, rfl, h.repr.root, by simp [Between]⟩ (by
      have := t.height_le_length.trans h.length_le
      rw [epollFuel]
      omega)
  exact hr

end Find

/-! ## Inserting an item -/

section Insert

variable {s : Epoll} {i : EpIndex} {t : RBTree ℕ}

/-- A pass of the descent of `epoll_insert_item`, for a descriptor that has no item. -/
theorem epollInsertPass_spec (h : ItemsTree s i t) {fd : ℤ}
    (hfd : ∀ a ∈ t.toList, (s.items a).fd ≠ fd) (k : ℕ) (st : Option ℕ × Option ℕ × Side)
    (hst : ∃ (p : TreePath ℕ) (u : RBTree ℕ), plug p u = t ∧ u.height = k ∧
      st = (u.root, p.parent, TreePath.side p) ∧ Between s fd p) :
    (∃ r, epollInsertPass s fd st = some (.done r) ∧ ∃ p : TreePath ℕ, plug p nil = t ∧
      r = some (p.parent, TreePath.side p) ∧ Between s fd p) ∨
    ∃ st' k', epollInsertPass s fd st = some (.next st') ∧ k' < k ∧
      ∃ (p : TreePath ℕ) (u : RBTree ℕ), plug p u = t ∧ u.height = k' ∧
        st' = (u.root, p.parent, TreePath.side p) ∧ Between s fd p := by
  obtain ⟨p, u, rfl, rfl, rfl, hp⟩ := hst
  cases u with
  | nil => exact .inl ⟨_, rfl, p, rfl, rfl, hp⟩
  | node c l e r =>
    have hmem : s.nodes e = ⟨p.parent, l.root, r.root, c⟩ := h.repr.subtree.1
    rcases lt_trichotomy fd (s.items e).fd with hlt | heq | hgt
    · refine .inr ⟨_, l.height, ?_, ?_, _, l, rfl, rfl, rfl, h.between_left hp hlt⟩
      · simp [epollInsertPass, hlt, hmem, TreePath.side]
      · simp only [height]
        omega
    · exact absurd heq.symm (hfd e (by simp [toList_plug]))
    · refine .inr ⟨_, r.height, ?_, ?_, _, r, rfl, rfl, rfl, h.between_right hp hgt⟩
      · simp [epollInsertPass, hgt, hgt.not_gt, hmem, TreePath.side]
      · simp only [height]
        omega

/-- The descent of `epoll_insert_item` finds the place of a descriptor that has no item. -/
theorem epollInsertDescent_spec (h : ItemsTree s i t) {fd : ℤ}
    (hfd : ∀ a ∈ t.toList, (s.items a).fd ≠ fd) :
    ∃ p : TreePath ℕ, plug p nil = t ∧ Between s fd p ∧
      loop (epollInsertPass s fd) epollFuel ((s.instances i).itemsTree, none, .left) =
        some (some (p.parent, TreePath.side p)) := by
  have hroot : (s.instances i).itemsTree = t.root := h.repr.root
  obtain ⟨r, hr, p, hp, rfl, hbetween⟩ := loop_of_variant (n := epollFuel)
    (epollInsertPass_spec h hfd)
    (s := ((s.instances i).itemsTree, none, .left))
    ⟨[], t, rfl, rfl, by rw [hroot]; rfl, by simp [Between]⟩ (by
      have := t.height_le_length.trans h.length_le
      rw [epollFuel]
      omega)
  exact ⟨p, hp, hbetween, hr⟩

/-- `epoll_insert_item` of an item whose descriptor has none. -/
theorem epollInsertItem_spec (h : ItemsTree s i t) {a : ℕ} (ha : a ∉ t.toList)
    (hrange : 0 ≤ (s.items a).fd ∧ (s.items a).fd < maxFds)
    (hfd : ∀ b ∈ t.toList, (s.items b).fd ≠ (s.items a).fd) :
    ∃ tl t' l₁ l₂, epollInsertItem s i a =
        some (0, (s.setTree i tl).setNumItems i ((s.instances i).numItems + 1)) ∧
      ItemsTree ((s.setTree i tl).setNumItems i ((s.instances i).numItems + 1)) i t' ∧
      t.toList = l₁ ++ l₂ ∧ t'.toList = l₁ ++ a :: l₂ ∧ Untouched t'.toList (s.tree i) tl := by
  obtain ⟨p, rfl, hbetween, hdescent⟩ := epollInsertDescent_spec h hfd
  have hold : (plug p nil : RBTree ℕ).toList = p.before ++ p.after := by simp [toList_plug]
  have hlen : (plug p nil : RBTree ℕ).toList.length < epollFuel :=
    Nat.lt_succ_of_le h.length_le
  obtain ⟨tl, t', htl, hr', hrb', hl', hu⟩ := rbInsert_spec epollFuel h.repr h.rb ha hlen
  rw [← hl'] at hu
  refine ⟨tl, t', p.before, p.after, ?_, ⟨?_, hrb', ?_, ?_, ?_⟩, hold, hl', hu⟩
  · simp only [epollInsertItem, hdescent, Option.bind_eq_bind, Option.bind_some, htl,
      Option.pure_def]
  · simpa [Epoll.tree] using hr'
  · have hsorted := h.sorted
    rw [hold, List.pairwise_append] at hsorted
    obtain ⟨hb, ha', hba⟩ := hsorted
    rw [hl', List.pairwise_append, List.pairwise_cons]
    refine ⟨hb, ⟨hbetween.2, ha'⟩, fun b hb' c hc => ?_⟩
    rcases List.mem_cons.1 hc with rfl | hc
    · exact hbetween.1 b hb'
    · exact hba b hb' c hc
  · intro b hb
    rw [hl', List.mem_append, List.mem_cons] at hb
    rcases hb with hb | rfl | hb
    · exact h.range b (by rw [hold]; exact List.mem_append_left _ hb)
    · exact hrange
    · exact h.range b (by rw [hold]; exact List.mem_append_right _ hb)
  · have hn := h.numItems
    rw [hold, List.length_append] at hn
    rw [Epoll.setNumItems_same, hl', List.length_append, List.length_cons, hn]
    push_cast
    omega

end Insert

/-! ## Removing an item -/

/-- An item is erased, and its block freed. -/
theorem ItemsTree.erase {s : Epoll} {i : EpIndex} {t : RBTree ℕ} (h : ItemsTree s i t) {a : ℕ}
    {l₁ l₂ : List ℕ} (hl : t.toList = l₁ ++ a :: l₂) :
    ∃ tl t', rbErase epollFuel (s.tree i) a = some tl ∧ t'.toList = l₁ ++ l₂ ∧
      Untouched t.toList (s.tree i) tl ∧
      ItemsTree (((s.setTree i tl).setNumItems i ((s.instances i).numItems - 1)).kfree a) i t' := by
  have ha : a ∈ t.toList := by simp [hl]
  have hnd := h.repr.nodup
  rw [hl, List.nodup_append, List.nodup_cons] at hnd
  have hne : ∀ b ∈ l₁ ++ l₂, b ≠ a := fun b hb hba => by
    subst hba
    rcases List.mem_append.1 hb with hb | hb
    · exact hnd.2.2 b hb b List.mem_cons_self rfl
    · exact hnd.2.1.1 hb
  have hsub : ∀ b ∈ l₁ ++ l₂, b ∈ t.toList := fun b hb => by
    rw [hl, List.mem_append, List.mem_cons]
    exact (List.mem_append.1 hb).imp id .inr
  obtain ⟨tl, t', htl, hr', hrb', hl', hu⟩ :=
    rbErase_spec epollFuel h.repr h.rb ha (Nat.lt_succ_of_le h.length_le)
  have herase : t'.toList = l₁ ++ l₂ := by
    have hal₁ : a ∉ l₁ := fun hal₁ => hne a (List.mem_append_left _ hal₁) rfl
    rw [hl', hl, List.erase_append_right _ hal₁, List.erase_cons_head]
  refine ⟨tl, t', htl, herase, hu, ?_, hrb', ?_, ?_, ?_⟩
  · refine hr'.congr (by simp [Epoll.tree]) fun b hb => ?_
    rw [herase] at hb
    exact Epoll.kfree_nodes_ne _ (hne b hb)
  · rw [herase]
    have hsorted := h.sorted
    rw [hl] at hsorted
    refine (hsorted.sublist ((List.sublist_cons_self a l₂).append_left l₁)).imp_of_mem
      fun {b c} hb hc hbc => ?_
    rw [Epoll.kfree_items_ne _ (hne b hb), Epoll.kfree_items_ne _ (hne c hc)]
    exact hbc
  · intro b hb
    rw [herase] at hb
    rw [Epoll.kfree_items_ne _ (hne b hb)]
    exact h.range b (hsub b hb)
  · have hn := h.numItems
    rw [hl, List.length_append, List.length_cons] at hn
    rw [Epoll.kfree_instances, Epoll.setNumItems_same, herase, List.length_append, hn]
    push_cast
    omega

end Fru1tOs
