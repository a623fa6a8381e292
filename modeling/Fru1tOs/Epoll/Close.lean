import Fru1tOs.Epoll.Run
import Fru1tOs.Rbtree.Footprint

/-!
# Closing an instance

The loop of `epoll_close`, with the items it passes to `kfree` in order (`epollCloseLogPass`). It
goes through the items as they are in the tree at first: the next one, found before each erasure,
is the first one of the tree that the erasure leaves, however it is rebalanced. What a block holds
once it is freed is not read in any later pass: another content changes nothing else
(`epollCloseLogPass_overwrite`).

Together: `epoll_close_frees_items`.
-/

namespace Fru1tOs

open Lib RBTree

/-- A pass of `epoll_close`, with the items passed to `kfree` so far. -/
def epollCloseLogPass (i : EpIndex) : Epoll × Option ℕ × List ℕ →
    Option (Pass (Epoll × Option ℕ × List ℕ) (Epoll × List ℕ))
  | (s, none, freed) => some (.done (s, freed))
  | (s, some item, freed) => do
    let next ← rbNext epollFuel (s.tree i) item
    let t ← rbErase epollFuel (s.tree i) item
    return .next ((s.setTree i t).kfree item, next, freed ++ [item])

/-- The state with other contents in the blocks of `l`. -/
def Epoll.overwrite (s : Epoll) (l : List ℕ) (nodes : ℕ → RbNode ℕ) (items : ℕ → EpollItem) :
    Epoll :=
  { s with
    nodes := fun a => if a ∈ l then nodes a else s.nodes a
    items := fun a => if a ∈ l then items a else s.items a }

/-- In the state `st` of the loop, a pass does not read the blocks that were freed: with other
    contents in them, it does the same, and leaves these contents in them. -/
def ReadsNoFreed (i : EpIndex) (st : Epoll × Option ℕ × List ℕ) : Prop :=
  ∀ (nodes : ℕ → RbNode ℕ) (items : ℕ → EpollItem),
    Option.Rel (PassRel (fun st₁ st₂ => st₂ = (st₁.1.overwrite st.2.2 nodes items, st₁.2))
        fun r₁ r₂ => r₂ = (r₁.1.overwrite st.2.2 nodes items, r₁.2))
      (epollCloseLogPass i st)
      (epollCloseLogPass i (st.1.overwrite st.2.2 nodes items, st.2))

variable {s : Epoll} {ts : EpIndex → RBTree ℕ} {i : EpIndex}

/-- The log does not change what the loop does. -/
theorem loop_epollCloseLogPass (i : EpIndex) (fuel : ℕ) (s : Epoll) (node : Option ℕ)
    (freed : List ℕ) : (loop (epollCloseLogPass i) fuel (s, node, freed)).map Prod.fst =
      loop (epollClosePass i) fuel (s, node) := by
  refine map_eq_of_optionRel (loop_rel (R := fun st st' => st' = (st.1, st.2.1)) ?_ fuel rfl)
  rintro ⟨s, _ | item, freed⟩ _ rfl
  · exact .some (.done rfl)
  · rw [epollCloseLogPass, epollClosePass]
    rcases rbNext epollFuel (s.tree i) item with _ | next
    · exact .none
    · rcases rbErase epollFuel (s.tree i) item with _ | t
      · exact .none
      · exact .some (.next rfl)

/-- The invariant of the loop: the items that are left, of which the loop is at the first, are
    those of the tree. -/
def CloseInv (s : Epoll) (i : EpIndex) (l₀ : List ℕ) (st : Epoll × Option ℕ × List ℕ) : Prop :=
  Touches s st.1 i l₀ ∧ ∃ t : RBTree ℕ, ItemsTree (st.1.setNumItems i t.toList.length) i t ∧
    st.2.1 = t.toList.head? ∧ st.2.2 ++ t.toList = l₀

/-- A pass goes on to the next item, or there is none left and the tree is empty. -/
theorem CloseInv.pass {l₀ : List ℕ} {st : Epoll × Option ℕ × List ℕ} (h : CloseInv s i l₀ st) :
    (∃ s₁, epollCloseLogPass i st = some (.done (s₁, l₀)) ∧ Touches s s₁ i l₀ ∧
      (s₁.instances i).itemsTree = none) ∨
    ∃ st', epollCloseLogPass i st = some (.next st') ∧ CloseInv s i l₀ st' ∧
      st'.2.2.length = st.2.2.length + 1 := by
  obtain ⟨s₁, node, freed⟩ := st
  obtain ⟨htouch, t, ht, hnode, hl₀⟩ := h
  dsimp only at htouch ht hnode hl₀
  subst hnode
  cases hl : t.toList with
  | nil =>
    rw [hl, List.append_nil] at hl₀
    subst hl₀
    refine .inl ⟨s₁, rfl, htouch, ?_⟩
    have hroot : (s₁.instances i).itemsTree = t.root := by
      have := ht.repr.root
      rwa [Epoll.tree, Epoll.setNumItems_same] at this
    rw [hroot]
    cases t with
    | nil => rfl
    | node c l a r => exact absurd hl (by simp)
  | cons a l =>
    obtain ⟨hnext, tl, t', htl, rfl, hu, ht'⟩ := closeItem_spec ht hl
    have ha : a ∈ t.toList := by rw [hl]; exact List.mem_cons_self
    have hsub : ∀ b ∈ t.toList, b ∈ l₀ := fun b hb => hl₀ ▸ List.mem_append_right _ hb
    refine .inr ⟨((s₁.setTree i tl).kfree a, t'.toList.head?, freed ++ [a]), ?_,
      ⟨htouch.trans (touches_kfree hu ha) hsub, t', ht', rfl, ?_⟩, by simp⟩
    · simp only [List.head?_cons, epollCloseLogPass, hnext, htl, Option.bind_eq_bind,
        Option.bind_some, Option.pure_def]
    · rw [← hl₀, hl, List.append_assoc, List.singleton_append]

/-- Erasing and freeing an item, with other contents in blocks that are not of the tree. -/
theorem overwrite_closeItem {t : RBTree ℕ} {tl tl' : RbState ℕ} {a : ℕ} {freed : List ℕ}
    {nodes : ℕ → RbNode ℕ} {items : ℕ → EpollItem} (ha : a ∈ t.toList)
    (hdisj : ∀ b ∈ t.toList, b ∉ freed) (hsame : SameOn t.toList tl tl')
    (hu : Untouched t.toList (s.tree i) tl)
    (hu' : Untouched t.toList ((s.overwrite freed nodes items).tree i) tl') :
    ((s.overwrite freed nodes items).setTree i tl').kfree a =
      ((s.setTree i tl).kfree a).overwrite freed nodes items := by
  have hnodes : Function.update tl'.mem a (s.junk a).1 = fun b =>
      if b ∈ freed then nodes b else Function.update tl.mem a (s.junk a).1 b := by
    funext b
    rcases eq_or_ne b a with rfl | hba
    · rw [if_neg (hdisj b ha), Function.update_self, Function.update_self]
    rw [Function.update_of_ne hba, Function.update_of_ne hba]
    by_cases hb : b ∈ t.toList
    · rw [if_neg (hdisj b hb), hsame.mem b hb]
    · rw [hu b hb, hu' b hb]
      rfl
  have hitems : Function.update (s.overwrite freed nodes items).items a (s.junk a).2 = fun b =>
      if b ∈ freed then items b else Function.update s.items a (s.junk a).2 b := by
    funext b
    rcases eq_or_ne b a with rfl | hba
    · rw [if_neg (hdisj b ha), Function.update_self, Function.update_self]
    · rw [Function.update_of_ne hba, Function.update_of_ne hba]
      rfl
  simp only [Epoll.kfree, Epoll.setTree, Epoll.overwrite] at hnodes hitems ⊢
  rw [hnodes, hitems, hsame.root]

/-- A pass does not read what was freed. -/
theorem CloseInv.readsNoFreed {l₀ : List ℕ} (hnd : l₀.Nodup) {st : Epoll × Option ℕ × List ℕ}
    (h : CloseInv s i l₀ st) : ReadsNoFreed i st := by
  intro nodes items
  obtain ⟨s₁, node, freed⟩ := st
  obtain ⟨-, t, ht, hnode, hl₀⟩ := h
  dsimp only at ht hnode hl₀ ⊢
  subst hnode
  cases hl : t.toList with
  | nil => exact .some (.done rfl)
  | cons a l =>
    have ha : a ∈ t.toList := by rw [hl]; exact List.mem_cons_self
    have hdisj : ∀ b ∈ t.toList, b ∉ freed := fun b hb hbf => by
      rw [← hl₀, List.nodup_append] at hnd
      exact hnd.2.2 b hbf b hb rfl
    obtain ⟨hnext, tl, t', htl, -, hu, -⟩ := closeItem_spec ht hl
    -- The tree is the same with the other contents.
    have hrepr : Represents (s₁.tree i) t := by
      have hrepr := ht.repr
      rwa [Epoll.tree, Epoll.setNumItems_same] at hrepr
    have hmem : ∀ b ∈ t.toList, ((s₁.overwrite freed nodes items).tree i).mem b =
        (s₁.tree i).mem b := fun b hb => if_neg (hdisj b hb)
    have hrepr' : Represents ((s₁.overwrite freed nodes items).tree i) t := hrepr.congr rfl hmem
    have hsame : SameOn t.toList (s₁.tree i) ((s₁.overwrite freed nodes items).tree i) :=
      hrepr.sameOn rfl hmem
    have hnext' : rbNext epollFuel ((s₁.overwrite freed nodes items).tree i) a = some l.head? := by
      rw [← map_eq_of_optionRel (f := id) (rbNext_sameOn hsame ha epollFuel), hnext]
      rfl
    obtain ⟨tl', -, htl', -, -, -, hu'⟩ :=
      rbErase_spec epollFuel hrepr' ht.rb ha (Nat.lt_succ_of_le ht.length_le)
    have htls : SameOn t.toList tl tl' := by
      have herase := rbErase_sameOn hsame ha epollFuel
      rw [htl, htl'] at herase
      cases herase with
      | some h => exact h
    simp only [List.head?_cons, epollCloseLogPass, hnext, hnext', htl, htl', Option.bind_eq_bind,
      Option.bind_some, Option.pure_def, overwrite_closeItem ha hdisj htls hu hu']
    exact .some (.next rfl)

/-- What `epoll_close` does to the instance `i` in the state `s`. -/
structure ClosesRight (s : Epoll) (i : EpIndex) : Prop where
  items_nodup : (s.itemsOf i).Nodup
  /-- The loop frees the items, each once, and empties the tree; no pass of it reads what was
      freed. Then the instance is given up. -/
  frees : ∃ first s₁, rbFirst epollFuel (s.tree i) = some first ∧
    loop (epollCloseLogPass i) epollFuel (s, first, []) = some (s₁, s.itemsOf i) ∧
    (s₁.instances i).itemsTree = none ∧
    (∀ st, Passes (epollCloseLogPass i) (s, first, []) st → ReadsNoFreed i st) ∧
    epollClose s i.epfd =
      some (0, { s₁ with instances := Function.update s₁.instances i .unused })
  /-- What is not of the instance stays as it is, and the instance is not found any more. -/
  others : ∀ r s', epollClose s i.epfd = some (r, s') →
    (∀ j ≠ i, s'.instances j = s.instances j) ∧
    (∀ a ∉ s.itemsOf i, s'.nodes a = s.nodes a ∧ s'.items a = s.items a) ∧
    (∀ j ≠ i, (s.instances j).inUse = true → ∀ a ∈ s.itemsOf j, a ∉ s.itemsOf i) ∧
    epollGetInstance s' i.epfd = none

/-- The loop frees the items in order, and empties the tree. -/
theorem EpollInv.loop_close (h : EpollInv s ts) (hi : (s.instances i).inUse = true) :
    CloseInv s i (ts i).toList (s, (ts i).toList.head?, []) ∧
      ∃ s₁, loop (epollCloseLogPass i) epollFuel (s, (ts i).toList.head?, []) =
          some (s₁, (ts i).toList) ∧ Touches s s₁ i (ts i).toList ∧
        (s₁.instances i).itemsTree = none := by
  have ht := (h.tree i hi).1
  have hstart : CloseInv s i (ts i).toList (s, (ts i).toList.head?, []) :=
    ⟨⟨fun _ _ => rfl, fun _ _ => rfl, fun _ _ => rfl, rfl, rfl⟩, ts i,
      by rw [ht.setNumItems_eq]; exact ht, rfl, rfl⟩
  -- Each pass frees one more item.
  have hbody : ∀ k st, CloseInv s i (ts i).toList st ∧ st.2.2.length + k = (ts i).toList.length →
      (∃ r, epollCloseLogPass i st = some (.done r) ∧ r.2 = (ts i).toList ∧
        Touches s r.1 i (ts i).toList ∧ (r.1.instances i).itemsTree = none) ∨
      ∃ st' k', epollCloseLogPass i st = some (.next st') ∧ k' < k ∧
        CloseInv s i (ts i).toList st' ∧ st'.2.2.length + k' = (ts i).toList.length := by
    rintro k st ⟨hst, hk⟩
    rcases hst.pass with ⟨s₁, hdone, htouch, hroot⟩ | ⟨st', hnext, hst', hlen⟩
    · exact .inl ⟨(s₁, (ts i).toList), hdone, rfl, htouch, hroot⟩
    · have hle : st'.2.2.length ≤ (ts i).toList.length := by
        obtain ⟨-, t, -, -, hl⟩ := hst'
        rw [← hl, List.length_append]
        exact Nat.le_add_right _ _
      exact .inr ⟨st', k - 1, hnext, by omega, hst', by omega⟩
  obtain ⟨⟨s₁, freed⟩, hloop, rfl, htouch, hroot⟩ := loop_of_variant hbody ⟨hstart, Nat.zero_add _⟩
    (Nat.lt_succ_of_le ht.length_le)
  exact ⟨hstart, s₁, hloop, htouch, hroot⟩

/-- `epoll_close` of an instance in use. -/
theorem EpollInv.closesRight (h : EpollInv s ts) (hi : (s.instances i).inUse = true) :
    ClosesRight s i := by
  have ht := (h.tree i hi).1
  have hitems : ∀ j, (s.instances j).inUse = true → s.itemsOf j = (ts j).toList := fun j hj =>
    h.inorder_of_inUse hj
  have hnd : (ts i).toList.Nodup := ht.repr.nodup
  have hinst : epollGetInstance s i.epfd = some i := h.epollGetInstance_eq_some.2 ⟨hi, rfl⟩
  have hfirst := rbFirst_spec epollFuel ht.repr (Nat.le_succ_of_le ht.length_le)
  obtain ⟨hstart, s₁, hloop, htouch, hroot⟩ := h.loop_close hi
  have hclose : epollClose s i.epfd =
      some (0, { s₁ with instances := Function.update s₁.instances i .unused }) := by
    have hplain := loop_epollCloseLogPass i epollFuel s (ts i).toList.head? []
    rw [hloop, Option.map_some] at hplain
    rw [epollClose, hinst]
    simp only [hfirst, Option.bind_eq_bind, Option.bind_some, ← hplain, Option.pure_def]
  refine ⟨by rw [hitems i hi]; exact hnd, ⟨_, s₁, hfirst, by rw [hitems i hi]; exact hloop, hroot,
    fun st hst => ?_, hclose⟩, fun r s' hs' => ?_⟩
  · refine CloseInv.readsNoFreed hnd (hst.induction (fun st₁ st₂ h₁ hnext => ?_) hstart)
    rcases h₁.pass with ⟨s₂, hdone, -⟩ | ⟨st', hst', h', -⟩
    · rw [hdone] at hnext
      cases hnext
    · rw [hst'] at hnext
      cases hnext
      exact h'
  · obtain ⟨r₁, s₂, ts', hs₂, h', -⟩ := epollClose_spec h i.epfd
    obtain ⟨rfl, rfl⟩ := Prod.mk.inj (Option.some.inj (hs₂.symm.trans hs'))
    obtain ⟨rfl, rfl⟩ := Prod.mk.inj (Option.some.inj (hs₂.symm.trans hclose))
    refine ⟨fun j hj => ?_, fun a ha => ?_, fun j hj hju a ha => ?_, ?_⟩
    · exact (Function.update_of_ne hj _ _).trans (htouch.others j hj)
    · rw [hitems i hi] at ha
      exact ⟨htouch.nodes a ha, htouch.items a ha⟩
    · rw [hitems j hju] at ha
      rw [hitems i hi]
      exact h.disjoint j i hj a ha
    · rw [Option.eq_none_iff_forall_ne_some]
      intro j hj
      obtain ⟨hju, hepfd⟩ := h'.epollGetInstance_eq_some.1 hj
      obtain rfl : j = i := by
        rw [EpIndex.epfd, EpIndex.epfd] at hepfd
        exact Fin.ext (by omega)
      simp only [Function.update_self] at hju
      cases hju

/-- In every state that calls on descriptors and epoll instances lead to, `epoll_close` of an
    instance in use returns, having passed its items to `kfree`, each once and nothing else, without
    reading one after that, and having emptied its tree by erasures. Other instances and their items
    stay as they are, and the instance is not found any more. -/
theorem epoll_close_frees_items (s₀ : Epoll) (calls : List EpollCall) :
    ∃ s, run (fun s c => (epollCall s c).map Prod.snd) (fdInit (epollInit s₀)) calls = some s ∧
      ∀ i, (s.instances i).inUse = true → ClosesRight s i := by
  obtain ⟨s, hs, ts, h⟩ := run_epollInv s₀ calls
  exact ⟨s, hs, fun i hi => h.closesRight hi⟩

/-- An instance with two items. -/
theorem epoll_close_frees_items_two : ∃ s,
    run (fun s c => (epollCall s c).map Prod.snd) (fdInit (epollInit .boot))
      [.fdAlloc 1 0 none, .fdAlloc 1 0 none, .create, .ctl (-1) epollCtlAdd 1 ⟨1, 8⟩ 4096,
        .ctl (-1) epollCtlAdd 0 ⟨1, 7⟩ 8192] = some s ∧
    s.itemsOf 0 = [8192, 4096] ∧ ClosesRight s 0 := by
  obtain ⟨s, hs, h⟩ := epoll_close_frees_items .boot
    [.fdAlloc 1 0 none, .fdAlloc 1 0 none, .create, .ctl (-1) epollCtlAdd 1 ⟨1, 8⟩ 4096,
      .ctl (-1) epollCtlAdd 0 ⟨1, 7⟩ 8192]
  have hstate : (run (fun s c => (epollCall s c).map Prod.snd) (fdInit (epollInit .boot))
      [.fdAlloc 1 0 none, .fdAlloc 1 0 none, .create, .ctl (-1) epollCtlAdd 1 ⟨1, 8⟩ 4096,
        .ctl (-1) epollCtlAdd 0 ⟨1, 7⟩ 8192]).all
      fun s => decide ((s.instances 0).inUse = true ∧ s.itemsOf 0 = [8192, 4096]) := by
    decide +kernel
  rw [hs, Option.all_some, decide_eq_true_iff] at hstate
  exact ⟨s, hs, hstate.2, h 0 hstate.1⟩

end Fru1tOs
