import Fru1tOs.Epoll.Refine

/-!
# Runs of epoll

Each call keeps the invariant of the instances and does to their maps what the
specification says: `epoll_ctl` (`epollAdd_spec`, `epollDel_spec`,
`epollMod_spec`), `epoll_wait` (`epollWait_spec`), which changes no map,
`epoll_create` and `epoll_close`. The events that `epoll_wait` gives are those of
the first items that have one (`epollWait_reports`).
-/

namespace Fru1tOs

open Lib RBTree

variable {s : Epoll} {ts : EpIndex → RBTree ℕ} {i : EpIndex}

/-- The descriptor is open. -/
def Epoll.Open (s : Epoll) (fd : ℤ) : Prop := (fdGet s fd).isSome

/-- The block can be given by the allocator. -/
def Epoll.Allocates (s : Epoll) (block : ℕ) : Prop := block ≠ 0 ∧ block ∉ s.live

/-- An open descriptor is one of the table. -/
theorem Epoll.Open.range {fd : ℤ} (h : s.Open fd) : 0 ≤ fd ∧ fd < maxFds := by
  by_contra hn
  rw [Epoll.Open, fdGet, dif_neg hn] at h
  cases h

/-! ## Control -/

/-- `EPOLL_CTL_ADD` of a descriptor that has no item, in a block that is not in use. -/
theorem epollAdd_spec (h : EpollInv s ts) (hi : (s.instances i).inUse = true) {fd : ℤ}
    (hopen : s.Open fd) {m : ℤ → Option EpollEvent} (hm : s.maps i = some m) (hfd : m fd = none)
    (event : EpollEvent) {block : ℕ} (hblock : s.Allocates block) :
    ∃ s' ts', epollAdd s i fd event block = some (0, s') ∧ EpollInv s' ts' ∧
      s'.maps = Function.update s.maps i (some (ctlMap m epollCtlAdd fd event)) := by
  rw [h.maps_of_inUse hi, Option.some_inj] at hm
  subst hm
  have ht := (h.tree i hi).1
  have hnone := itemsMap_eq_none.1 hfd
  have hnot : block ∉ (ts i).toList := fun hb => hblock.2 (h.live i block hb)
  -- The item is written in its block, which is not one of the tree.
  set s₁ : Epoll := ({ s with live := block :: s.live } : Epoll).modifyItem block
    (fun _ => ⟨fd, event.events, event.data, 0⟩) with hs₁
  set s₂ : Epoll := s₁.setTree i (rbClearNode (s₁.tree i) block) with hs₂
  have hitem : s₂.items block = ⟨fd, event.events, event.data, 0⟩ := by
    rw [hs₂, Epoll.setTree_items, hs₁, Epoll.modifyItem_same]
  have hitems : ∀ a, a ≠ block → s₂.items a = s.items a := fun a ha => by
    rw [hs₂, Epoll.setTree_items, hs₁, Epoll.modifyItem_ne _ _ ha]
  have hnodes : ∀ a, a ≠ block → s₂.nodes a = s.nodes a := fun a ha => setParent_mem_ne _ _ ha
  have hinst : s₂.instances = s.instances := by
    funext j
    by_cases hj : j = i
    · rw [hj, hs₂, Epoll.setTree_same]
      rfl
    · exact Epoll.setTree_ne _ _ hj
  have hne : ∀ a ∈ (ts i).toList, a ≠ block := fun a ha hab => hnot (hab ▸ ha)
  have ht₂ : ItemsTree s₂ i (ts i) := ht.congr (by rw [hinst]) (fun a ha => hnodes a (hne a ha))
    fun a ha => by rw [hitems a (hne a ha)]
  obtain ⟨tl, t', l₁, l₂, hins, ht', hl, hl', hu⟩ := epollInsertItem_spec ht₂ hnot
    (by rw [hitem]; exact hopen.range) (by
      intro b hb
      rw [hitems b (hne b hb), hitem]
      exact hnone b hb)
  set s' : Epoll := (s₂.setTree i tl).setNumItems i ((s₂.instances i).numItems + 1) with hs'
  have hmem : ∀ a, a ∈ t'.toList ↔ a = block ∨ a ∈ (ts i).toList := fun a => by
    rw [hl', hl]
    simp only [List.mem_append, List.mem_cons]
    tauto
  have htouch : Touches s s' i t'.toList := by
    refine ⟨fun a ha => ?_, fun a ha => ?_, fun j hj => ?_, ?_, ?_⟩
    · have hab : a ≠ block := fun hab => ha ((hmem a).2 (.inl hab))
      exact (hu a ha).trans (hnodes a hab)
    · exact hitems a fun hab => ha ((hmem a).2 (.inl hab))
    · rw [hs', Epoll.setNumItems_ne _ _ hj, Epoll.setTree_ne _ _ hj, hinst]
    · rw [hs', Epoll.setNumItems_same, Epoll.setTree_same, hinst]
    · rw [hs', Epoll.setNumItems_same, Epoll.setTree_same, hinst]
  have hown : ∀ a ∈ t'.toList, a ∈ (ts i).toList ∨ a ∉ s.live := fun a ha =>
    ((hmem a).1 ha).symm.imp id fun (hab : a = block) => hab ▸ hblock.2
  have hlive : s'.live = block :: s.live := rfl
  have hinv : EpollInv s' (Function.update ts i t') := by
    refine h.step hi ht' htouch hown (fun a ha => ha) (fun a ha => ?_) fun a ha _ => ?_
    · rw [hlive, List.mem_cons]
      exact ((hmem a).1 ha).imp id (h.live i a)
    · rw [hlive]
      exact List.mem_cons_of_mem _ ha
  refine ⟨s', _, ?_, hinv, ?_⟩
  · have hfind : epollFindItem s i fd = some none := by
      rw [epollFindItem_spec ht, Option.some_inj, List.find?_eq_none]
      intro a ha
      simpa using hnone a ha
    have hmalloc : s.kmalloc block = (some block, { s with live := block :: s.live }) := by
      rw [Epoll.kmalloc, if_neg]
      rintro (h0 | hb)
      exacts [hblock.1 h0, hblock.2 hb]
    simp only [epollAdd, hfind, Option.bind_eq_bind, Option.bind_some, Option.isSome_none,
      Bool.false_eq_true, if_false, hmalloc, ← hs₁, ← hs₂, hins, lt_self_iff_false, Option.pure_def]
  · rw [h.maps_step hi hinv htouch hown, hl']
    have hold : ∀ b ∈ l₁ ++ l₂, (s'.items b).fd ≠ (s'.items block).fd := fun b hb => by
      rw [← hl] at hb
      show (s₂.items b).fd ≠ (s₂.items block).fd
      rw [hitems b (hne b hb), hitem]
      exact hnone b hb
    have hsame : itemsMap s'.items (l₁ ++ l₂) = itemsMap s.items (ts i).toList := by
      rw [← hl]
      refine itemsMap_congr fun b hb => ?_
      show (s₂.items b).fd = _ ∧ (s₂.items b).event = _
      rw [hitems b (hne b hb)]
      exact ⟨rfl, rfl⟩
    have hblock' : s'.items block = ⟨fd, event.events, event.data, 0⟩ := hitem
    rw [itemsMap_middle hold, hsame, hblock']
    rfl

/-- The item of a descriptor, and its place in the tree. -/
theorem exists_item (h : EpollInv s ts) (hi : (s.instances i).inUse = true) {fd : ℤ}
    {m : ℤ → Option EpollEvent} (hm : s.maps i = some m) (hfd : m fd ≠ none) :
    ∃ a l₁ l₂, (ts i).toList = l₁ ++ a :: l₂ ∧ (s.items a).fd = fd ∧
      epollFindItem s i fd = some (some a) ∧
      ∀ b ∈ l₁ ++ l₂, (s.items b).fd ≠ (s.items a).fd := by
  rw [h.maps_of_inUse hi, Option.some_inj] at hm
  subst hm
  have ht := (h.tree i hi).1
  cases hfind : (ts i).toList.find? fun a => (s.items a).fd = fd with
  | none => exact absurd (by rw [itemsMap, hfind]; rfl) hfd
  | some a =>
    obtain ⟨hafd, l₁, l₂, hl, -⟩ := List.find?_eq_some_iff_append.1 hfind
    refine ⟨a, l₁, l₂, hl, by simpa using hafd, ?_, ht.fd_ne hl⟩
    rw [epollFindItem_spec ht, hfind]

/-- `EPOLL_CTL_DEL` of a descriptor that has an item. -/
theorem epollDel_spec (h : EpollInv s ts) (hi : (s.instances i).inUse = true) {fd : ℤ}
    {m : ℤ → Option EpollEvent} (hm : s.maps i = some m) (hfd : m fd ≠ none) (event : EpollEvent) :
    ∃ s' ts', epollDel s i fd = some (0, s') ∧ EpollInv s' ts' ∧
      s'.maps = Function.update s.maps i (some (ctlMap m epollCtlDel fd event)) := by
  obtain ⟨a, l₁, l₂, hl, hafd, hfind, hne⟩ := exists_item h hi hm hfd
  rw [h.maps_of_inUse hi, Option.some_inj] at hm
  subst hm
  obtain ⟨tl, t', htl, hl', hu, ht'⟩ := (h.tree i hi).1.erase hl
  set s' : Epoll := ((s.setTree i tl).setNumItems i ((s.instances i).numItems - 1)).kfree a with hs'
  have hat : a ∈ (ts i).toList := by simp [hl]
  have hsub : ∀ b ∈ t'.toList, b ∈ (ts i).toList ∧ b ≠ a := fun b hb => by
    rw [hl'] at hb
    refine ⟨?_, fun hba => hne b hb (by rw [hba])⟩
    rw [hl, List.mem_append, List.mem_cons]
    exact (List.mem_append.1 hb).imp id .inr
  have htouch : Touches s s' i (ts i).toList := by
    refine ⟨fun b hb => ?_, fun b hb => ?_, fun j hj => ?_, ?_, ?_⟩
    · have hba : b ≠ a := fun hba => hb (hba ▸ hat)
      rw [hs', Epoll.kfree_nodes_ne _ hba]
      exact hu b hb
    · have hba : b ≠ a := fun hba => hb (hba ▸ hat)
      rw [hs', Epoll.kfree_items_ne _ hba]
      rfl
    · rw [hs', Epoll.kfree_instances, Epoll.setNumItems_ne _ _ hj, Epoll.setTree_ne _ _ hj]
    · rw [hs', Epoll.kfree_instances, Epoll.setNumItems_same, Epoll.setTree_same]
    · rw [hs', Epoll.kfree_instances, Epoll.setNumItems_same, Epoll.setTree_same]
  have hlive : s'.live = s.live.erase a := rfl
  have hkeep : ∀ b ∈ s.live, b ≠ a → b ∈ s'.live := fun b hb hba => by
    rw [hlive]
    exact (List.mem_erase_of_ne hba).2 hb
  have hinv : EpollInv s' (Function.update ts i t') :=
    h.step hi ht' htouch (fun b hb => .inl hb) (fun b hb => (hsub b hb).1)
      (fun b hb => hkeep b (h.live i b (hsub b hb).1) (hsub b hb).2)
      fun b hb hbt => hkeep b hb fun hba => hbt (hba ▸ hat)
  refine ⟨s', _, ?_, hinv, ?_⟩
  · simp only [epollDel, hfind, Option.bind_eq_bind, Option.bind_some, htl, Option.pure_def, hs']
  · rw [h.maps_step hi hinv htouch fun b hb => .inl hb, hl', hl, ← hafd]
    have hsame : itemsMap s'.items (l₁ ++ l₂) = itemsMap s.items (l₁ ++ l₂) := by
      refine itemsMap_congr fun b hb => ?_
      rw [hs', Epoll.kfree_items_ne _ fun hba => hne b hb (by rw [hba])]
      exact ⟨rfl, rfl⟩
    rw [hsame, itemsMap_erase hne, ctlMap, if_pos rfl]

/-- `EPOLL_CTL_MOD` of a descriptor that has an item. -/
theorem epollMod_spec (h : EpollInv s ts) (hi : (s.instances i).inUse = true) {fd : ℤ}
    {m : ℤ → Option EpollEvent} (hm : s.maps i = some m) (hfd : m fd ≠ none) (event : EpollEvent) :
    ∃ s' ts', epollMod s i fd event = some (0, s') ∧ EpollInv s' ts' ∧
      s'.maps = Function.update s.maps i (some (ctlMap m epollCtlMod fd event)) := by
  obtain ⟨a, l₁, l₂, hl, hafd, hfind, hne⟩ := exists_item h hi hm hfd
  rw [h.maps_of_inUse hi, Option.some_inj] at hm
  subst hm
  set s' : Epoll := s.modifyItem a fun e =>
    { e with events := event.events, userData := event.data } with hs'
  have hat : a ∈ (ts i).toList := by simp [hl]
  have hsame : ∀ b, (s'.items b).fd = (s.items b).fd := fun b => by
    by_cases hba : b = a
    · rw [hba, hs', Epoll.modifyItem_same]
    · rw [hs', Epoll.modifyItem_ne _ _ hba]
  have ht' : ItemsTree s' i (ts i) :=
    (h.tree i hi).1.congr rfl (fun _ _ => rfl) fun b _ => hsame b
  have htouch : Touches s s' i (ts i).toList :=
    ⟨fun _ _ => rfl, fun b hb => Epoll.modifyItem_ne _ _ fun hba => hb (hba ▸ hat),
      fun _ _ => rfl, rfl, rfl⟩
  have hinv : EpollInv s' (Function.update ts i (ts i)) :=
    h.step hi ht' htouch (fun b hb => .inl hb) (fun b hb => hb) (h.live i) fun b hb _ => hb
  refine ⟨s', _, ?_, hinv, ?_⟩
  · simp only [epollMod, hfind, Option.bind_eq_bind, Option.bind_some, Option.pure_def, hs']
  · have hne' : ∀ b ∈ l₁ ++ l₂, (s'.items b).fd ≠ (s'.items a).fd := fun b hb => by
      rw [hsame, hsame]
      exact hne b hb
    have hrest : itemsMap s'.items (l₁ ++ l₂) = itemsMap s.items (l₁ ++ l₂) := by
      refine itemsMap_congr fun b hb => ?_
      rw [hs', Epoll.modifyItem_ne _ _ fun hba => hne b hb (by rw [hba])]
      exact ⟨rfl, rfl⟩
    have hevent : (s'.items a).event = event := by
      rw [hs', Epoll.modifyItem_same]
      rfl
    rw [h.maps_step hi hinv htouch fun b hb => .inl hb, hl, itemsMap_middle hne', hrest, hsame,
      hevent, itemsMap_middle hne, ← hafd, ctlMap, Function.update_idem, if_neg (by decide)]

/-- A descriptor without an item is not found. -/
theorem epollFindItem_eq_none (h : EpollInv s ts) (hi : (s.instances i).inUse = true) {fd : ℤ}
    {m : ℤ → Option EpollEvent} (hm : s.maps i = some m) (hfd : m fd = none) :
    epollFindItem s i fd = some none := by
  rw [h.maps_of_inUse hi, Option.some_inj] at hm
  rw [← hm, itemsMap, Option.map_eq_none_iff] at hfd
  rw [epollFindItem_spec (h.tree i hi).1, hfd]

/-- `EPOLL_CTL_ADD` fails if the descriptor has an item, or without memory. -/
theorem epollAdd_fail (h : EpollInv s ts) (hi : (s.instances i).inUse = true) {fd : ℤ}
    {m : ℤ → Option EpollEvent} (hm : s.maps i = some m) (event : EpollEvent) {block : ℕ}
    (hno : m fd ≠ none ∨ ¬s.Allocates block) :
    epollAdd s i fd event block = some (-1, s) := by
  by_cases hfd : m fd = none
  · have hmalloc : s.kmalloc block = (none, s) := by
      rw [Epoll.kmalloc, if_pos]
      by_contra hn
      exact hno.elim (fun hne => hne hfd) fun hblock => hblock (not_or.1 hn)
    simp [epollAdd, epollFindItem_eq_none h hi hm hfd, hmalloc]
  · obtain ⟨a, -, -, -, -, hfind, -⟩ := exists_item h hi hm hfd
    simp [epollAdd, hfind]

/-- `epoll_ctl` with an instance and an open descriptor. -/
theorem epollCtl_eq {epfd op fd : ℤ} {event : EpollEvent} {block : ℕ}
    (hinst : epollGetInstance s epfd = some i) (hopen : s.Open fd) :
    epollCtl s epfd op fd event block =
      if op = epollCtlAdd then epollAdd s i fd event block
      else if op = epollCtlDel then epollDel s i fd
      else if op = epollCtlMod then epollMod s i fd event
      else some (-1, s) := by
  obtain ⟨k, hget⟩ := Option.isSome_iff_exists.1 hopen
  rw [epollCtl, hinst]
  simp only [hget]

/-- `epoll_ctl` on an instance: it succeeds as the specification says, or fails and leaves the
    state. -/
theorem epollCtl_cases (h : EpollInv s ts) {epfd op fd : ℤ} (event : EpollEvent) (block : ℕ)
    {m : ℤ → Option EpollEvent} (hinst : epollGetInstance s epfd = some i)
    (hm : s.maps i = some m) :
    (CtlSucceeds s.Open (s.Allocates block) m op fd ∧ ∃ s' ts',
      epollCtl s epfd op fd event block = some (0, s') ∧ EpollInv s' ts' ∧
      s'.maps = Function.update s.maps i (some (ctlMap m op fd event))) ∨
    (¬CtlSucceeds s.Open (s.Allocates block) m op fd ∧
      epollCtl s epfd op fd event block = some (-1, s)) := by
  obtain ⟨hi, -⟩ := h.epollGetInstance_eq_some.1 hinst
  by_cases hopen : s.Open fd
  swap
  · refine .inr ⟨fun hs => hopen hs.1, ?_⟩
    have hget : fdGet s fd = none := Option.not_isSome_iff_eq_none.1 hopen
    rw [epollCtl, hinst]
    simp only [hget]
  rw [epollCtl_eq hinst hopen]
  by_cases hadd : op = epollCtlAdd
  · subst hadd
    rw [if_pos rfl]
    by_cases hok : m fd = none ∧ s.Allocates block
    · exact .inl ⟨⟨hopen, .inl ⟨rfl, hok⟩⟩, epollAdd_spec h hi hopen hm hok.1 event hok.2⟩
    · refine .inr ⟨?_, epollAdd_fail h hi hm event (not_and_or.1 hok)⟩
      rintro ⟨-, ⟨-, hok'⟩ | ⟨hop, -⟩⟩
      · exact hok hok'
      · revert hop
        decide
  rw [if_neg hadd]
  -- The other operations need an item of the descriptor.
  have hneed : m fd = none → ¬CtlSucceeds s.Open (s.Allocates block) m op fd := by
    rintro hn ⟨-, ⟨hop, -⟩ | ⟨-, hne⟩⟩
    exacts [hadd hop, hne hn]
  by_cases hdel : op = epollCtlDel
  · rw [if_pos hdel]
    by_cases hfd : m fd = none
    · exact .inr ⟨hneed hfd, by simp [epollDel, epollFindItem_eq_none h hi hm hfd]⟩
    · exact .inl ⟨⟨hopen, .inr ⟨.inl hdel, hfd⟩⟩, hdel ▸ epollDel_spec h hi hm hfd event⟩
  rw [if_neg hdel]
  by_cases hmod : op = epollCtlMod
  · rw [if_pos hmod]
    by_cases hfd : m fd = none
    · exact .inr ⟨hneed hfd, by simp [epollMod, epollFindItem_eq_none h hi hm hfd]⟩
    · exact .inl ⟨⟨hopen, .inr ⟨.inr hmod, hfd⟩⟩, hmod ▸ epollMod_spec h hi hm hfd event⟩
  rw [if_neg hmod]
  refine .inr ⟨?_, rfl⟩
  rintro ⟨-, ⟨hop, -⟩ | ⟨hop, -⟩⟩
  exacts [hadd hop, hop.elim hdel hmod]

/-- `epoll_ctl` does what the specification says. -/
theorem epollCtl_spec (h : EpollInv s ts) (epfd op fd : ℤ) (event : EpollEvent) (block : ℕ) :
    ∃ r s' ts', epollCtl s epfd op fd event block = some (r, s') ∧ EpollInv s' ts' ∧
      EpollSpec s.Open (s.Allocates block) s.maps (.ctl epfd op fd event block) r s'.maps := by
  cases hinst : epollGetInstance s epfd with
  | none =>
    refine ⟨-1, s, ts, by rw [epollCtl, hinst], h, .inr ⟨fun i m hi hm => ?_, rfl, rfl⟩⟩
    rw [h.epollGetInstance_eq_none hinst i hi] at hm
    cases hm
  | some i =>
    obtain ⟨hi, hepfd⟩ := h.epollGetInstance_eq_some.1 hinst
    have hmaps := h.maps_of_inUse hi
    rcases epollCtl_cases h event block hinst hmaps with
      ⟨hok, s', ts', hs', hinv, hmaps'⟩ | ⟨hno, hs'⟩
    · exact ⟨0, s', ts', hs', hinv, .inl ⟨i, _, hepfd, hmaps, hok, rfl, hmaps'⟩⟩
    · refine ⟨-1, s, ts, hs', h, .inr ⟨fun j m' hj hm' => ?_, rfl, rfl⟩⟩
      obtain rfl : j = i := by
        rw [hepfd, EpIndex.epfd, EpIndex.epfd] at hj
        exact Fin.ext (by omega)
      rw [hmaps, Option.some_inj] at hm'
      exact hm' ▸ hno

/-! ## Waiting -/

/-- Only descriptors and returned events differ. -/
structure OnlyPolled (s s' : Epoll) : Prop where
  nodes : s'.nodes = s.nodes
  instances : s'.instances = s.instances
  live : s'.live = s.live
  items : ∀ a, (s'.items a).fd = (s.items a).fd ∧ (s'.items a).event = (s.items a).event

theorem OnlyPolled.tree {s' : Epoll} (h : OnlyPolled s s') (i : EpIndex) :
    s'.tree i = s.tree i := by
  rw [Epoll.tree, h.nodes, h.instances, Epoll.tree]

/-- Polling changes neither the trees nor the maps. -/
theorem OnlyPolled.inv {s' : Epoll} (hp : OnlyPolled s s') (h : EpollInv s ts) :
    EpollInv s' ts ∧ s'.maps = s.maps := by
  refine ⟨⟨fun i hi => ?_, fun i hi => ?_, h.disjoint, ?_⟩, ?_⟩
  · rw [hp.instances] at hi ⊢
    exact ⟨(h.tree i hi).1.congr (by rw [hp.instances]) (fun a _ => by rw [hp.nodes])
      fun a _ => (hp.items a).1, (h.tree i hi).2⟩
  · rw [hp.instances] at hi
    exact h.unused i hi
  · rw [hp.live]
    exact h.live
  · funext i
    rw [Epoll.maps, Epoll.maps, hp.instances, hp.nodes]
    congr 2
    exact itemsMap_congr fun a _ => hp.items a

/-- Which descriptors are open depends on their types. -/
theorem open_congr {s' : Epoll} (h : ∀ k, (s'.fds k).type = (s.fds k).type) (fd : ℤ) :
    s'.Open fd ↔ s.Open fd := by
  simp only [Epoll.Open, fdGet, h]

/-- `fd_poll` only changes the flags of a descriptor. -/
theorem fdPoll_table (s : Epoll) (answer : ℤ → BitVec 32) (fd : ℤ) (k : Fin maxFds) :
    ((fdPoll s answer fd).2.fds k).type = (s.fds k).type ∧
      ((fdPoll s answer fd).2.fds k).ops = (s.fds k).ops := by
  rw [fdPoll]
  cases fdGet s fd with
  | none => exact ⟨rfl, rfl⟩
  | some j =>
    dsimp only
    split
    · dsimp only
      rcases eq_or_ne k j with rfl | hkj
      · rw [Function.update_self]
        exact ⟨rfl, rfl⟩
      · rw [Function.update_of_ne hkj]
        exact ⟨rfl, rfl⟩
    · exact ⟨rfl, rfl⟩

/-- `fd_poll` leaves the items alone, and finds something only if the descriptor is open. -/
theorem fdPoll_spec (s : Epoll) (answer : ℤ → BitVec 32) (fd : ℤ) :
    OnlyPolled s (fdPoll s answer fd).2 ∧ (fdPoll s answer fd).2.items = s.items ∧
      ((fdPoll s answer fd).1 ≠ 0 → s.Open fd) := by
  have hsame : OnlyPolled s s := ⟨rfl, rfl, rfl, fun _ => ⟨rfl, rfl⟩⟩
  rw [fdPoll, Epoll.Open]
  cases hget : fdGet s fd with
  | none => exact ⟨hsame, rfl, fun h => absurd rfl h⟩
  | some k =>
    dsimp only
    split
    · exact ⟨⟨rfl, rfl, rfl, fun _ => ⟨rfl, rfl⟩⟩, rfl, fun _ => rfl⟩
    · exact ⟨hsame, rfl, fun _ => rfl⟩

/-- The items of `l` were polled: none has an event but for an open descriptor, and the same
    descriptors are open. -/
structure Polled (s s' : Epoll) (l : List ℕ) : Prop extends OnlyPolled s s' where
  isOpen : ∀ fd, s'.Open fd ↔ s.Open fd
  revents : ∀ a ∈ l, (s'.items a).revents ≠ 0 → s.Open (s.items a).fd

/-- What `fd_poll` finds does not depend on the flags of the descriptors. -/
theorem fdPoll_congr {s' : Epoll} (h : ∀ k, (s'.fds k).type = (s.fds k).type ∧
    (s'.fds k).ops = (s.fds k).ops) (answer : ℤ → BitVec 32) (fd : ℤ) :
    (fdPoll s' answer fd).1 = (fdPoll s answer fd).1 := by
  have hget : fdGet s' fd = fdGet s fd := by simp only [fdGet, (h _).1]
  rw [fdPoll, fdPoll, hget]
  cases fdGet s fd with
  | none => rfl
  | some k =>
    dsimp only
    rw [(h k).2]
    split <;> rfl

/-- The events of an item, when its descriptor is polled. -/
def Epoll.mask (s : Epoll) (answer : ℤ → BitVec 32) (e : EpollItem) : BitVec 32 :=
  epollEvents (fdPoll s answer e.fd).1 &&& e.events

/-- The items of `l` were polled, each with the descriptors as they were: only flags of descriptors
    and returned events differ. -/
structure PolledBy (answer : ℤ → BitVec 32) (s s' : Epoll) (l : List ℕ) : Prop
    extends OnlyPolled s s' where
  table : ∀ k, (s'.fds k).type = (s.fds k).type ∧ (s'.fds k).ops = (s.fds k).ops
  mask : ∀ a ∈ l, (s'.items a).revents = s.mask answer (s.items a)

/-- Polling finds no event of a closed descriptor. -/
theorem Epoll.isOpen_of_mask {answer : ℤ → BitVec 32} {e : EpollItem} (h : s.mask answer e ≠ 0) :
    s.Open e.fd := by
  refine (fdPoll_spec s answer e.fd).2.2 fun h0 => h ?_
  rw [Epoll.mask, h0]
  exact BitVec.zero_and

theorem PolledBy.polled {answer : ℤ → BitVec 32} {s' : Epoll} {l : List ℕ}
    (h : PolledBy answer s s' l) : Polled s s' l :=
  ⟨h.toOnlyPolled, open_congr fun k => (h.table k).1, fun a ha hrev =>
    Epoll.isOpen_of_mask (by rwa [← h.mask a ha])⟩

/-- A pass polls one more item. -/
theorem PolledBy.poll {answer : ℤ → BitVec 32} {s₁ : Epoll} {l : List ℕ}
    (h : PolledBy answer s s₁ l) (a : ℕ) : PolledBy answer s
      ((fdPoll s₁ answer (s₁.items a).fd).2.modifyItem a fun e =>
        { e with revents := epollEvents (fdPoll s₁ answer (s₁.items a).fd).1 &&& e.events })
      (l ++ [a]) := by
  obtain ⟨hp₂, hitems₂, -⟩ := fdPoll_spec s₁ answer (s₁.items a).fd
  set s₂ := (fdPoll s₁ answer (s₁.items a).fd).2 with hs₂
  have htable : ∀ k, (s₂.fds k).type = (s₁.fds k).type ∧ (s₂.fds k).ops = (s₁.fds k).ops :=
    fdPoll_table s₁ answer (s₁.items a).fd
  refine ⟨⟨hp₂.nodes.trans h.nodes, hp₂.instances.trans h.instances, hp₂.live.trans h.live,
    fun b => ?_⟩, fun k => ⟨(htable k).1.trans (h.table k).1, (htable k).2.trans (h.table k).2⟩,
    fun b hb => ?_⟩
  · rcases eq_or_ne b a with rfl | hba
    · rw [Epoll.modifyItem_same, hitems₂]
      exact h.items b
    · rw [Epoll.modifyItem_ne _ _ hba, hitems₂]
      exact h.items b
  · rcases eq_or_ne b a with rfl | hba
    · obtain ⟨hfd, hevent⟩ := h.items b
      have hevents : (s₁.items b).events = (s.items b).events := congrArg EpollEvent.events hevent
      rw [Epoll.modifyItem_same, hitems₂, Epoll.mask, hfd, hevents, fdPoll_congr h.table]
    · rw [Epoll.modifyItem_ne _ _ hba, hitems₂]
      exact h.mask b ((List.mem_append.1 hb).resolve_right fun hb => hba (List.mem_singleton.1 hb))

/-- A pass of `epoll_poll_fds` goes on to the next item, or has reached the end. -/
theorem epollPollPass_spec {t : RBTree ℕ} (ht : ItemsTree s i t) (answer : ℤ → BitVec 32) (k : ℕ)
    (st : Epoll × Option ℕ) (hst : ∃ l₁ l₂, t.toList = l₁ ++ l₂ ∧ st.2 = l₂.head? ∧
      l₂.length = k ∧ PolledBy answer s st.1 l₁) :
    (∃ r, epollPollPass i answer st = some (.done r) ∧ PolledBy answer s r t.toList) ∨
    ∃ st' k', epollPollPass i answer st = some (.next st') ∧ k' < k ∧
      ∃ l₁ l₂, t.toList = l₁ ++ l₂ ∧ st'.2 = l₂.head? ∧ l₂.length = k' ∧
        PolledBy answer s st'.1 l₁ := by
  obtain ⟨s₁, node⟩ := st
  obtain ⟨l₁, l₂, hl, hnode, hk, hp⟩ := hst
  dsimp only at hp hnode
  subst hnode hk
  cases l₂ with
  | nil =>
    rw [List.append_nil] at hl
    exact .inl ⟨s₁, rfl, hl ▸ hp⟩
  | cons a l₂ =>
    have hp₃ := hp.poll a
    set s₃ := (fdPoll s₁ answer (s₁.items a).fd).2.modifyItem a fun e =>
      { e with revents := epollEvents (fdPoll s₁ answer (s₁.items a).fd).1 &&& e.events } with hs₃
    have hnext : rbNext epollFuel (s₃.tree i) a = some l₂.head? := by
      rw [hp₃.toOnlyPolled.tree]
      exact rbNext_spec epollFuel ht.repr hl (Nat.le_succ_of_le ht.length_le)
    refine .inr ⟨(s₃, l₂.head?), l₂.length, ?_, by simp, l₁ ++ [a], l₂, by simp [hl], rfl, rfl, hp₃⟩
    simp only [List.head?_cons, epollPollPass, ← hs₃, hnext, Option.bind_eq_bind,
      Option.bind_some, Option.pure_def]

/-- `epoll_poll_fds` returns, having polled all items. -/
theorem epollPollFds_spec {t : RBTree ℕ} (ht : ItemsTree s i t) (answer : ℤ → BitVec 32) :
    ∃ s', epollPollFds s i answer = some s' ∧ PolledBy answer s s' t.toList := by
  have hlen := ht.length_le
  have hstart : PolledBy answer s s [] :=
    ⟨⟨rfl, rfl, rfl, fun _ => ⟨rfl, rfl⟩⟩, fun _ => ⟨rfl, rfl⟩,
      fun a ha => absurd ha List.not_mem_nil⟩
  obtain ⟨s', hs', hp⟩ := loop_of_variant (n := epollFuel) (s := (s, t.toList.head?))
    (epollPollPass_spec ht answer) ⟨[], t.toList, rfl, rfl, rfl, hstart⟩ (Nat.lt_succ_of_le hlen)
  refine ⟨s', ?_, hp⟩
  rw [epollPollFds, rbFirst_spec epollFuel ht.repr (Nat.le_succ_of_le hlen)]
  exact hs'

/-- The items of `l` that have an event, at most `maxevents`. -/
def Epoll.reported (s : Epoll) (l : List ℕ) (maxevents : ℤ) : List ℕ :=
  (l.filter fun a => (s.items a).revents ≠ 0).take maxevents.toNat

/-- What is reported of an item. -/
def EpollItem.report (e : EpollItem) : EpollEvent := ⟨e.revents, e.userData⟩

/-- A pass of the collection goes on to the next item, or is over. -/
theorem epollCollectPass_spec {t : RBTree ℕ} (ht : ItemsTree s i t) (maxevents : ℤ) (k : ℕ)
    (st : Option ℕ × List EpollEvent)
    (hst : ∃ l₁ l₂, t.toList = l₁ ++ l₂ ∧ st.1 = l₂.head? ∧ l₂.length = k ∧
      st.2 = (l₁.filter fun a => (s.items a).revents ≠ 0).map (fun a => (s.items a).report) ∧
      (st.2.length : ℤ) ≤ maxevents) :
    (∃ r, epollCollectPass s i maxevents st = some (.done r) ∧
      r = (s.reported t.toList maxevents).map fun a => (s.items a).report) ∨
    ∃ st' k', epollCollectPass s i maxevents st = some (.next st') ∧ k' < k ∧
      ∃ l₁ l₂, t.toList = l₁ ++ l₂ ∧ st'.1 = l₂.head? ∧ l₂.length = k' ∧
        st'.2 = (l₁.filter fun a => (s.items a).revents ≠ 0).map (fun a => (s.items a).report) ∧
        (st'.2.length : ℤ) ≤ maxevents := by
  obtain ⟨node, events⟩ := st
  obtain ⟨l₁, l₂, hl, hnode, hk, hevents, hle⟩ := hst
  dsimp only at hnode hevents hle
  have hlen : events.length = (l₁.filter fun a => (s.items a).revents ≠ 0).length := by
    rw [hevents, List.length_map]
  subst hnode hk
  cases l₂ with
  | nil =>
    rw [List.append_nil] at hl
    refine .inl ⟨events, rfl, ?_⟩
    rw [hevents, Epoll.reported, hl, List.take_of_length_le (by omega)]
  | cons a l₂ =>
    have hnext : rbNext epollFuel (s.tree i) a = some l₂.head? :=
      rbNext_spec epollFuel ht.repr hl (Nat.le_succ_of_le ht.length_le)
    by_cases hmax : (events.length : ℤ) < maxevents
    · refine .inr ⟨(l₂.head?, if (s.items a).revents ≠ 0 then
          events ++ [⟨(s.items a).revents, (s.items a).userData⟩] else events), l₂.length, ?_,
        by simp, l₁ ++ [a], l₂, by simp [hl], rfl, rfl, ?_, ?_⟩
      · simp only [List.head?_cons, epollCollectPass, hmax, if_true, hnext, Option.bind_eq_bind,
          Option.bind_some, Option.pure_def]
      · rw [List.filter_append, List.map_append, ← hevents]
        by_cases hrev : (s.items a).revents = 0
        · rw [List.filter_cons_of_neg (by simpa using hrev)]
          simp [hrev]
        · rw [List.filter_cons_of_pos (by simpa using hrev), if_pos hrev]
          rfl
      · dsimp only
        split_ifs
        · rw [List.length_append, List.length_singleton]
          omega
        · exact hle
    · refine .inl ⟨events, ?_, ?_⟩
      · simp only [List.head?_cons, epollCollectPass, hmax, if_false]
      · rw [hevents, Epoll.reported, hl, List.filter_append, List.take_left' (by omega)]

/-- `epoll_wait` on an instance in use polls its items, and reports the first ones that have an
    event. -/
theorem epollWait_reports (h : EpollInv s ts) {epfd : ℤ} (hinst : epollGetInstance s epfd = some i)
    {maxevents : ℤ} (hmax : 0 < maxevents) (answer : ℤ → BitVec 32) :
    ∃ s', PolledBy answer s s' (ts i).toList ∧ epollWait s epfd maxevents answer =
      some ((((s'.reported (ts i).toList maxevents).length : ℤ),
        (s'.reported (ts i).toList maxevents).map fun a => (s'.items a).report), s') := by
  obtain ⟨hi, -⟩ := h.epollGetInstance_eq_some.1 hinst
  obtain ⟨s', hs', hp⟩ := epollPollFds_spec (h.tree i hi).1 answer
  have ht' := ((hp.toOnlyPolled.inv h).1.tree i (by rw [hp.instances]; exact hi)).1
  have hlen := ht'.length_le
  obtain ⟨events, hevents, rfl⟩ := loop_of_variant (n := epollFuel) (s := ((ts i).toList.head?, []))
    (epollCollectPass_spec ht' maxevents)
    ⟨[], (ts i).toList, rfl, rfl, rfl, rfl, by simp only [List.length_nil]; omega⟩
    (Nat.lt_succ_of_le hlen)
  refine ⟨s', hp, ?_⟩
  rw [epollWait, hinst]
  simp only [hmax.not_ge, if_false, hs', Option.bind_eq_bind, Option.bind_some,
    rbFirst_spec epollFuel ht'.repr (Nat.le_succ_of_le hlen), hevents, Option.pure_def,
    List.length_map]

/-- `epoll_wait` returns, and changes no map; it reports the first items of the instance that
    have an event, each of an open descriptor. -/
theorem epollWait_spec (h : EpollInv s ts) (epfd maxevents : ℤ) (answer : ℤ → BitVec 32) :
    ∃ r s', epollWait s epfd maxevents answer = some (r, s') ∧ EpollInv s' ts ∧
      s'.maps = s.maps ∧ (∀ fd, s'.Open fd ↔ s.Open fd) ∧
      ∀ i, epollGetInstance s epfd = some i → 0 < maxevents →
        r.2 = (s'.reported (ts i).toList maxevents).map (fun a => (s'.items a).report) ∧
        ∀ a ∈ s'.reported (ts i).toList maxevents, s.Open (s.items a).fd := by
  cases hinst : epollGetInstance s epfd with
  | none =>
    exact ⟨(-1, []), s, by rw [epollWait, hinst], h, rfl, fun _ => Iff.rfl,
      fun i hi => by cases hi⟩
  | some i =>
    by_cases hmax : maxevents ≤ 0
    · refine ⟨(-1, []), s, ?_, h, rfl, fun _ => Iff.rfl, fun i _ hpos => absurd hmax hpos.not_ge⟩
      rw [epollWait, hinst]
      simp only [hmax, if_true]
    · obtain ⟨s', hp, hwait⟩ := epollWait_reports h hinst (not_le.1 hmax) answer
      obtain ⟨hinv, hmaps⟩ := hp.toOnlyPolled.inv h
      refine ⟨_, s', hwait, hinv, hmaps, hp.polled.isOpen, fun j hj _ => ?_⟩
      obtain rfl : i = j := Option.some_inj.1 hj
      refine ⟨rfl, fun a ha => ?_⟩
      obtain ⟨ha, hrev⟩ := List.mem_filter.1 (List.mem_of_mem_take ha)
      exact hp.polled.revents a ha (by simpa using hrev)

/-! ## Creating and closing -/

/-- `epoll_create` takes an instance that is not in use, with an empty map. -/
theorem epollCreate_spec (h : EpollInv s ts) :
    EpollInv (epollCreate s).2 ts ∧
      EpollSpec s.Open True s.maps .create (epollCreate s).1 (epollCreate s).2.maps := by
  rw [epollCreate]
  cases hfind : (List.finRange maxEpollInstances).find? fun i => !(s.instances i).inUse with
  | none =>
    refine ⟨h, .inr ⟨fun i hi => ?_, rfl, rfl⟩⟩
    have hused := List.find?_eq_none.1 hfind i (List.mem_finRange i)
    rw [EpollInv.maps_eq_none_iff] at hi
    simp [hi] at hused
  | some i =>
    have hi : (s.instances i).inUse = false := by simpa using List.find?_some hfind
    set s' : Epoll := { s with
      instances := Function.update s.instances i ⟨-(i + 1), none, 0, true⟩ } with hs'
    have hsame : s'.instances i = ⟨-(i + 1), none, 0, true⟩ := Function.update_self _ _ _
    have hother : ∀ j ≠ i, s'.instances j = s.instances j := fun j hj =>
      Function.update_of_ne hj _ _
    have hnil := h.unused i hi
    have hempty : ItemsTree s' i nil :=
      ⟨⟨by rw [Epoll.tree, hsame]; rfl, trivial, List.nodup_nil⟩, isRB_nil, List.Pairwise.nil,
        by simp, by rw [hsame]; rfl⟩
    have hinv : EpollInv s' ts := by
      refine ⟨fun j hj => ?_, fun j hj => ?_, h.disjoint, h.live⟩
      · by_cases hji : j = i
        · subst hji
          rw [hnil, hsame]
          exact ⟨hempty, rfl⟩
        · rw [hother j hji] at hj ⊢
          exact ⟨(h.tree j hj).1.congr (hother j hji) (fun _ _ => rfl) fun _ _ => rfl,
            (h.tree j hj).2⟩
      · by_cases hji : j = i
        · rw [hji, hnil]
        · rw [hother j hji] at hj
          exact h.unused j hj
    refine ⟨hinv, .inl ⟨i, (EpollInv.maps_eq_none_iff s i).2 hi, rfl, ?_⟩⟩
    funext j
    by_cases hji : j = i
    · subst hji
      rw [Function.update_self, hinv.maps_of_inUse (by rw [hsame]), hnil]
      rfl
    · rw [Function.update_of_ne hji, Epoll.maps, Epoll.maps, hother j hji]

theorem Touches.trans {s₁ s₂ : Epoll} {l l' : List ℕ} (h : Touches s s₁ i l)
    (h' : Touches s₁ s₂ i l') (hsub : ∀ a ∈ l', a ∈ l) : Touches s s₂ i l where
  nodes a ha := (h'.nodes a fun ha' => ha (hsub a ha')).trans (h.nodes a ha)
  items a ha := (h'.items a fun ha' => ha (hsub a ha')).trans (h.items a ha)
  others j hj := (h'.others j hj).trans (h.others j hj)
  inUse := h'.inUse.trans h.inUse
  epfd := h'.epfd.trans h.epfd

/-- The tree of an instance is changed, and one of its items freed. -/
theorem touches_kfree {l : List ℕ} {tl : RbState ℕ} (hu : Untouched l (s.tree i) tl) {a : ℕ}
    (ha : a ∈ l) : Touches s ((s.setTree i tl).kfree a) i l where
  nodes b hb := (Epoll.kfree_nodes_ne _ (ne_of_mem_of_not_mem ha hb).symm).trans (hu b hb)
  items b hb := Epoll.kfree_items_ne _ (ne_of_mem_of_not_mem ha hb).symm
  others j hj := by rw [Epoll.kfree_instances, Epoll.setTree_ne _ _ hj]
  inUse := by rw [Epoll.kfree_instances, Epoll.setTree_same]
  epfd := by rw [Epoll.kfree_instances, Epoll.setTree_same]

/-- In a pass of `epoll_close` at the first item, which is followed by those of `l`: `rb_next` finds
    the next one, and once the item is erased and freed those of `l` are left. The number of items
    is left as it was. -/
theorem closeItem_spec {t : RBTree ℕ} (ht : ItemsTree (s.setNumItems i t.toList.length) i t) {a : ℕ}
    {l : List ℕ} (hl : t.toList = a :: l) :
    rbNext epollFuel (s.tree i) a = some l.head? ∧ ∃ tl t',
      rbErase epollFuel (s.tree i) a = some tl ∧ t'.toList = l ∧
      Untouched t.toList (s.tree i) tl ∧
      ItemsTree (((s.setTree i tl).kfree a).setNumItems i t'.toList.length) i t' := by
  have hsplit : t.toList = [] ++ a :: l := hl
  have htree : (s.setNumItems i t.toList.length).tree i = s.tree i := by
    rw [Epoll.tree, Epoll.setNumItems_same]
    rfl
  obtain ⟨tl, t', htl, hl', hu, ht'⟩ := ht.erase hsplit
  rw [htree] at htl hu
  refine ⟨?_, tl, t', htl, hl', hu, ?_, ht'.rb, ht'.sorted, ht'.range,
    by rw [Epoll.setNumItems_same]⟩
  · rw [← htree]
    exact rbNext_spec epollFuel ht.repr hsplit (Nat.le_succ_of_le ht.length_le)
  · -- The erasure was of a tree with the right number of items.
    have hrepr := ht'.repr
    simp only [Epoll.tree, Epoll.kfree_instances, Epoll.setNumItems_same, Epoll.setTree_same]
      at hrepr ⊢
    exact hrepr

theorem ItemsTree.setNumItems_eq {t : RBTree ℕ} (ht : ItemsTree s i t) :
    s.setNumItems i t.toList.length = s := by
  rw [← ht.numItems, Epoll.setNumItems]
  have hsame : Function.update s.instances i (s.instances i) = s.instances :=
    Function.update_eq_self i s.instances
  rw [show ({ s.instances i with numItems := (s.instances i).numItems } : EpollInstance) =
    s.instances i from rfl, hsame]

/-- A pass of `epoll_close` erases the first item and goes on to the next, or there is
    none left. -/
theorem epollClosePass_spec (l₀ : List ℕ) (k : ℕ) (st : Epoll × Option ℕ)
    (hst : Touches s st.1 i l₀ ∧ (∀ a ∈ s.live, a ∉ l₀ → a ∈ st.1.live) ∧ ∃ t : RBTree ℕ,
      ItemsTree (st.1.setNumItems i t.toList.length) i t ∧ (∀ a ∈ t.toList, a ∈ l₀) ∧
      st.2 = t.toList.head? ∧ t.toList.length = k) :
    (∃ r, epollClosePass i st = some (.done r) ∧
      Touches s r i l₀ ∧ ∀ a ∈ s.live, a ∉ l₀ → a ∈ r.live) ∨
    ∃ st' k', epollClosePass i st = some (.next st') ∧ k' < k ∧ Touches s st'.1 i l₀ ∧
      (∀ a ∈ s.live, a ∉ l₀ → a ∈ st'.1.live) ∧ ∃ t : RBTree ℕ,
        ItemsTree (st'.1.setNumItems i t.toList.length) i t ∧ (∀ a ∈ t.toList, a ∈ l₀) ∧
        st'.2 = t.toList.head? ∧ t.toList.length = k' := by
  obtain ⟨s₁, node⟩ := st
  obtain ⟨htouch, hlive, t, ht, hsub, hnode, hk⟩ := hst
  dsimp only at htouch hlive ht hnode
  subst hnode hk
  cases hl : t.toList with
  | nil => exact .inl ⟨s₁, rfl, htouch, hlive⟩
  | cons a l =>
    obtain ⟨hnext, tl, t', htl, rfl, hu, ht'⟩ := closeItem_spec ht hl
    have ha : a ∈ t.toList := by rw [hl]; exact List.mem_cons_self
    refine .inr ⟨((s₁.setTree i tl).kfree a, t'.toList.head?), t'.toList.length, ?_, by simp,
      htouch.trans (touches_kfree hu ha) hsub, fun b hb hbl => ?_, t', ht', fun b hb => ?_, rfl,
      rfl⟩
    · simp only [List.head?_cons, epollClosePass, hnext, htl, Option.bind_eq_bind, Option.bind_some,
        Option.pure_def]
    · have hba : b ≠ a := fun hba => hbl (hba ▸ hsub a ha)
      exact (List.mem_erase_of_ne hba).2 (hlive b hb hbl)
    · exact hsub b (by rw [hl]; exact List.mem_cons_of_mem _ hb)

/-- `epoll_close` gives up the instance and its map. -/
theorem epollClose_spec (h : EpollInv s ts) (epfd : ℤ) :
    ∃ r s' ts', epollClose s epfd = some (r, s') ∧ EpollInv s' ts' ∧
      EpollSpec s.Open True s.maps (.close epfd) r s'.maps := by
  cases hinst : epollGetInstance s epfd with
  | none =>
    exact ⟨-1, s, ts, by rw [epollClose, hinst], h,
      .inr ⟨fun i hi => h.epollGetInstance_eq_none hinst i hi, rfl, rfl⟩⟩
  | some i =>
    obtain ⟨hi, hepfd⟩ := h.epollGetInstance_eq_some.1 hinst
    have ht := (h.tree i hi).1
    have hlen := ht.length_le
    obtain ⟨s₁, hs₁, htouch, hlive⟩ := loop_of_variant (n := epollFuel)
      (s := (s, (ts i).toList.head?))
      (epollClosePass_spec (s := s) (i := i) (ts i).toList)
      ⟨⟨fun _ _ => rfl, fun _ _ => rfl, fun _ _ => rfl, rfl, rfl⟩, fun _ ha _ => ha, ts i,
        by rw [ht.setNumItems_eq]; exact ht, fun _ ha => ha, rfl, rfl⟩ (Nat.lt_succ_of_le hlen)
    set s' : Epoll := { s₁ with instances := Function.update s₁.instances i .unused } with hs'
    have hsame : s'.instances i = .unused := Function.update_self _ _ _
    have hother : ∀ j ≠ i, s'.instances j = s.instances j := fun j hj =>
      (Function.update_of_ne hj _ _).trans (htouch.others j hj)
    have hkept : ∀ j ≠ i, ∀ a ∈ (ts j).toList, a ∉ (ts i).toList := fun j hj =>
      h.disjoint j i hj
    have htree : ∀ j ≠ i, (s.instances j).inUse = true → ItemsTree s' j (ts j) := fun j hj hu =>
      (h.tree j hu).1.congr (hother j hj) (fun a ha => htouch.nodes a (hkept j hj a ha))
        fun a ha => by rw [show s'.items a = s.items a from htouch.items a (hkept j hj a ha)]
    have hinv : EpollInv s' (Function.update ts i nil) := by
      refine ⟨fun j hj => ?_, fun j hj => ?_, fun j k hjk a ha => ?_, fun j a ha => ?_⟩
      · have hji : j ≠ i := fun hji => by
          rw [hji, hsame] at hj
          cases hj
        rw [hother j hji] at hj ⊢
        rw [Function.update_of_ne hji]
        exact ⟨htree j hji hj, (h.tree j hj).2⟩
      · by_cases hji : j = i
        · rw [hji, Function.update_self]
        · rw [hother j hji] at hj
          rw [Function.update_of_ne hji]
          exact h.unused j hj
      · by_cases hji : j = i
        · rw [hji, Function.update_self] at ha
          cases ha
        · rw [Function.update_of_ne hji] at ha
          by_cases hki : k = i
          · rw [hki, Function.update_self]
            exact List.not_mem_nil
          · rw [Function.update_of_ne hki]
            exact h.disjoint j k hjk a ha
      · by_cases hji : j = i
        · rw [hji, Function.update_self] at ha
          cases ha
        · rw [Function.update_of_ne hji] at ha
          exact hlive a (h.live j a ha) (hkept j hji a ha)
    refine ⟨0, s', _, ?_, hinv, .inl ⟨i, hepfd, ?_, rfl, ?_⟩⟩
    · rw [epollClose, hinst]
      simp only [rbFirst_spec epollFuel ht.repr (Nat.le_succ_of_le hlen), Option.bind_eq_bind,
        Option.bind_some, hs₁, Option.pure_def, hs']
    · rw [h.maps_of_inUse hi]
      exact Option.some_ne_none _
    · funext j
      by_cases hji : j = i
      · subst hji
        rw [Function.update_self, EpollInv.maps_eq_none_iff, hsame]
        rfl
      · rw [Function.update_of_ne hji]
        cases hu : (s.instances j).inUse with
        | true =>
          rw [hinv.maps_of_inUse (by rw [hother j hji, hu]), Function.update_of_ne hji,
            h.maps_of_inUse hu]
          congr 1
          refine itemsMap_congr fun a ha => ?_
          rw [show s'.items a = s.items a from htouch.items a (hkept j hji a ha)]
          exact ⟨rfl, rfl⟩
        | false =>
          rw [(EpollInv.maps_eq_none_iff s j).2 hu, EpollInv.maps_eq_none_iff, hother j hji, hu]

/-! ## Runs -/

/-- Whether the allocation that a call may make succeeds. -/
def Epoll.AllocatesFor (s : Epoll) : EpollCall → Prop
  | .ctl _ _ _ _ block => s.Allocates block
  | _ => True

/-- Every call returns, keeps the invariant, and does what the specification says. -/
theorem epollCall_spec (h : EpollInv s ts) (call : EpollCall) :
    ∃ r s' ts', epollCall s call = some (r, s') ∧ EpollInv s' ts' ∧
      EpollSpec s.Open (s.AllocatesFor call) s.maps call r s'.maps := by
  cases call with
  | fdAlloc type context ops =>
    have hp : OnlyPolled s (fdAlloc s type context ops).2 := by
      rw [fdAlloc]
      dsimp only
      split <;> exact ⟨rfl, rfl, rfl, fun _ => ⟨rfl, rfl⟩⟩
    exact ⟨_, _, ts, rfl, (hp.inv h).1, (hp.inv h).2⟩
  | fdClose fd =>
    have hp : OnlyPolled s (fdClose s fd).2 := by
      rw [fdClose]
      split <;> exact ⟨rfl, rfl, rfl, fun _ => ⟨rfl, rfl⟩⟩
    exact ⟨_, _, ts, rfl, (hp.inv h).1, (hp.inv h).2⟩
  | create => exact ⟨_, _, ts, rfl, (epollCreate_spec h).1, (epollCreate_spec h).2⟩
  | ctl epfd op fd event block => exact epollCtl_spec h epfd op fd event block
  | wait epfd maxevents answer =>
    obtain ⟨r, s', hs', hinv, hmaps, -⟩ := epollWait_spec h epfd maxevents answer
    exact ⟨r.1, s', ts, by rw [epollCall, hs', Option.map_some], hinv, hmaps⟩
  | close epfd => exact epollClose_spec h epfd

/-- A call that returns an error changes no map, by the specification. -/
theorem EpollSpec.error {isOpen : ℤ → Prop} {allocated : Prop} {maps maps' : EpollMaps}
    {call : EpollCall} {r : ℤ} (h : EpollSpec isOpen allocated maps call r maps')
    (herr : call.Error r) : maps' = maps := by
  cases call with
  | fdAlloc type context ops => exact h
  | fdClose fd => exact h
  | create =>
    rcases h with ⟨i, -, hr, -⟩ | ⟨-, -, hmaps⟩
    · rw [EpIndex.epfd] at hr
      rw [EpollCall.Error] at herr
      have hlt : (i : ℕ) < 16 := i.isLt
      omega
    · exact hmaps
  | ctl epfd op fd event block =>
    rcases h with ⟨i, m, -, -, -, hr, -⟩ | ⟨-, -, hmaps⟩
    · subst hr
      cases herr
    · exact hmaps
  | wait epfd maxevents answer => exact h
  | close epfd =>
    rcases h with ⟨i, -, -, hr, -⟩ | ⟨-, -, hmaps⟩
    · subst hr
      cases herr
    · exact hmaps

/-- The instance `i`, in use, is the finite map `m`: its tree is a red-black tree with
    strictly ascending descriptors, `num_items` is the size of the map, and
    `epoll_find_item` finds what the map holds. -/
structure IsEpollMap (s : Epoll) (i : EpIndex) (m : ℤ → Option EpollEvent) : Prop where
  tree : ∃ t : RBTree ℕ, Represents (s.tree i) t ∧ t.IsRB ∧
    t.toList.Pairwise fun a b => (s.items a).fd < (s.items b).fd
  finite : Set.Finite {fd | m fd ≠ none}
  numItems : (s.instances i).numItems = Set.ncard {fd | m fd ≠ none}
  find : ∀ fd, ∃ r, epollFindItem s i fd = some r ∧
    r.map (fun a => (s.items a).event) = m fd ∧ ∀ a, r = some a → (s.items a).fd = fd

theorem ItemsTree.isEpollMap {t : RBTree ℕ} (ht : ItemsTree s i t) :
    IsEpollMap s i (itemsMap s.items t.toList) := by
  have hdom : {fd | itemsMap s.items t.toList fd ≠ none} =
      ((t.toList.map fun a => (s.items a).fd).toFinset : Set ℤ) := by
    ext fd
    simp [itemsMap_eq_none]
  have hnd : (t.toList.map fun a => (s.items a).fd).Nodup :=
    List.pairwise_map.2 (ht.sorted.imp fun hab heq => absurd heq hab.ne)
  refine ⟨⟨t, ht.repr, ht.rb, ht.sorted⟩, ?_, ?_, fun fd => ?_⟩
  · rw [hdom]
    exact Finset.finite_toSet _
  · rw [hdom, Set.ncard_coe_finset, List.toFinset_card_of_nodup hnd, List.length_map, ht.numItems]
  · refine ⟨_, epollFindItem_spec ht fd, rfl, fun a ha => ?_⟩
    simpa using List.find?_some ha

/-- The two subsystems when the machine starts: zeros. -/
def Epoll.boot : Epoll where
  fds _ := ⟨0, 0, 0, 0, none, 0⟩
  nextFd := 0
  instances _ := ⟨0, none, 0, false⟩
  nodes _ := ⟨none, none, none, .red⟩
  items _ := ⟨0, 0, 0, 0⟩
  live := []
  junk _ := ⟨⟨none, none, none, .red⟩, ⟨0, 0, 0, 0⟩⟩

/-- The invariant after `epoll_init` and `fd_init`. -/
theorem epollInv_init (s₀ : Epoll) : EpollInv (fdInit (epollInit s₀)) fun _ => nil :=
  ⟨fun _ hi => absurd hi Bool.false_ne_true, fun _ _ => rfl,
    fun _ _ _ _ ha => absurd ha List.not_mem_nil, fun _ _ ha => absurd ha List.not_mem_nil⟩

/-- The invariant along runs. -/
theorem run_epollInv (s₀ : Epoll) (calls : List EpollCall) :
    ∃ s, run (fun s c => (epollCall s c).map Prod.snd) (fdInit (epollInit s₀)) calls = some s ∧
      ∃ ts, EpollInv s ts := by
  refine run_of_invariant (fun s c hs => ?_) ⟨_, epollInv_init s₀⟩ calls
  obtain ⟨ts, h⟩ := hs
  obtain ⟨r, s', ts', hs', h', -⟩ := epollCall_spec h c
  exact ⟨s', by rw [hs', Option.map_some], ts', h'⟩

/-- In every run of calls on descriptors and epoll instances, after `epoll_init` and
    `fd_init`, every instance in use is a finite map, every call returns and does to the
    maps what the specification says, and a call that returns an error changes none. -/
theorem epoll_refines_maps (s₀ : Epoll) (calls : List EpollCall) :
    ∃ s, run (fun s c => (epollCall s c).map Prod.snd) (fdInit (epollInit s₀)) calls = some s ∧
      (∀ i m, s.maps i = some m → IsEpollMap s i m) ∧
      ∀ call, ∃ r s', epollCall s call = some (r, s') ∧
        EpollSpec s.Open (s.AllocatesFor call) s.maps call r s'.maps ∧
        (call.Error r → s'.maps = s.maps) := by
  obtain ⟨s, hs, ts, h⟩ := run_epollInv s₀ calls
  refine ⟨s, hs, fun i m hm => ?_, fun call => ?_⟩
  · have hi := EpollInv.inUse_of_maps hm
    rw [h.maps_of_inUse hi, Option.some_inj] at hm
    exact hm ▸ (h.tree i hi).1.isEpollMap
  · obtain ⟨r, s', ts', hs', -, hspec⟩ := epollCall_spec h call
    exact ⟨r, s', hs', hspec, hspec.error⟩

end Fru1tOs
