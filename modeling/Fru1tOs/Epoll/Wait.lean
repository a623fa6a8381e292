import Fru1tOs.Epoll.Run

/-!
# Waiting

What `epoll_wait` writes in the array of its caller. The events that it collects are those of the
first items that have any, in the order of their descriptors; here the array is explicit
(`epollWaitInto`), and what is not an event of such an item is left in it (`epollWaitInto_eq`).

In terms of the map of an instance, with no tree: `epoll_wait_reports_ready`.
-/

namespace Fru1tOs

open Lib RBTree

/-! ## The array of the caller -/

/-- A pass of the collection of `epoll_wait`: the node it is at, `num_ready`, and the array
    `events`. -/
def epollCollectIntoPass (s : Epoll) (i : EpIndex) (maxevents : ℤ) :
    Option ℕ × ℕ × (ℕ → EpollEvent) →
      Option (Pass (Option ℕ × ℕ × (ℕ → EpollEvent)) (ℕ × (ℕ → EpollEvent)))
  | (none, numReady, events) => some (.done (numReady, events))
  | (some item, numReady, events) =>
    if numReady < maxevents then do
      let e := s.items item
      let (numReady, events) := if e.revents ≠ 0 then
          (numReady + 1, Function.update events numReady ⟨e.revents, e.userData⟩)
        else (numReady, events)
      let next ← rbNext epollFuel (s.tree i) item
      return .next (next, numReady, events)
    else some (.done (numReady, events))

/-- `epoll_wait`, with the array `events` that it is given. -/
def epollWaitInto (s : Epoll) (epfd : ℤ) (events : ℕ → EpollEvent) (maxevents : ℤ)
    (answer : ℤ → BitVec 32) : Option ((ℤ × (ℕ → EpollEvent)) × Epoll) :=
  match epollGetInstance s epfd with
  | none => some ((-1, events), s)
  | some i =>
    if maxevents ≤ 0 then some ((-1, events), s)
    else do
      let s ← epollPollFds s i answer
      let first ← rbFirst epollFuel (s.tree i)
      let (numReady, events) ←
        loop (epollCollectIntoPass s i maxevents) epollFuel (first, 0, events)
      return ((numReady, events), s)

/-- The array with the elements of a list from its start on. -/
def writeAll (events : ℕ → EpollEvent) (l : List EpollEvent) : ℕ → EpollEvent :=
  fun j => l[j]?.getD (events j)

theorem writeAll_concat (events : ℕ → EpollEvent) (l : List EpollEvent) (e : EpollEvent) :
    writeAll events (l ++ [e]) = Function.update (writeAll events l) l.length e := by
  funext j
  rcases lt_trichotomy j l.length with hj | rfl | hj
  · rw [Function.update_of_ne hj.ne, writeAll, writeAll, List.getElem?_append_left hj]
  · rw [Function.update_self, writeAll, List.getElem?_concat_length, Option.getD_some]
  · have hlen : (l ++ [e]).length ≤ j := by rwa [List.length_append, List.length_singleton]
    rw [Function.update_of_ne hj.ne', writeAll, writeAll, List.getElem?_eq_none hlen,
      List.getElem?_eq_none hj.le]

/-- The state of the collection in an array is that of the collection in a list. -/
def SameCollected (events : ℕ → EpollEvent) (st : Option ℕ × List EpollEvent)
    (st' : Option ℕ × ℕ × (ℕ → EpollEvent)) : Prop :=
  st' = (st.1, st.2.length, writeAll events st.2)

/-- A pass on the array does what the one that collects in a list does. -/
theorem epollCollectIntoPass_rel (s : Epoll) (i : EpIndex) (maxevents : ℤ) {events : ℕ → EpollEvent}
    {st : Option ℕ × List EpollEvent} {st' : Option ℕ × ℕ × (ℕ → EpollEvent)}
    (h : SameCollected events st st') :
    Option.Rel (PassRel (SameCollected events) fun l r => r = (l.length, writeAll events l))
      (epollCollectPass s i maxevents st) (epollCollectIntoPass s i maxevents st') := by
  obtain ⟨node, l⟩ := st
  rw [SameCollected] at h
  subst h
  cases node with
  | none => exact .some (.done rfl)
  | some item =>
    rw [epollCollectIntoPass, epollCollectPass]
    by_cases hmax : (l.length : ℤ) < maxevents
    · rw [if_pos hmax, if_pos hmax]
      rcases rbNext epollFuel (s.tree i) item with _ | next
      · exact .none
      · by_cases hrev : (s.items item).revents ≠ 0
        · simp only [if_pos hrev]
          refine .some (.next ?_)
          rw [SameCollected, writeAll_concat, List.length_append, List.length_singleton]
        · simp only [if_neg hrev]
          exact .some (.next rfl)
    · rw [if_neg hmax, if_neg hmax]
      exact .some (.done rfl)

/-- The array after `epoll_wait` has the events that were collected, and is as it was from there
    on. -/
theorem epollWaitInto_eq (s : Epoll) (epfd : ℤ) (events : ℕ → EpollEvent) (maxevents : ℤ)
    (answer : ℤ → BitVec 32) : epollWaitInto s epfd events maxevents answer =
      (epollWait s epfd maxevents answer).map fun r => ((r.1.1, writeAll events r.1.2), r.2) := by
  rw [epollWaitInto, epollWait]
  cases epollGetInstance s epfd with
  | none => rfl
  | some i =>
    dsimp only
    split_ifs
    · rfl
    · rcases epollPollFds s i answer with _ | s'
      · rfl
      · dsimp only [Option.bind_eq_bind, Option.bind_some]
        rcases rbFirst epollFuel (s'.tree i) with _ | first
        · rfl
        · have hloop := loop_rel (fun _ _ => epollCollectIntoPass_rel s' i maxevents) epollFuel
            (s := (first, [])) (show SameCollected events (first, []) (first, 0, events) from rfl)
          dsimp only [Option.bind_some]
          rw [← map_eq_of_optionRel hloop]
          cases loop (epollCollectPass s' i maxevents) epollFuel (first, []) <;> rfl

/-! ## What is reported -/

/-- The events that the descriptor has, of those it is monitored for. -/
def Epoll.readyMask (s : Epoll) (answer : ℤ → BitVec 32) (m : ℤ → Option EpollEvent) (fd : ℤ) :
    BitVec 32 :=
  match m fd with
  | none => 0
  | some e => epollEvents (fdPoll s answer fd).1 &&& e.events

/-- An instance with the map `m` reports in the array what is ready: `ready` are the descriptors
    that have events, in ascending order. -/
structure WaitReports (s : Epoll) (answer : ℤ → BitVec 32) (m : ℤ → Option EpollEvent)
    (maxevents : ℤ) (events : ℕ → EpollEvent) (r : ℤ) (events' : ℕ → EpollEvent)
    (ready : List ℤ) : Prop where
  sorted : ready.Pairwise (· < ·)
  mem_ready : ∀ fd, fd ∈ ready ↔ s.readyMask answer m fd ≠ 0
  /-- No closed descriptor is ready. -/
  isOpen : ∀ fd ∈ ready, s.Open fd
  count : r = min maxevents ready.length
  /-- The first ones are reported. -/
  written : ∀ j : ℕ, j < r → ∃ fd e, ready[j]? = some fd ∧ m fd = some e ∧
    events' j = ⟨s.readyMask answer m fd, e.data⟩
  /-- The array is as it was after them. -/
  kept : ∀ j : ℕ, r ≤ j → events' j = events j

section Reports

variable {s s' : Epoll} {i : EpIndex} {t : RBTree ℕ} {answer : ℤ → BitVec 32}

/-- An item is what the map has at its descriptor. -/
theorem ItemsTree.itemsMap_of_mem (h : ItemsTree s i t) {a : ℕ} (ha : a ∈ t.toList) :
    itemsMap s.items t.toList (s.items a).fd = some (s.items a).event := by
  obtain ⟨l₁, l₂, hl⟩ := List.append_of_mem ha
  rw [hl, itemsMap_middle (h.fd_ne hl), Function.update_self]

/-- The events of an item that was polled. -/
theorem PolledBy.readyMask (h : PolledBy answer s s' t.toList) (ht : ItemsTree s i t) {a : ℕ}
    (ha : a ∈ t.toList) :
    s.readyMask answer (itemsMap s.items t.toList) (s.items a).fd = (s'.items a).revents := by
  rw [Epoll.readyMask, ht.itemsMap_of_mem ha, h.mask a ha]
  rfl

/-- The report of the items that were polled. -/
theorem PolledBy.waitReports (h : PolledBy answer s s' t.toList) (ht : ItemsTree s i t)
    {maxevents : ℤ} (hmax : 0 < maxevents) (events : ℕ → EpollEvent) :
    WaitReports s answer (itemsMap s.items t.toList) maxevents events
      (s'.reported t.toList maxevents).length
      (writeAll events ((s'.reported t.toList maxevents).map fun a => (s'.items a).report))
      ((t.toList.filter fun a => (s'.items a).revents ≠ 0).map fun a => (s.items a).fd) := by
  have hready : ∀ fd, fd ∈ ((t.toList.filter fun a => (s'.items a).revents ≠ 0).map
      fun a => (s.items a).fd) ↔ s.readyMask answer (itemsMap s.items t.toList) fd ≠ 0 := by
    intro fd
    simp only [List.mem_map, List.mem_filter, decide_eq_true_iff]
    constructor
    · rintro ⟨a, ⟨ha, hrev⟩, rfl⟩
      rwa [h.readyMask ht ha]
    · intro hmask
      by_cases hnone : ∀ b ∈ t.toList, (s.items b).fd ≠ fd
      · rw [Epoll.readyMask, itemsMap_eq_none.2 hnone] at hmask
        exact absurd rfl hmask
      · push Not at hnone
        obtain ⟨a, ha, rfl⟩ := hnone
        rw [h.readyMask ht ha] at hmask
        exact ⟨a, ⟨ha, hmask⟩, rfl⟩
  refine ⟨?_, hready, fun fd hfd => ?_, ?_, fun j hj => ?_, fun j hj => ?_⟩
  · exact List.pairwise_map.2 (ht.sorted.filter _)
  · obtain ⟨a, ha, rfl⟩ := List.mem_map.1 hfd
    obtain ⟨ha, hrev⟩ := List.mem_filter.1 ha
    exact h.polled.revents a ha (by simpa using hrev)
  · rw [Epoll.reported, List.length_take, List.length_map]
    omega
  · -- The items that are reported are the first ones.
    have hlt : j < (s'.reported t.toList maxevents).length := by omega
    have hget := List.getElem?_eq_getElem hlt
    set a := (s'.reported t.toList maxevents)[j]
    have ha := List.mem_filter.1 (List.mem_of_mem_take (List.getElem_mem hlt))
    rw [Epoll.reported, List.length_take] at hlt
    have hfirst : (t.toList.filter fun a => (s'.items a).revents ≠ 0)[j]? = some a := by
      rw [← hget, Epoll.reported, List.getElem?_take_of_lt (by omega)]
    have hevent := (h.items a).2
    refine ⟨(s.items a).fd, _, by rw [List.getElem?_map, hfirst]; rfl, ht.itemsMap_of_mem ha.1, ?_⟩
    rw [writeAll, List.getElem?_map, hget, h.readyMask ht ha.1]
    exact congrArg (EpollEvent.mk _) (congrArg EpollEvent.data hevent)
  · rw [writeAll, List.getElem?_eq_none, Option.getD_none]
    rw [List.length_map]
    omega

end Reports

/-- In every state that calls on descriptors and epoll instances lead to, and with any descriptors,
    `epoll_wait` on an instance in use reports the descriptors that have some event they are
    monitored for, in ascending order and not more than asked for, each with these events and its
    data. It writes nothing else in the array, and no map changes. -/
theorem epoll_wait_reports_ready (s₀ : Epoll) (calls : List EpollCall) :
    ∃ s, run (fun s c => (epollCall s c).map Prod.snd) (fdInit (epollInit s₀)) calls = some s ∧
      ∀ (fds : Fin maxFds → Fd) (answer : ℤ → BitVec 32) (i : EpIndex) (m : ℤ → Option EpollEvent),
        s.maps i = some m → ∀ (events : ℕ → EpollEvent) (maxevents : ℤ), 0 < maxevents →
        ∃ r events' s' ready,
          epollWaitInto { s with fds := fds } i.epfd events maxevents answer =
            some ((r, events'), s') ∧
          WaitReports { s with fds := fds } answer m maxevents events r events' ready ∧
          s'.maps = s.maps := by
  obtain ⟨s, hs, ts, h⟩ := run_epollInv s₀ calls
  refine ⟨s, hs, fun fds answer i m hm events maxevents hmax => ?_⟩
  have hi := EpollInv.inUse_of_maps hm
  rw [h.maps_of_inUse hi, Option.some_inj] at hm
  subst hm
  -- Neither the trees nor the maps depend on the descriptors.
  set s₁ : Epoll := { s with fds := fds } with hs₁
  have hsame : OnlyPolled s s₁ := ⟨rfl, rfl, rfl, fun _ => ⟨rfl, rfl⟩⟩
  obtain ⟨h₁, hmaps₁⟩ := hsame.inv h
  have hinst : epollGetInstance s₁ i.epfd = some i := h₁.epollGetInstance_eq_some.2 ⟨hi, rfl⟩
  obtain ⟨s', hp, hwait⟩ := epollWait_reports h₁ hinst hmax answer
  refine ⟨_, _, s', _, ?_, hp.waitReports (h₁.tree i hi).1 hmax events,
    (hp.toOnlyPolled.inv h₁).2.trans hmaps₁⟩
  rw [epollWaitInto_eq, hwait, Option.map_some]

/-- Two descriptors are monitored for reading, and both are readable; there is room for one. -/
theorem epoll_wait_reports_ready_one : ∃ s,
    run (fun s c => (epollCall s c).map Prod.snd) (fdInit (epollInit .boot))
      [.fdAlloc 1 0 (some ⟨true, true⟩), .fdAlloc 1 0 (some ⟨true, true⟩), .create,
        .ctl (-1) epollCtlAdd 1 ⟨1, 8⟩ 4096, .ctl (-1) epollCtlAdd 0 ⟨1, 7⟩ 8192] = some s ∧
    ∃ m, s.maps 0 = some m ∧ ∃ r events' s' ready,
      epollWaitInto s (-1) (fun _ => ⟨0, 0⟩) 1 (fun _ => 3) = some ((r, events'), s') ∧
      WaitReports s (fun _ => 3) m 1 (fun _ => ⟨0, 0⟩) r events' ready ∧ s'.maps = s.maps := by
  obtain ⟨s, hs, h⟩ := epoll_wait_reports_ready .boot
    [.fdAlloc 1 0 (some ⟨true, true⟩), .fdAlloc 1 0 (some ⟨true, true⟩), .create,
      .ctl (-1) epollCtlAdd 1 ⟨1, 8⟩ 4096, .ctl (-1) epollCtlAdd 0 ⟨1, 7⟩ 8192]
  have hused : (run (fun s c => (epollCall s c).map Prod.snd) (fdInit (epollInit .boot))
      [.fdAlloc 1 0 (some ⟨true, true⟩), .fdAlloc 1 0 (some ⟨true, true⟩), .create,
        .ctl (-1) epollCtlAdd 1 ⟨1, 8⟩ 4096, .ctl (-1) epollCtlAdd 0 ⟨1, 7⟩ 8192]).all
      fun s => (s.instances 0).inUse := by decide +kernel
  rw [hs, Option.all_some] at hused
  have hm : s.maps 0 = some _ := if_pos hused
  exact ⟨s, hs, _, hm, h s.fds (fun _ => 3) 0 _ hm (fun _ => ⟨0, 0⟩) 1 (by decide)⟩

end Fru1tOs
