import Fru1tOs.Epoll.Run
import Fru1tOs.Lib.Guarded

/-!
# Stale registrations

The items of an epoll instance name descriptors by their numbers, and `fd_close` does not know
about them: an item stays when its descriptor is closed, and stands for the next one that
`fd_alloc` opens under the same number.

To say which opening of a number an item was added for, a run is traced (`Traced`): each call of
`fd_alloc` is an opening of its own, and an addition records the opening of the descriptor. If
no descriptor is ever opened under a number for which an item is left (`Epoll.OpensFresh`), then
`epoll_wait` only reports items of descriptors that are still open since (`no_stale_reports`).
-/

namespace Fru1tOs

open Lib RBTree

attribute [local instance] neZero_maxFds

/-- The two subsystems, with the calls of `fd_alloc` so far, the one that opened each open
    descriptor, and the one that had opened the descriptor of an item when it was added. -/
structure Traced where
  epoll : Epoll
  opened : ℕ
  opening : ℤ → Option ℕ
  added : EpIndex → ℤ → Option ℕ

/-- A state before any opening. -/
def Traced.start (s : Epoll) : Traced := ⟨s, 0, fun _ => none, fun _ _ => none⟩

/-- A call, traced. -/
def tracedCall (s : Traced) (c : EpollCall) : Option Traced :=
  (epollCall s.epoll c).map fun (r, e) =>
    match c with
    | .fdAlloc .. =>
      ⟨e, s.opened + 1, if 0 ≤ r then Function.update s.opening r (some s.opened) else s.opening,
        s.added⟩
    | .fdClose fd =>
      ⟨e, s.opened, if (fdGet e fd).isNone then Function.update s.opening fd none else s.opening,
        s.added⟩
    | .ctl epfd op fd _ _ =>
      match epollGetInstance s.epoll epfd with
      | some i =>
        if op = epollCtlAdd ∧ r = 0 then
          ⟨e, s.opened, s.opening, Function.update s.added i
            (Function.update (s.added i) fd (s.opening fd))⟩
        else ⟨e, s.opened, s.opening, s.added⟩
      | none => ⟨e, s.opened, s.opening, s.added⟩
    | _ => ⟨e, s.opened, s.opening, s.added⟩

/-- `epoll_wait` returns, and what it reports is about items whose descriptor is open, and was
    opened by the same call as when the item was added. -/
def Traced.ReportsFresh (s : Traced) (epfd maxevents : ℤ) (answer : ℤ → BitVec 32) : Prop :=
  ∃ r s', epollWait s.epoll epfd maxevents answer = some (r, s') ∧
    ∀ i, epollGetInstance s.epoll epfd = some i → 0 < maxevents →
      r.2 = (s'.reported (s.epoll.itemsOf i) maxevents).map (fun a => (s'.items a).report) ∧
      ∀ a ∈ s'.reported (s.epoll.itemsOf i) maxevents,
        s.epoll.Open (s.epoll.items a).fd ∧ s.opening (s.epoll.items a).fd ≠ none ∧
          s.added i (s.epoll.items a).fd = s.opening (s.epoll.items a).fd

/-- The number that `fd_alloc` gives next: the first free one from `next_fd` on. -/
def Epoll.nextFree (s : Epoll) : Option (Fin maxFds) :=
  ((List.finRange maxFds).map fun i => Fin.ofNat maxFds (s.nextFd + i)).find? fun fd =>
    (s.fds fd).type = 0

/-- No instance in use has an item for the number that `fd_alloc` gives next. -/
def Epoll.OpensFresh (s : Epoll) : Prop :=
  ∀ n, s.nextFree = some n → ∀ i m, s.maps i = some m → m n = none

/-! ## Descriptors -/

section Descriptors

variable {s s' : Epoll} {i : EpIndex} {r : ℤ}

theorem open_iff {fd : ℤ} : s.Open fd ↔ ∃ k : Fin maxFds, fd = k ∧ (s.fds k).type ≠ 0 := by
  rw [Epoll.Open, fdGet]
  constructor
  · intro h
    split_ifs at h with hrange
    · refine ⟨⟨fd.toNat, by omega⟩, by simp [hrange.1], fun htype => ?_⟩
      simp [htype] at h
    · cases h
  · rintro ⟨k, rfl, htype⟩
    have hk : (0 : ℤ) ≤ k ∧ (k : ℤ) < maxFds := ⟨by omega, by omega⟩
    have hsame : (⟨(k : ℤ).toNat, by omega⟩ : Fin maxFds) = k := Fin.ext (by simp)
    rw [dif_pos hk]
    dsimp only
    rw [hsame, if_neg htype]
    rfl

/-- Inserting an item leaves the descriptors alone. -/
theorem epollInsertItem_fds {item : ℕ} (h : epollInsertItem s i item = some (r, s')) :
    s'.fds = s.fds := by
  obtain ⟨place, -, h⟩ := Option.bind_eq_some_iff.1 h
  cases place with
  | none =>
    obtain ⟨-, rfl⟩ := Prod.mk.inj (Option.some_inj.1 h)
    rfl
  | some place =>
    obtain ⟨t, -, h⟩ := Option.bind_eq_some_iff.1 h
    obtain ⟨-, rfl⟩ := Prod.mk.inj (Option.some_inj.1 h)
    rfl

theorem epollAdd_fds {fd : ℤ} {event : EpollEvent} {block : ℕ}
    (h : epollAdd s i fd event block = some (r, s')) : s'.fds = s.fds := by
  obtain ⟨found, -, h⟩ := Option.bind_eq_some_iff.1 h
  split_ifs at h
  · obtain ⟨-, rfl⟩ := Prod.mk.inj (Option.some_inj.1 h)
    rfl
  · rw [Epoll.kmalloc] at h
    split_ifs at h
    · obtain ⟨-, rfl⟩ := Prod.mk.inj (Option.some_inj.1 h)
      rfl
    · obtain ⟨⟨r₁, s₁⟩, hs₁, h⟩ := Option.bind_eq_some_iff.1 h
      have hfds := epollInsertItem_fds hs₁
      dsimp only at h
      split_ifs at h
      · obtain ⟨-, rfl⟩ := Prod.mk.inj (Option.some_inj.1 h)
        exact hfds
      · obtain ⟨-, rfl⟩ := Prod.mk.inj (Option.some_inj.1 h)
        exact hfds

theorem epollDel_fds {fd : ℤ} (h : epollDel s i fd = some (r, s')) : s'.fds = s.fds := by
  obtain ⟨found, -, h⟩ := Option.bind_eq_some_iff.1 h
  cases found with
  | none =>
    obtain ⟨-, rfl⟩ := Prod.mk.inj (Option.some_inj.1 h)
    rfl
  | some item =>
    obtain ⟨t, -, h⟩ := Option.bind_eq_some_iff.1 h
    obtain ⟨-, rfl⟩ := Prod.mk.inj (Option.some_inj.1 h)
    rfl

theorem epollMod_fds {fd : ℤ} {event : EpollEvent} (h : epollMod s i fd event = some (r, s')) :
    s'.fds = s.fds := by
  obtain ⟨found, -, h⟩ := Option.bind_eq_some_iff.1 h
  cases found with
  | none =>
    obtain ⟨-, rfl⟩ := Prod.mk.inj (Option.some_inj.1 h)
    rfl
  | some item =>
    obtain ⟨-, rfl⟩ := Prod.mk.inj (Option.some_inj.1 h)
    rfl

/-- `epoll_ctl` opens and closes nothing. -/
theorem epollCtl_fds {epfd op fd : ℤ} {event : EpollEvent} {block : ℕ}
    (h : epollCtl s epfd op fd event block = some (r, s')) : s'.fds = s.fds := by
  rw [epollCtl] at h
  split at h
  · obtain ⟨-, rfl⟩ := Prod.mk.inj (Option.some_inj.1 h)
    rfl
  · split at h
    · obtain ⟨-, rfl⟩ := Prod.mk.inj (Option.some_inj.1 h)
      rfl
    · split_ifs at h
      · exact epollAdd_fds h
      · exact epollDel_fds h
      · exact epollMod_fds h
      · obtain ⟨-, rfl⟩ := Prod.mk.inj (Option.some_inj.1 h)
        rfl

/-- `epoll_close` opens and closes no descriptor. -/
theorem epollClose_fds {epfd : ℤ} (h : epollClose s epfd = some (r, s')) : s'.fds = s.fds := by
  rw [epollClose] at h
  split at h
  · obtain ⟨-, rfl⟩ := Prod.mk.inj (Option.some_inj.1 h)
    rfl
  · rename_i i _
    obtain ⟨first, -, h⟩ := Option.bind_eq_some_iff.1 h
    obtain ⟨s₁, hs₁, h⟩ := Option.bind_eq_some_iff.1 h
    obtain ⟨-, rfl⟩ := Prod.mk.inj (Option.some_inj.1 h)
    refine @loop_induction _ _ (epollClosePass i) (fun st => st.1.fds = s.fds)
      (fun s₁ => s₁.fds = s.fds) ?_ ?_ epollFuel (s, first) s₁ rfl hs₁
    · rintro ⟨s₂, item⟩ st' hfds h₂
      cases item with
      | none => cases h₂
      | some item =>
        obtain ⟨next, -, h₂⟩ := Option.bind_eq_some_iff.1 h₂
        obtain ⟨t, -, h₂⟩ := Option.bind_eq_some_iff.1 h₂
        obtain rfl := Pass.next.inj (Option.some_inj.1 h₂)
        exact hfds
    · rintro ⟨s₂, item⟩ r hfds h₂
      cases item with
      | none =>
        obtain rfl := Pass.done.inj (Option.some_inj.1 h₂)
        exact hfds
      | some item =>
        obtain ⟨next, -, h₂⟩ := Option.bind_eq_some_iff.1 h₂
        obtain ⟨t, -, h₂⟩ := Option.bind_eq_some_iff.1 h₂
        cases h₂

/-- `fd_alloc` opens the next free number, unless the type is that of an unused descriptor. -/
theorem fdAlloc_open {n : Fin maxFds} (h : s.nextFree = some n) (type : ℤ) (context : ℕ)
    (ops : Option FdOps) : (fdAlloc s type context ops).1 = n ∧
      ∀ fd, (fdAlloc s type context ops).2.Open fd ↔
        if fd = n then type ≠ 0 else s.Open fd := by
  rw [Epoll.nextFree] at h
  rw [fdAlloc]
  dsimp only
  rw [h]
  refine ⟨rfl, fun fd => ?_⟩
  rw [open_iff, open_iff]
  dsimp only
  split_ifs with hfd
  · refine ⟨?_, fun htype => ⟨n, hfd, by rw [Function.update_self]; exact htype⟩⟩
    rintro ⟨k, hk, htype⟩
    obtain rfl : k = n := Fin.ext (by omega)
    rwa [Function.update_self] at htype
  · refine exists_congr fun k => and_congr_right fun hk => ?_
    rw [Function.update_of_ne fun hkn => hfd (by rw [hk, hkn])]

theorem fdAlloc_full (h : s.nextFree = none) (type : ℤ) (context : ℕ) (ops : Option FdOps) :
    fdAlloc s type context ops = (-1, s) := by
  rw [Epoll.nextFree] at h
  rw [fdAlloc]
  dsimp only
  rw [h]

/-- `fd_close` opens nothing. -/
theorem fdClose_open (s : Epoll) (fd n : ℤ) (h : (fdClose s fd).2.Open n) : s.Open n := by
  rw [fdClose] at h
  split at h
  · exact h
  · rename_i k hget
    have hk : (s.fds k).type ≠ 0 := by
      rw [fdGet] at hget
      split_ifs at hget with hrange
      dsimp only at hget
      split_ifs at hget with htype
      obtain rfl := Option.some_inj.1 hget
      exact htype
    rw [open_iff] at h ⊢
    obtain ⟨j, rfl, htype⟩ := h
    refine ⟨j, rfl, ?_⟩
    dsimp only at htype
    rcases eq_or_ne j k with rfl | hjk
    · exact hk
    · rwa [Function.update_of_ne hjk] at htype

end Descriptors

/-! ## Runs -/

/-- The items of open descriptors were added since these were opened. -/
structure TracedInv (s : Traced) (ts : EpIndex → RBTree ℕ) : Prop where
  inv : EpollInv s.epoll ts
  opening : ∀ n, s.epoll.Open n → s.opening n ≠ none
  fresh : ∀ i m n, s.epoll.maps i = some m → m n ≠ none → s.epoll.Open n →
    s.added i n = s.opening n

namespace TracedInv

variable {s : Traced} {ts : EpIndex → RBTree ℕ}

/-- A wait reports items of the map of its instance. -/
theorem reports (h : TracedInv s ts) (epfd maxevents : ℤ) (answer : ℤ → BitVec 32) :
    s.ReportsFresh epfd maxevents answer := by
  obtain ⟨r, s', hs', -, -, -, hreport⟩ := epollWait_spec h.inv epfd maxevents answer
  refine ⟨r, s', hs', fun i hi hmax => ?_⟩
  obtain ⟨hr, hopen⟩ := hreport i hi hmax
  have hu := (h.inv.epollGetInstance_eq_some.1 hi).1
  rw [Epoll.itemsOf, h.inv.inorder_of_inUse hu]
  refine ⟨hr, fun a ha => ⟨hopen a ha, h.opening _ (hopen a ha), ?_⟩⟩
  refine h.fresh i _ _ (h.inv.maps_of_inUse hu) (fun hnone => ?_) (hopen a ha)
  exact itemsMap_eq_none.1 hnone a (List.mem_filter.1 (List.mem_of_mem_take ha)).1 rfl

/-- A call that opens nothing and adds no item keeps the invariant. -/
theorem keep (h : TracedInv s ts) {e : Epoll} {ts' : EpIndex → RBTree ℕ} {k : ℕ}
    {opening : ℤ → Option ℕ} (hinv : EpollInv e ts')
    (hopen : ∀ n, e.Open n → s.epoll.Open n ∧ opening n = s.opening n)
    (hmaps : ∀ i m n, e.maps i = some m → m n ≠ none →
      ∃ m₀, s.epoll.maps i = some m₀ ∧ m₀ n ≠ none) : TracedInv ⟨e, k, opening, s.added⟩ ts' := by
  refine ⟨hinv, fun n hn => ?_, fun i m n hm hmn hn => ?_⟩
  · obtain ⟨hn', heq⟩ := hopen n hn
    dsimp only
    rw [heq]
    exact h.opening n hn'
  · obtain ⟨hn', heq⟩ := hopen n hn
    obtain ⟨m₀, hm₀, hmn₀⟩ := hmaps i m n hm hmn
    exact (h.fresh i m₀ n hm₀ hmn₀ hn').trans heq.symm

/-- An opening, under a number for which no item is left. -/
theorem alloc (h : TracedInv s ts) {e : Epoll} {ts' : EpIndex → RBTree ℕ} {n : ℤ} {isOpen : Prop}
    (hinv : EpollInv e ts') (hopen : ∀ k, e.Open k ↔ if k = n then isOpen else s.epoll.Open k)
    (hmaps : e.maps = s.epoll.maps)
    (hnone : isOpen → ∀ i m, s.epoll.maps i = some m → m n = none) :
    TracedInv ⟨e, s.opened + 1, Function.update s.opening n (some s.opened), s.added⟩ ts' := by
  refine ⟨hinv, fun k hk => ?_, fun i m k hm hmk hk => ?_⟩
  · dsimp only at hk ⊢
    rcases eq_or_ne k n with rfl | hkn
    · rw [Function.update_self]
      exact Option.some_ne_none _
    · rw [hopen, if_neg hkn] at hk
      rw [Function.update_of_ne hkn]
      exact h.opening k hk
  · dsimp only at hm hk ⊢
    rw [hmaps] at hm
    rcases eq_or_ne k n with rfl | hkn
    · rw [hopen, if_pos rfl] at hk
      exact absurd (hnone hk i m hm) hmk
    · rw [hopen, if_neg hkn] at hk
      rw [Function.update_of_ne hkn]
      exact h.fresh i m k hm hmk hk

/-- The addition of an item for an open descriptor. -/
theorem add (h : TracedInv s ts) {e : Epoll} {ts' : EpIndex → RBTree ℕ} {j : EpIndex}
    {m₀ : ℤ → Option EpollEvent} {fd : ℤ} {event : Option EpollEvent} (hinv : EpollInv e ts')
    (hopen : ∀ n, e.Open n ↔ s.epoll.Open n) (hm₀ : s.epoll.maps j = some m₀)
    (hmaps : e.maps = Function.update s.epoll.maps j (some (Function.update m₀ fd event))) :
    TracedInv ⟨e, s.opened, s.opening, Function.update s.added j
      (Function.update (s.added j) fd (s.opening fd))⟩ ts' := by
  refine ⟨hinv, fun n hn => h.opening n ((hopen n).1 hn), fun i m n hm hmn hn => ?_⟩
  dsimp only at hm hn ⊢
  rcases eq_or_ne i j with rfl | hij
  · rw [hmaps, Function.update_self, Option.some_inj] at hm
    rw [Function.update_self]
    rcases eq_or_ne n fd with rfl | hnfd
    · rw [Function.update_self]
    · rw [← hm, Function.update_of_ne hnfd] at hmn
      rw [Function.update_of_ne hnfd]
      exact h.fresh i m₀ n hm₀ hmn ((hopen n).1 hn)
  · rw [hmaps, Function.update_of_ne hij] at hm
    rw [Function.update_of_ne hij]
    exact h.fresh i m n hm hmn ((hopen n).1 hn)

/-- `epoll_ctl` keeps the invariant: what it adds is an item of an open descriptor. -/
theorem ctl (h : TracedInv s ts) (epfd op fd : ℤ) (event : EpollEvent) (block : ℕ) :
    ∃ s' ts', tracedCall s (.ctl epfd op fd event block) = some s' ∧ TracedInv s' ts' := by
  obtain ⟨r, e, ts', he, hinv, hspec⟩ := epollCall_spec h.inv (.ctl epfd op fd event block)
  have hopen : ∀ n, e.Open n ↔ s.epoll.Open n := open_congr fun k => by rw [epollCtl_fds he]
  rw [tracedCall, he, Option.map_some]
  dsimp only
  rcases hspec with ⟨j, m₀, rfl, hm₀, hsucc, rfl, hmaps⟩ | ⟨-, rfl, hmaps⟩
  · have hj : (s.epoll.instances j).inUse = true := by
      by_contra hu
      rw [(EpollInv.maps_eq_none_iff _ j).2 (by simpa using hu)] at hm₀
      cases hm₀
    rw [h.inv.epollGetInstance_eq_some.2 ⟨hj, rfl⟩]
    refine ⟨_, ts', rfl, ?_⟩
    by_cases hop : op = epollCtlAdd
    · dsimp only
      rw [if_pos ⟨hop, rfl⟩]
      exact h.add hinv hopen hm₀ hmaps
    · dsimp only
      rw [if_neg fun hadd => hop hadd.1]
      refine h.keep hinv (fun n hn => ⟨(hopen n).1 hn, rfl⟩) fun i m n hm hmn => ?_
      rcases eq_or_ne i j with rfl | hij
      · -- The item that is changed, or deleted, was there.
        rw [hmaps, Function.update_self, Option.some_inj] at hm
        refine ⟨m₀, hm₀, ?_⟩
        rcases eq_or_ne n fd with rfl | hnfd
        · exact (hsucc.2.resolve_left fun hadd => hop hadd.1).2
        · rwa [← hm, ctlMap, Function.update_of_ne hnfd] at hmn
      · rw [hmaps, Function.update_of_ne hij] at hm
        exact ⟨m, hm, hmn⟩
  · have hkeep : TracedInv ⟨e, s.opened, s.opening, s.added⟩ ts' :=
      h.keep hinv (fun n hn => ⟨(hopen n).1 hn, rfl⟩) fun i m n hm hmn => ⟨m, hmaps ▸ hm, hmn⟩
    refine ⟨_, ts', rfl, ?_⟩
    split
    · rw [if_neg fun hadd => by simp at hadd]
      exact hkeep
    · exact hkeep

/-- A call keeps the invariant, unless it opens a descriptor for which an item is left. -/
theorem step (h : TracedInv s ts) (c : EpollCall)
    (hc : ∀ type context ops, c = .fdAlloc type context ops → type ≠ 0 → s.epoll.OpensFresh) :
    ∃ s' ts', tracedCall s c = some s' ∧ TracedInv s' ts' := by
  obtain ⟨r, e, ts', he, hinv, hspec⟩ := epollCall_spec h.inv c
  cases c with
  | fdAlloc type context ops =>
    have halloc : fdAlloc s.epoll type context ops = (r, e) := Option.some_inj.1 he
    rw [tracedCall, he, Option.map_some]
    refine ⟨_, ts', rfl, ?_⟩
    cases hnext : s.epoll.nextFree with
    | none =>
      rw [fdAlloc_full hnext, Prod.mk.injEq] at halloc
      obtain ⟨rfl, rfl⟩ := halloc
      exact h.keep hinv (fun n hn => ⟨hn, rfl⟩) fun i m n hm hmn => ⟨m, hm, hmn⟩
    | some n =>
      obtain ⟨hr, hopen⟩ := fdAlloc_open hnext type context ops
      rw [halloc] at hr hopen
      dsimp only at hr hopen ⊢
      rw [hr, if_pos (by omega)]
      exact h.alloc hinv hopen hspec fun htype => hc type context ops rfl htype n hnext
  | fdClose fd =>
    have hclose : fdClose s.epoll fd = (r, e) := Option.some_inj.1 he
    have hopen := fdClose_open s.epoll fd
    rw [hclose] at hopen
    rw [tracedCall, he, Option.map_some]
    refine ⟨_, ts', rfl, h.keep hinv (fun n hn => ⟨hopen n hn, ?_⟩) fun i m n hm hmn =>
      ⟨m, hspec ▸ hm, hmn⟩⟩
    -- A descriptor that is open was not closed.
    split_ifs with hnone
    · rw [Function.update_of_ne]
      rintro rfl
      rw [Epoll.Open, ← Option.not_isNone, hnone] at hn
      cases hn
    · rfl
  | create =>
    have hcreate : epollCreate s.epoll = (r, e) := Option.some_inj.1 he
    have hfds : e.fds = s.epoll.fds := by
      rw [← show (epollCreate s.epoll).2 = e from congrArg Prod.snd hcreate, epollCreate]
      split <;> rfl
    have hopen : ∀ n, e.Open n ↔ s.epoll.Open n := open_congr fun k => by rw [hfds]
    rw [tracedCall, he, Option.map_some]
    refine ⟨_, ts', rfl, h.keep hinv (fun n hn => ⟨(hopen n).1 hn, rfl⟩) fun i m n hm hmn => ?_⟩
    rcases hspec with ⟨j, -, -, hmaps⟩ | ⟨-, -, hmaps⟩
    · rcases eq_or_ne i j with rfl | hij
      · rw [hmaps, Function.update_self, Option.some_inj] at hm
        exact absurd (congrFun hm n).symm hmn
      · rw [hmaps, Function.update_of_ne hij] at hm
        exact ⟨m, hm, hmn⟩
    · exact ⟨m, hmaps ▸ hm, hmn⟩
  | ctl epfd op fd event block => exact h.ctl epfd op fd event block
  | wait epfd maxevents answer =>
    obtain ⟨r', e', he', -, -, hopen, -⟩ := epollWait_spec h.inv epfd maxevents answer
    rw [epollCall, he', Option.map_some, Option.some_inj, Prod.mk.injEq] at he
    obtain ⟨-, rfl⟩ := he
    rw [tracedCall, epollCall, he', Option.map_some, Option.map_some]
    exact ⟨_, ts', rfl, h.keep hinv (fun n hn => ⟨(hopen n).1 hn, rfl⟩) fun i m n hm hmn =>
      ⟨m, hspec ▸ hm, hmn⟩⟩
  | close epfd =>
    have hopen : ∀ n, e.Open n ↔ s.epoll.Open n := open_congr fun k => by rw [epollClose_fds he]
    rw [tracedCall, he, Option.map_some]
    refine ⟨_, ts', rfl, h.keep hinv (fun n hn => ⟨(hopen n).1 hn, rfl⟩) fun i m n hm hmn => ?_⟩
    rcases hspec with ⟨j, -, -, -, hmaps⟩ | ⟨-, -, hmaps⟩
    · rcases eq_or_ne i j with rfl | hij
      · rw [hmaps, Function.update_self] at hm
        cases hm
      · rw [hmaps, Function.update_of_ne hij] at hm
        exact ⟨m, hm, hmn⟩
    · exact ⟨m, hmaps ▸ hm, hmn⟩

end TracedInv

/-- A traced call is the call. -/
theorem tracedCall_epoll (s : Traced) (c : EpollCall) :
    (tracedCall s c).map Traced.epoll = (epollCall s.epoll c).map Prod.snd := by
  rw [tracedCall, Option.map_map]
  congr 1
  funext ⟨r, e⟩
  cases c with
  | ctl epfd op fd event block =>
    simp only [Function.comp_apply]
    cases epollGetInstance s.epoll epfd with
    | none => rfl
    | some i =>
      dsimp only
      split_ifs <;> rfl
  | _ => rfl

/-- A traced run is the run. -/
theorem run_tracedCall (s : Traced) (calls : List EpollCall) :
    (run tracedCall s calls).map Traced.epoll =
      run (fun s c => (epollCall s c).map Prod.snd) s.epoll calls := by
  induction calls generalizing s with
  | nil => rfl
  | cons c calls ih =>
    rw [run_cons, run_cons, ← tracedCall_epoll]
    cases tracedCall s c with
    | none => rfl
    | some s' => exact ih s'

/-- The calls run after `epoll_init` and `fd_init`, and every `epoll_wait` among them reports only
    items of descriptors that are open since before these were added. -/
def NoStaleReports (s₀ : Epoll) (calls : List EpollCall) : Prop :=
  (∃ s, run tracedCall (.start (fdInit (epollInit s₀))) calls = some s) ∧
    ∀ s₁ epfd maxevents answer, Makes tracedCall (.start (fdInit (epollInit s₀))) calls s₁
      (.wait epfd maxevents answer) → s₁.ReportsFresh epfd maxevents answer

/-- If `fd_alloc` opens no descriptor under a number for which an instance in use has an item, then
    nothing that is reported is about an earlier opening of its number. -/
theorem no_stale_reports (s₀ : Epoll) (calls : List EpollCall)
    (hfresh : ∀ s₁ type context ops, Makes tracedCall (.start (fdInit (epollInit s₀))) calls s₁
      (.fdAlloc type context ops) → type ≠ 0 → s₁.epoll.OpensFresh) : NoStaleReports s₀ calls := by
  suffices ∃ s, run tracedCall (.start (fdInit (epollInit s₀))) calls = some s ∧
      (∃ ts, TracedInv s ts) ∧
      ∀ s₁ c, Makes tracedCall (.start (fdInit (epollInit s₀))) calls s₁ c →
        ∃ ts, TracedInv s₁ ts by
    obtain ⟨s, hs, -, hmade⟩ := this
    refine ⟨⟨s, hs⟩, fun s₁ epfd maxevents answer h₁ => ?_⟩
    obtain ⟨ts₁, h₁⟩ := hmade s₁ _ h₁
    exact h₁.reports epfd maxevents answer
  induction calls using List.reverseRecOn with
  | nil =>
    have hclosed : ∀ n, ¬ (fdInit (epollInit s₀)).Open n := fun n hn => by
      obtain ⟨k, -, htype⟩ := open_iff.1 hn
      exact htype rfl
    exact ⟨_, rfl, ⟨_, epollInv_init s₀, fun n hn => absurd hn (hclosed n),
      fun i m n _ _ hn => absurd hn (hclosed n)⟩, fun s₁ c h => absurd h not_makes_nil⟩
  | append_singleton calls c ih =>
    obtain ⟨s, hs, ⟨ts, h⟩, hmade⟩ := ih fun s₁ type context ops ⟨pre, hpre, h₁⟩ =>
      hfresh s₁ type context ops ⟨pre, hpre.trans (List.prefix_append _ _), h₁⟩
    obtain ⟨s', ts', hs', h'⟩ := h.step c fun type context ops hc =>
      hfresh s type context ops ((makes_concat hs).2 (.inr ⟨rfl, hc.symm⟩))
    refine ⟨s', by rw [run_concat, hs, Option.bind_some, hs'], ⟨ts', h'⟩, fun s₁ d h₁ => ?_⟩
    rcases (makes_concat hs).1 h₁ with h₁ | ⟨rfl, -⟩
    · exact hmade s₁ d h₁
    · exact ⟨ts, h⟩

/-- A descriptor is opened, added, deleted and closed; 64 openings later, another one with its
    number is added, and polled. -/
def recycledRun : List EpollCall :=
  [.fdAlloc 1 0 (some ⟨true, true⟩), .create, .ctl (-1) epollCtlAdd 0 ⟨1, 7⟩ 4096,
      .ctl (-1) epollCtlDel 0 ⟨0, 0⟩ 0, .fdClose 0] ++
    List.replicate 64 (.fdAlloc 1 0 (some ⟨true, true⟩)) ++
    [.ctl (-1) epollCtlAdd 0 ⟨1, 8⟩ 4096, .wait (-1) 1 fun _ => 1]

/-- `Epoll.OpensFresh`, before a call of `fd_alloc`. -/
def opensFresh (s : Traced) : EpollCall → Bool
  | .fdAlloc .. => s.epoll.nextFree.all fun n =>
      decide (∀ i, (s.epoll.maps i).all fun m => (m n).isNone)
  | _ => true

/-- The number is that of another descriptor, and what is reported is about that one. -/
theorem no_stale_reports_recycled : NoStaleReports .boot recycledRun ∧
    ((run tracedCall (.start (fdInit (epollInit .boot))) recycledRun.dropLast).bind fun s =>
      (epollWait s.epoll (-1) 1 fun _ => 1).map Prod.fst) = some (1, [⟨1, 8⟩]) := by
  refine ⟨no_stale_reports .boot _ fun s₁ type context ops h₁ _ => ?_, by decide +kernel⟩
  have hrun : (run (fun s c => if opensFresh s c then tracedCall s c else none)
      (.start (fdInit (epollInit .boot))) recycledRun).isSome := by
    decide +kernel
  have hfresh := ok_of_makes hrun h₁
  intro n hn i m hm
  rw [opensFresh, hn, Option.all_some, decide_eq_true_iff] at hfresh
  have hnone := hfresh i
  rwa [hm, Option.all_some, Option.isNone_iff_eq_none] at hnone

/-- A descriptor is opened, added and closed; 64 openings later its number is that of another
    one. -/
def reopenedRun : List EpollCall :=
  [.fdAlloc 1 0 (some ⟨true, true⟩), .create, .ctl (-1) epollCtlAdd 0 ⟨1, 7⟩ 4096, .fdClose 0] ++
    List.replicate 64 (.fdAlloc 1 0 (some ⟨true, true⟩))

/-- The item that was added for the first opening reports an event of the last. -/
theorem reopened_reports : ¬ ∀ (s₀ : Epoll) (calls : List EpollCall), NoStaleReports s₀ calls := by
  intro h
  have hcheck : (run tracedCall (.start (fdInit (epollInit .boot))) reopenedRun).any fun s =>
      (epollWait s.epoll (-1) 1 fun _ => 1).any fun r =>
        epollGetInstance s.epoll (-1) = some 0 ∧ 4096 ∈ r.2.reported (s.epoll.itemsOf 0) 1 ∧
          s.added 0 (s.epoll.items 4096).fd ≠ s.opening (s.epoll.items 4096).fd := by
    decide +kernel
  obtain ⟨s, hs, hcheck⟩ := (Option.any_eq_true _ _).1 hcheck
  obtain ⟨⟨r, s'⟩, hs', hcheck⟩ := (Option.any_eq_true _ _).1 hcheck
  obtain ⟨hinst, hmem, hne⟩ := of_decide_eq_true hcheck
  obtain ⟨r₁, s₁, hs₁, hfresh⟩ := (h .boot (reopenedRun ++ [.wait (-1) 1 fun _ => 1])).2 s _ _ _
    ((makes_concat hs).2 (.inr ⟨rfl, rfl⟩))
  obtain ⟨rfl, rfl⟩ := Prod.mk.inj (Option.some_inj.1 (hs'.symm.trans hs₁))
  exact hne ((hfresh 0 hinst (by decide)).2 4096 hmem).2.2

end Fru1tOs
