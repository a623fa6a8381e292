import Fru1tOs.Rbtree.Basic

/-!
# File descriptors and epoll

The table of file descriptors of `fd.c`, and the epoll instances of `epoll.c`:
each has a red-black tree of items, ordered by the number of the descriptor they
monitor.

The items are allocated by `kmalloc`. Of the allocator it is only represented
that it gives no block that is in use: a call is made with the block the
allocator would give, and `NULL` is the answer if it is zero or in use. What
`kfree` makes of the contents of a block is arbitrary (`junk`). The flags that the
`poll` callbacks return are given to `epoll_wait`. The messages are left out.
-/

namespace Fru1tOs

open Lib

/-- `MAX_FDS`. -/
abbrev maxFds : ℕ := 64

local instance neZero_maxFds : NeZero maxFds := ⟨by decide⟩

/-- `MAX_EPOLL_INSTANCES`. -/
abbrev maxEpollInstances : ℕ := 16

/-- The index of an epoll instance. -/
abbrev EpIndex := Fin maxEpollInstances

/-- `struct fd_ops`: which of the callbacks that the descriptors use are present. -/
structure FdOps where
  poll : Bool
  close : Bool
  deriving DecidableEq, Repr

/-- `struct fd`. The type `FD_TYPE_UNUSED` is zero. -/
structure Fd where
  fdNum : ℤ
  type : ℤ
  flags : BitVec 32
  context : ℕ
  ops : Option FdOps
  refCount : ℤ
  deriving DecidableEq, Repr

/-- `struct epoll_event`. -/
structure EpollEvent where
  events : BitVec 32
  data : BitVec 64
  deriving DecidableEq, Repr

/-- `struct epoll_item`, less its tree node. -/
structure EpollItem where
  fd : ℤ
  events : BitVec 32
  userData : BitVec 64
  revents : BitVec 32
  deriving DecidableEq, Repr

/-- `struct epoll_instance`. -/
structure EpollInstance where
  epfd : ℤ
  itemsTree : Option ℕ
  numItems : ℤ
  inUse : Bool
  deriving DecidableEq, Repr

/-- The descriptors, the instances, and the memory of the items, by their addresses:
    the tree nodes, the other fields, the blocks in use, and what a block holds once
    freed. -/
structure Epoll where
  fds : Fin maxFds → Fd
  nextFd : ℕ
  instances : EpIndex → EpollInstance
  nodes : ℕ → RbNode ℕ
  items : ℕ → EpollItem
  live : List ℕ
  junk : ℕ → RbNode ℕ × EpollItem

/-- Bound for the loops on a tree: it has at most one item for each descriptor. -/
def epollFuel : ℕ := maxFds + 1

/-! ## File descriptors -/

/-- `fd_init`. -/
def fdInit (s : Epoll) : Epoll :=
  { s with
    fds := fun i => ⟨i, 0, 0, 0, none, 0⟩
    nextFd := 0 }

/-- `fd_alloc`: the first free descriptor from `next_fd` on, in circular order. -/
def fdAlloc (s : Epoll) (type : ℤ) (context : ℕ) (ops : Option FdOps) : ℤ × Epoll :=
  let slots := (List.finRange maxFds).map fun i => Fin.ofNat maxFds (s.nextFd + i)
  match slots.find? fun fd => (s.fds fd).type = 0 with
  | some fd =>
    (fd, { s with
      fds := Function.update s.fds fd
        { s.fds fd with type := type, flags := 0, context := context, ops := ops, refCount := 1 }
      nextFd := (fd + 1) % maxFds })
  | none => (-1, s)

/-- `fd_get`. -/
def fdGet (s : Epoll) (fd : ℤ) : Option (Fin maxFds) :=
  if h : 0 ≤ fd ∧ fd < maxFds then
    let i : Fin maxFds := ⟨fd.toNat, by omega⟩
    if (s.fds i).type = 0 then none else some i
  else none

/-- `fd_close`. The `close` callback is taken to leave the descriptors and the
    instances alone. -/
def fdClose (s : Epoll) (fd : ℤ) : ℤ × Epoll :=
  match fdGet s fd with
  | none => (-1, s)
  | some i =>
    let e := { s.fds i with refCount := (s.fds i).refCount - 1 }
    let e := if e.refCount ≤ 0 then
        { e with type := 0, flags := 0, context := 0, ops := none, refCount := 0 }
      else e
    (0, { s with fds := Function.update s.fds i e })

/-- `fd_poll`, with the flags that the callbacks return. -/
def fdPoll (s : Epoll) (answer : ℤ → BitVec 32) (fd : ℤ) : BitVec 32 × Epoll :=
  match fdGet s fd with
  | none => (0, s)
  | some i =>
    match (s.fds i).ops with
    | some ⟨true, _⟩ =>
      (answer fd, { s with fds := Function.update s.fds i { s.fds i with flags := answer fd } })
    | _ => (0, s)

/-! ## Memory -/

namespace Epoll

/-- The tree of an instance. -/
def tree (s : Epoll) (i : EpIndex) : RbState ℕ := ⟨s.nodes, (s.instances i).itemsTree⟩

/-- The state with another tree of an instance. -/
def setTree (s : Epoll) (i : EpIndex) (t : RbState ℕ) : Epoll :=
  { s with
    nodes := t.mem
    instances := Function.update s.instances i { s.instances i with itemsTree := t.root } }

/-- The state with another number of items of an instance. -/
def setNumItems (s : Epoll) (i : EpIndex) (n : ℤ) : Epoll :=
  { s with instances := Function.update s.instances i { s.instances i with numItems := n } }

/-- The state with an item changed. -/
def modifyItem (s : Epoll) (a : ℕ) (f : EpollItem → EpollItem) : Epoll :=
  { s with items := Function.update s.items a (f (s.items a)) }

/-- `kmalloc` of an item, where `block` is what the allocator would give. -/
def kmalloc (s : Epoll) (block : ℕ) : Option ℕ × Epoll :=
  if block = 0 ∨ block ∈ s.live then (none, s)
  else (some block, { s with live := block :: s.live })

/-- `kfree` of an item. -/
def kfree (s : Epoll) (a : ℕ) : Epoll :=
  { s with
    nodes := Function.update s.nodes a (s.junk a).1
    items := Function.update s.items a (s.junk a).2
    live := s.live.erase a }

end Epoll

/-! ## Instances -/

/-- An instance that is not in use. -/
def EpollInstance.unused : EpollInstance := ⟨-1, none, 0, false⟩

/-- `epoll_init`. -/
def epollInit (s : Epoll) : Epoll := { s with instances := fun _ => .unused }

/-- `epoll_get_instance`. -/
def epollGetInstance (s : Epoll) (epfd : ℤ) : Option EpIndex :=
  (List.finRange maxEpollInstances).find? fun i =>
    (s.instances i).inUse && (s.instances i).epfd = epfd

/-- `epoll_create`. -/
def epollCreate (s : Epoll) : ℤ × Epoll :=
  match (List.finRange maxEpollInstances).find? fun i => !(s.instances i).inUse with
  | some i =>
    (-(i + 1), { s with instances := Function.update s.instances i ⟨-(i + 1), none, 0, true⟩ })
  | none => (-999, s)

/-! ## Items -/

/-- A pass of `epoll_find_item`. -/
def epollFindPass (s : Epoll) (fd : ℤ) : Option ℕ → Option (Pass (Option ℕ) (Option ℕ))
  | none => some (.done none)
  | some item =>
    if fd < (s.items item).fd then some (.next (s.nodes item).left)
    else if fd > (s.items item).fd then some (.next (s.nodes item).right)
    else some (.done (some item))

/-- `epoll_find_item`. -/
def epollFindItem (s : Epoll) (i : EpIndex) (fd : ℤ) : Option (Option ℕ) :=
  loop (epollFindPass s fd) epollFuel (s.instances i).itemsTree

/-- A pass of the descent of `epoll_insert_item`: the link it is at, the node above it,
    and the side of the link. It ends at an empty link, or at an item of the same
    descriptor. -/
def epollInsertPass (s : Epoll) (fd : ℤ) : Option ℕ × Option ℕ × Side →
    Option (Pass (Option ℕ × Option ℕ × Side) (Option (Option ℕ × Side)))
  | (none, parent, side) => some (.done (some (parent, side)))
  | (some item, _, _) =>
    if fd < (s.items item).fd then some (.next ((s.nodes item).left, some item, .left))
    else if fd > (s.items item).fd then some (.next ((s.nodes item).right, some item, .right))
    else some (.done none)

/-- `epoll_insert_item`. -/
def epollInsertItem (s : Epoll) (i : EpIndex) (item : ℕ) : Option (ℤ × Epoll) := do
  let place ← loop (epollInsertPass s (s.items item).fd) epollFuel
    ((s.instances i).itemsTree, none, .left)
  match place with
  | none => return (-1, s)
  | some (parent, side) =>
    let t ← rbInsertColor epollFuel (rbLink (s.tree i) item parent side) item
    return (0, (s.setTree i t).setNumItems i ((s.instances i).numItems + 1))

/-! ## Control -/

/-- `EPOLL_CTL_ADD`. -/
def epollCtlAdd : ℤ := 1

/-- `EPOLL_CTL_DEL`. -/
def epollCtlDel : ℤ := 2

/-- `EPOLL_CTL_MOD`. -/
def epollCtlMod : ℤ := 3

/-- The case `EPOLL_CTL_ADD` of `epoll_ctl`. -/
def epollAdd (s : Epoll) (i : EpIndex) (fd : ℤ) (event : EpollEvent) (block : ℕ) :
    Option (ℤ × Epoll) := do
  if (← epollFindItem s i fd).isSome then return (-1, s)
  match s.kmalloc block with
  | (none, s) => return (-1, s)
  | (some item, s) =>
    let s := s.modifyItem item fun _ => ⟨fd, event.events, event.data, 0⟩
    let s := s.setTree i (rbClearNode (s.tree i) item)
    let (r, s) ← epollInsertItem s i item
    if r < 0 then return (-1, s.kfree item)
    return (0, s)

/-- The case `EPOLL_CTL_DEL` of `epoll_ctl`. -/
def epollDel (s : Epoll) (i : EpIndex) (fd : ℤ) : Option (ℤ × Epoll) := do
  match ← epollFindItem s i fd with
  | none => return (-1, s)
  | some item =>
    let t ← rbErase epollFuel (s.tree i) item
    let s := (s.setTree i t).setNumItems i ((s.instances i).numItems - 1)
    return (0, s.kfree item)

/-- The case `EPOLL_CTL_MOD` of `epoll_ctl`. -/
def epollMod (s : Epoll) (i : EpIndex) (fd : ℤ) (event : EpollEvent) : Option (ℤ × Epoll) := do
  match ← epollFindItem s i fd with
  | none => return (-1, s)
  | some item =>
    return (0, s.modifyItem item fun e => { e with events := event.events, userData := event.data })

/-- `epoll_ctl`. -/
def epollCtl (s : Epoll) (epfd op fd : ℤ) (event : EpollEvent) (block : ℕ) : Option (ℤ × Epoll) :=
  match epollGetInstance s epfd with
  | none => some (-1, s)
  | some i =>
    match fdGet s fd with
    | none => some (-1, s)
    | some _ =>
      if op = epollCtlAdd then epollAdd s i fd event block
      else if op = epollCtlDel then epollDel s i fd
      else if op = epollCtlMod then epollMod s i fd event
      else some (-1, s)

/-! ## Waiting -/

/-- The translation of the flags of a descriptor to epoll events. -/
def epollEvents (flags : BitVec 32) : BitVec 32 :=
  (if flags &&& 1 ≠ 0 then 0x001 else 0) ||| (if flags &&& 2 ≠ 0 then 0x004 else 0) |||
  (if flags &&& 4 ≠ 0 then 0x008 else 0) ||| (if flags &&& 8 ≠ 0 then 0x010 else 0)

/-- A pass of `epoll_poll_fds`. -/
def epollPollPass (i : EpIndex) (answer : ℤ → BitVec 32) :
    Epoll × Option ℕ → Option (Pass (Epoll × Option ℕ) Epoll)
  | (s, none) => some (.done s)
  | (s, some item) => do
    let (flags, s) := fdPoll s answer (s.items item).fd
    let s := s.modifyItem item fun e => { e with revents := epollEvents flags &&& e.events }
    let next ← rbNext epollFuel (s.tree i) item
    return .next (s, next)

/-- `epoll_poll_fds`. -/
def epollPollFds (s : Epoll) (i : EpIndex) (answer : ℤ → BitVec 32) : Option Epoll := do
  let first ← rbFirst epollFuel (s.tree i)
  loop (epollPollPass i answer) epollFuel (s, first)

/-- A pass of the collection of `epoll_wait`: the node it is at, and the events
    collected. -/
def epollCollectPass (s : Epoll) (i : EpIndex) (maxevents : ℤ) :
    Option ℕ × List EpollEvent → Option (Pass (Option ℕ × List EpollEvent) (List EpollEvent))
  | (none, events) => some (.done events)
  | (some item, events) =>
    if events.length < maxevents then do
      let e := s.items item
      let events := if e.revents ≠ 0 then events ++ [⟨e.revents, e.userData⟩] else events
      let next ← rbNext epollFuel (s.tree i) item
      return .next (next, events)
    else some (.done events)

/-- `epoll_wait`, with the events written. -/
def epollWait (s : Epoll) (epfd maxevents : ℤ) (answer : ℤ → BitVec 32) :
    Option ((ℤ × List EpollEvent) × Epoll) :=
  match epollGetInstance s epfd with
  | none => some ((-1, []), s)
  | some i =>
    if maxevents ≤ 0 then some ((-1, []), s)
    else do
      let s ← epollPollFds s i answer
      let first ← rbFirst epollFuel (s.tree i)
      let events ← loop (epollCollectPass s i maxevents) epollFuel (first, [])
      return ((events.length, events), s)

/-! ## Closing -/

/-- A pass of `epoll_close`. -/
def epollClosePass (i : EpIndex) : Epoll × Option ℕ → Option (Pass (Epoll × Option ℕ) Epoll)
  | (s, none) => some (.done s)
  | (s, some item) => do
    let next ← rbNext epollFuel (s.tree i) item
    let t ← rbErase epollFuel (s.tree i) item
    return .next ((s.setTree i t).kfree item, next)

/-- `epoll_close`. -/
def epollClose (s : Epoll) (epfd : ℤ) : Option (ℤ × Epoll) :=
  match epollGetInstance s epfd with
  | none => some (-1, s)
  | some i => do
    let first ← rbFirst epollFuel (s.tree i)
    let s ← loop (epollClosePass i) epollFuel (s, first)
    return (0, { s with instances := Function.update s.instances i .unused })

/-! ## Runs -/

/-- The calls of the two subsystems. -/
inductive EpollCall
  | fdAlloc (type : ℤ) (context : ℕ) (ops : Option FdOps)
  | fdClose (fd : ℤ)
  | create
  | ctl (epfd op fd : ℤ) (event : EpollEvent) (block : ℕ)
  | wait (epfd maxevents : ℤ) (answer : ℤ → BitVec 32)
  | close (epfd : ℤ)

/-- The effect of a call, with the number it returns. -/
def epollCall (s : Epoll) : EpollCall → Option (ℤ × Epoll)
  | .fdAlloc type context ops => some (fdAlloc s type context ops)
  | .fdClose fd => some (fdClose s fd)
  | .create => some (epollCreate s)
  | .ctl epfd op fd event block => epollCtl s epfd op fd event block
  | .wait epfd maxevents answer => (epollWait s epfd maxevents answer).map fun r => (r.1.1, r.2)
  | .close epfd => epollClose s epfd

end Fru1tOs
