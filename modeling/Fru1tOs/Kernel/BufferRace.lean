import Fru1tOs.Kernel.Buffer
import Fru1tOs.Lib.Guarded

/-!
# The buffer between interrupts

Nothing masks the interrupts in `input_buffer_get`, so `handle_uart_interrupt` may call
`input_buffer_put` between any two of its accesses to the buffer. A step of `input_buffer_get` is
one such access here (`BufferSystem.getStep`), and `count--` has two of them: the counter is read,
and written.

What the interrupt stores between these two is not counted. Without that, the calls are those of
the queue, where `input_buffer_get` takes effect with its last access to the counter
(`BufferSystem.calls`). With it, the counter stays behind for good (`interrupted_get_iff`).
-/

namespace Fru1tOs

open Lib

attribute [local instance] neZero_inputBufferSize

/-- Where `input_buffer_get` is: before the test of `count`, before the character is read, before
    `read_pos` is moved, before `count` is read, and before it is written. -/
inductive GetPoint
  | idle
  | test
  | cell
  | move (c : BitVec 8)
  | load (c : BitVec 8)
  | store (c : BitVec 8) (count : ℕ)
  deriving DecidableEq, Repr

namespace GetPoint

/-- The counter was read, and is not yet written. -/
def Counting : GetPoint → Prop
  | store _ _ => True
  | _ => False

/-- How far the reading position is to be moved for that of the queue. -/
def back : GetPoint → ℕ
  | load _ => inputBufferSize - 1
  | store _ _ => inputBufferSize - 1
  | _ => 0

/-- The counter that the call goes on with. -/
def counted (count : ℕ) : GetPoint → ℕ
  | store _ n => n
  | _ => count

/-- There is a character to be taken, where the call has found one. -/
def Ready (count : ℕ) : GetPoint → Prop
  | idle => True
  | test => True
  | store _ n => 0 < n
  | _ => 0 < count

/-- The call has the first pending character, and the right counter. -/
def Found (count : ℕ) (q : Fifo) : GetPoint → Prop
  | move c => q.get.1 = c
  | load c => q.get.1 = c
  | store c n => q.get.1 = c ∧ n = count
  | _ => True

end GetPoint

/-- The buffer with its reader: what `input_buffer_get` has returned, and how many characters were
    stored and taken. -/
structure BufferSystem where
  console : Console
  point : GetPoint
  returned : List (BitVec 8)
  stored : ℕ
  taken : ℕ

/-- What happens: the interrupt puts a character, and the reader calls `input_buffer_get` or does
    the next access. -/
inductive BufferAction
  | put (c : BitVec 8)
  | get
  | step
  deriving DecidableEq, Repr

namespace BufferSystem

/-- The next access of `input_buffer_get`. -/
def getStep (s : BufferSystem) : BufferSystem :=
  let b := s.console.inputBuf
  match s.point with
  | .idle => s
  | .test =>
    if b.count > 0 then { s with point := .cell }
    else { s with point := .idle, returned := s.returned ++ [0] }
  | .cell => { s with point := .move (b.buffer (Fin.ofNat inputBufferSize b.readPos)) }
  | .move c => { s with
      console := { s.console with
        inputBuf := { b with readPos := (b.readPos + 1) % inputBufferSize } }
      point := .load c }
  | .load c => { s with point := .store c b.count }
  | .store c count => { s with
      console := { s.console with inputBuf := { b with count := count - 1 } }
      point := .idle
      returned := s.returned ++ [c]
      taken := s.taken + 1 }

/-- An action. -/
def act (s : BufferSystem) : BufferAction → BufferSystem
  | .put c => { s with
      console := inputBufferPut s.console c
      stored := if s.console.inputBuf.count < inputBufferSize then s.stored + 1 else s.stored }
  | .get => if s.point = .idle then { s with point := .test } else s
  | .step => s.getStep

/-- The call on the queue that an action is. -/
def calls (s : BufferSystem) : BufferAction → List BufferCall
  | .put c => [.put c]
  | .get => []
  | .step =>
    match s.point with
    | .test => if s.console.inputBuf.count > 0 then [] else [.get]
    | .store _ _ => [.get]
    | _ => []

/-- Nothing is stored between the two accesses of `count--`. -/
def Counts (s : BufferSystem) : BufferAction → Prop
  | .put _ => s.point.Counting → inputBufferSize ≤ s.console.inputBuf.count
  | _ => True

/-- After `input_buffer_init`. -/
def start (s : Console) : BufferSystem := ⟨inputBufferInit s, .idle, [], 0, 0⟩

/-- The buffer, as it is for the queue: a call that is under way has taken nothing. -/
def queueBuffer (s : BufferSystem) : InputBuffer :=
  { s.console.inputBuf with
    readPos := (s.console.inputBuf.readPos + s.point.back) % inputBufferSize }

/-- There is a character for the call that is under way. -/
def Ready (s : BufferSystem) : Prop := s.point.Ready s.console.inputBuf.count

/-- How many of the stored characters are neither taken nor counted. -/
def uncounted (s : BufferSystem) : ℤ :=
  s.stored - s.taken - s.point.counted s.console.inputBuf.count

end BufferSystem

/-- The buffer with a call under way is the queue. -/
structure IsFifoAt (s : BufferSystem) (q : Fifo × List (BitVec 8)) : Prop where
  returned : s.returned = q.2
  fifo : IsFifo s.queueBuffer q.1
  readPos : s.console.inputBuf.readPos < inputBufferSize
  ready : s.Ready
  found : s.point.Found s.console.inputBuf.count q.1

/-! ## The counter -/

section Counter

variable {s : BufferSystem} {a : BufferAction}

theorem count_inputBufferPut (s : Console) (c : BitVec 8) :
    (inputBufferPut s c).inputBuf.count =
      if s.inputBuf.count < inputBufferSize then s.inputBuf.count + 1 else s.inputBuf.count := by
  rw [inputBufferPut]
  split_ifs <;> rfl

/-- The position for reading plays no part. -/
theorem inputBufferPut_readPos (s : Console) (c : BitVec 8) (r : ℕ) :
    (inputBufferPut { s with inputBuf := { s.inputBuf with readPos := r } } c).inputBuf =
      { (inputBufferPut s c).inputBuf with readPos := r } := by
  by_cases hroom : s.inputBuf.count < inputBufferSize
  · have hput : inputBufferPut s c = _ := if_pos hroom
    have hput' : inputBufferPut { s with inputBuf := { s.inputBuf with readPos := r } } c = _ :=
      if_pos hroom
    rw [hput, hput']
  · have hput : inputBufferPut s c = s := if_neg hroom
    have hput' : inputBufferPut { s with inputBuf := { s.inputBuf with readPos := r } } c = _ :=
      if_neg hroom
    rw [hput, hput']

theorem GetPoint.Ready.mono {p : GetPoint} {n n' : ℕ} (h : p.Ready n) (hle : n ≤ n') :
    p.Ready n' := by
  cases p with
  | idle => trivial
  | test => trivial
  | store c m => exact h
  | cell => exact lt_of_lt_of_le h hle
  | move c => exact lt_of_lt_of_le h hle
  | load c => exact lt_of_lt_of_le h hle

/-- What the call has found stays there. -/
theorem ready_act (h : s.Ready) (a : BufferAction) : (s.act a).Ready := by
  rw [BufferSystem.Ready] at h ⊢
  cases a with
  | put c =>
    refine h.mono ?_
    rw [BufferSystem.act, count_inputBufferPut]
    split_ifs <;> omega
  | get =>
    rw [BufferSystem.act]
    split_ifs
    · trivial
    · exact h
  | step =>
    rw [BufferSystem.act, BufferSystem.getStep]
    cases hpoint : s.point with
    | idle => rw [hpoint]; trivial
    | test =>
      simp only
      split_ifs with hcount
      · exact hcount
      · trivial
    | store c n => trivial
    | _ =>
      rw [hpoint] at h
      exact h

/-- A guarded action keeps the number of the characters that are not counted. -/
theorem uncounted_act (h : s.Ready) (hok : s.Counts a) :
    (s.act a).uncounted = s.uncounted := by
  rw [BufferSystem.uncounted, BufferSystem.uncounted]
  cases a with
  | put c =>
    rw [BufferSystem.act, count_inputBufferPut]
    simp only
    cases hpoint : s.point with
    | store c' n =>
      have hfull : inputBufferSize ≤ s.console.inputBuf.count := hok (by rw [hpoint]; trivial)
      rw [if_neg (not_lt.2 hfull)]
      rfl
    | _ =>
      simp only [GetPoint.counted]
      split_ifs <;> omega
  | get =>
    rw [BufferSystem.act]
    split_ifs with hidle
    · rw [hidle]
      rfl
    · rfl
  | step =>
    rw [BufferSystem.act, BufferSystem.getStep]
    cases hpoint : s.point with
    | test =>
      simp only
      split_ifs <;> rfl
    | store c n =>
      rw [BufferSystem.Ready, hpoint] at h
      have hn : 0 < n := h
      simp only [GetPoint.counted]
      omega
    | idle => simp only [hpoint]
    | _ => rfl

/-- Another one increases it. -/
theorem uncounted_lt_act (hok : ¬ s.Counts a) : s.uncounted < (s.act a).uncounted := by
  cases a with
  | get => exact absurd trivial hok
  | step => exact absurd trivial hok
  | put c =>
    obtain ⟨hcounting, hroom⟩ := Classical.not_imp.1 hok
    rw [BufferSystem.uncounted, BufferSystem.uncounted, BufferSystem.act]
    cases hpoint : s.point with
    | store c' n =>
      simp only [GetPoint.counted, if_pos (not_le.1 hroom)]
      omega
    | _ =>
      rw [hpoint] at hcounting
      exact hcounting.elim

end Counter

/-! ## Refinement -/

section Refinement

variable {b : InputBuffer} {q : Fifo}

/-- What `input_buffer_get` finds in a buffer that is not empty, and leaves. -/
theorem IsFifo.get_of_pos (h : IsFifo b q) (hcount : 0 < b.count) :
    q.get.1 = b.buffer (Fin.ofNat inputBufferSize b.readPos) ∧
      IsFifo { b with
        readPos := (b.readPos + 1) % inputBufferSize
        count := b.count - 1 } q.get.2 := by
  have hs : IsFifo (Console.mk [] b).inputBuf q := h
  obtain ⟨hget, h'⟩ := hs.get
  rw [inputBufferGet, if_pos hcount] at hget h'
  exact ⟨hget.symm, h'⟩

/-- There is nothing in an empty one. -/
theorem IsFifo.get_of_zero (h : IsFifo b q) (hcount : b.count = 0) : q.get = (0, q) := by
  have hnil : q.pending = [] := List.length_eq_zero_iff.1 (h.length_pending.trans hcount)
  rw [Fifo.get, hnil]

/-- A character that is put behind others is not the next one. -/
theorem IsFifo.get_put (h : IsFifo b q) (hcount : 0 < b.count) (c : BitVec 8) :
    (q.put c).get.1 = q.get.1 := by
  rw [Fifo.put]
  split_ifs with hroom
  · obtain ⟨x, l, hl⟩ := List.exists_cons_of_length_pos (h.length_pending ▸ hcount)
    have hput : Fifo.pending { q with accepted := q.accepted ++ [c] } = x :: (l ++ [c]) := by
      rw [Fifo.pending, List.drop_append_of_le_length h.returned]
      exact congrArg (· ++ [c]) hl
    rw [Fifo.get, Fifo.get, hput, hl]
  · rfl

end Refinement

namespace IsFifoAt

variable {s : BufferSystem} {q : Fifo × List (BitVec 8)}

/-- A character is put. -/
theorem put (h : IsFifoAt s q) {c : BitVec 8} (hok : s.Counts (.put c)) :
    IsFifoAt (s.act (.put c)) (q.1.put c, q.2) := by
  have hqueue := inputBufferPut_readPos s.console c
    ((s.console.inputBuf.readPos + s.point.back) % inputBufferSize)
  have hread : (inputBufferPut s.console c).inputBuf.readPos = s.console.inputBuf.readPos := by
    rw [inputBufferPut]
    split_ifs <;> rfl
  have hfifo : IsFifo (Console.mk s.console.uart s.queueBuffer).inputBuf q.1 := h.fifo
  have hput : IsFifo (s.act (.put c)).queueBuffer (q.1.put c) := by
    rw [BufferSystem.queueBuffer, BufferSystem.act, hread, ← hqueue]
    exact hfifo.put c
  refine ⟨h.returned, hput, hread.trans_lt h.readPos, ready_act h.ready _, ?_⟩
  have hfound := h.found
  have hready := h.ready
  rw [BufferSystem.Ready] at hready
  rw [BufferSystem.act, count_inputBufferPut]
  cases hpoint : s.point with
  | idle => trivial
  | test => trivial
  | cell => trivial
  | move x =>
    rw [hpoint] at hfound hready
    exact (h.fifo.get_put hready c).trans hfound
  | load x =>
    rw [hpoint] at hfound hready
    exact (h.fifo.get_put hready c).trans hfound
  | store x n =>
    rw [hpoint] at hfound hready
    obtain ⟨hx, rfl⟩ := hfound
    have hfull : inputBufferSize ≤ s.console.inputBuf.count := hok (by rw [hpoint]; trivial)
    exact ⟨(h.fifo.get_put hready c).trans hx, (if_neg (not_lt.2 hfull)).symm⟩

/-- An access of `input_buffer_get`. -/
theorem step (h : IsFifoAt s q) :
    IsFifoAt s.getStep ((s.calls .step).foldl Fifo.call q) := by
  obtain ⟨console, point, returned, stored, taken⟩ := s
  obtain ⟨hreturned, hfifo, hread, hready, hfound⟩ := h
  cases point with
  | idle => exact ⟨hreturned, hfifo, hread, trivial, trivial⟩
  | test =>
    rw [BufferSystem.getStep, BufferSystem.calls]
    rcases Nat.eq_zero_or_pos console.inputBuf.count with hcount | hcount
    · have hget := hfifo.get_of_zero hcount
      simp only [hcount, Nat.lt_irrefl, gt_iff_lt, if_false, List.foldl_cons, List.foldl_nil]
      refine ⟨?_, ?_, hread, trivial, trivial⟩
      · exact congrArg₂ (· ++ [·]) hreturned (congrArg Prod.fst hget).symm
      · rw [Fifo.call, hget]
        exact hfifo
    · simp only [gt_iff_lt, hcount, if_true, List.foldl_nil]
      exact ⟨hreturned, hfifo, hread, hcount, trivial⟩
  | cell =>
    obtain ⟨hget, -⟩ := hfifo.get_of_pos hready
    refine ⟨hreturned, hfifo, hread, hready, hget.trans (congrArg _ (Fin.ext ?_))⟩
    exact Nat.mod_mod _ _
  | move c =>
    refine ⟨hreturned, ?_, Nat.mod_lt _ (by decide), hready, hfound⟩
    -- The position of the queue is still the old one.
    have hback : ((console.inputBuf.readPos + 1) % inputBufferSize + (inputBufferSize - 1)) %
        inputBufferSize = (console.inputBuf.readPos + 0) % inputBufferSize := by
      rw [Nat.mod_add_mod, Nat.add_assoc]
      exact Nat.add_mod_right ..
    have hqueue : BufferSystem.queueBuffer (BufferSystem.getStep
        ⟨console, .move c, returned, stored, taken⟩) =
          BufferSystem.queueBuffer ⟨console, .move c, returned, stored, taken⟩ := by
      simp only [BufferSystem.getStep, BufferSystem.queueBuffer, GetPoint.back, hback]
    rw [hqueue]
    exact hfifo
  | load c => exact ⟨hreturned, hfifo, hread, hready, hfound, rfl⟩
  | store c n =>
    obtain ⟨hget, hn⟩ := hfound
    have hn : n = console.inputBuf.count := hn
    have hready : 0 < console.inputBuf.count := hn ▸ hready
    obtain ⟨-, h'⟩ := hfifo.get_of_pos hready
    refine ⟨congrArg₂ (· ++ [·]) hreturned hget.symm, ?_, hread, trivial, trivial⟩
    have hback : ((console.inputBuf.readPos + (inputBufferSize - 1)) % inputBufferSize + 1) %
        inputBufferSize = (console.inputBuf.readPos + 0) % inputBufferSize := by
      rw [Nat.mod_add_mod, Nat.add_assoc]
      exact Nat.add_mod_right ..
    simp only [BufferSystem.queueBuffer, GetPoint.back, hback] at h'
    rw [BufferSystem.getStep]
    subst hn
    exact h'

/-- An action. -/
theorem act (h : IsFifoAt s q) {a : BufferAction} (hok : s.Counts a) :
    IsFifoAt (s.act a) ((s.calls a).foldl Fifo.call q) := by
  cases a with
  | put c => exact h.put hok
  | get =>
    rw [BufferSystem.act]
    split_ifs with hidle
    · have hfifo := h.fifo
      rw [BufferSystem.queueBuffer, hidle] at hfifo
      exact ⟨h.returned, hfifo, h.readPos, trivial, trivial⟩
    · exact h
  | step => exact h.step

end IsFifoAt

theorem isFifoAt_start (s₀ : Console) : IsFifoAt (.start s₀) (⟨[], 0⟩, []) :=
  ⟨rfl, ⟨rfl, Nat.zero_le _, Nat.zero_lt_succ _, rfl, le_rfl⟩, Nat.zero_lt_succ _, trivial, trivial⟩

/-- At rest, the counter is the number of the characters that were stored and not returned if and
    only if no character was stored between the two accesses of a `count--`. Then every call of
    `input_buffer_get` returned what the queue returns, and the buffer holds what is pending. -/
theorem interrupted_get_iff (s₀ : Console) (as : List BufferAction)
    (hidle : (as.foldl BufferSystem.act (.start s₀)).point = .idle) :
    let s := as.foldl BufferSystem.act (.start s₀)
    let q := Fifo.run (callsOf BufferSystem.act BufferSystem.calls (.start s₀) as)
    (s.console.inputBuf.count + s.taken = s.stored ↔
        Guarded BufferSystem.act BufferSystem.Counts (.start s₀) as) ∧
      (Guarded BufferSystem.act BufferSystem.Counts (.start s₀) as →
        s.returned = q.2 ∧ s.console.inputBuf.pending = q.1.pending) := by
  intro s q
  constructor
  · have hready : (BufferSystem.start s₀).Ready := trivial
    have hmeasure := guarded_iff BufferSystem.Ready BufferSystem.uncounted
      (fun _ a h => ready_act h a) (fun _ _ h hok => uncounted_act h hok)
      (fun _ _ _ hok => uncounted_lt_act hok) hready as
    have huncounted : s.uncounted = s.stored - s.taken - s.console.inputBuf.count := by
      rw [BufferSystem.uncounted, show s.point = .idle from hidle]
      rfl
    have hstart : (BufferSystem.start s₀).uncounted = 0 := rfl
    rw [← hmeasure, hstart, show (as.foldl BufferSystem.act (.start s₀)).uncounted = _ from
      huncounted]
    omega
  · intro hguarded
    have h : IsFifoAt s q := hguarded.simulates IsFifoAt (fun _ _ _ h hok => h.act hok)
      (isFifoAt_start s₀)
    refine ⟨h.returned, ?_⟩
    have hpending := h.fifo.pending
    have hback : s.point.back = 0 := congrArg GetPoint.back hidle
    rwa [BufferSystem.queueBuffer, hback, Nat.add_zero, Nat.mod_eq_of_lt h.readPos] at hpending

/-- An interrupt before the counter is read does no harm. -/
theorem interrupted_get_iff_one : let s₀ : Console := ⟨[], ⟨fun _ => 0, 0, 0, 0⟩⟩
    let as : List BufferAction := [.put 65, .get, .step, .step, .put 66, .step, .step, .step]
    let s := as.foldl BufferSystem.act (.start s₀)
    s.point = .idle ∧ s.console.inputBuf.count + s.taken = s.stored := by
  intro s₀ as s
  refine ⟨by decide, (interrupted_get_iff s₀ as (by decide)).1.2 ?_⟩
  simp only [as, Guarded, BufferSystem.Counts, true_and, and_true]
  exact ⟨fun h => h.elim, fun h => h.elim⟩

-- After it, the character is in the buffer, and `input_buffer_available` says no.
example : let s₀ : Console := ⟨[], ⟨fun _ => 0, 0, 0, 0⟩⟩
    let as : List BufferAction := [.put 65, .get, .step, .step, .step, .step, .put 66, .step]
    let s := as.foldl BufferSystem.act (.start s₀)
    s.returned = [65] ∧ s.stored = 2 ∧ inputBufferAvailable s.console = false := by
  decide

end Fru1tOs
