import Fru1tOs.Kernel.Input
import Fru1tOs.Lib.Ring

/-!
# The circular buffer

The buffer that `handle_uart_interrupt` fills is a queue. What it should do is said of the
characters that it took, in order, and of how many of them were returned (`Fifo`): the ones between
are pending, a character is taken while fewer than `INPUT_BUFFER_SIZE` are pending, and the oldest
of them is returned. The array, the two positions and the counter do just this, in every run
(`inputBuffer_fifo`): the pending characters are in the array from `read_pos` on, past its end and
on from its start (`InputBuffer.pending`).
-/

namespace Fru1tOs

open Lib

attribute [local instance] neZero_inputBufferSize

/-- `input_buffer_get`. -/
def inputBufferGet (s : Console) : BitVec 8 × Console :=
  let b := s.inputBuf
  if b.count > 0 then
    (b.buffer (Fin.ofNat inputBufferSize b.readPos),
      { s with inputBuf :=
        { b with
          readPos := (b.readPos + 1) % inputBufferSize
          count := b.count - 1 } })
  else (0, s)

/-- `input_buffer_available`. -/
def inputBufferAvailable (s : Console) : Bool := s.inputBuf.count > 0

/-- A call on the buffer. -/
inductive BufferCall
  | put (c : BitVec 8)
  | get
  deriving DecidableEq, Repr

/-- The effect of a call, with what `input_buffer_get` returned so far. -/
def bufferCall : Console × List (BitVec 8) → BufferCall → Console × List (BitVec 8)
  | (s, results), .put c => (inputBufferPut s c, results)
  | (s, results), .get => ((inputBufferGet s).2, results ++ [(inputBufferGet s).1])

/-- A run of calls, from `input_buffer_init`. -/
def bufferRun (s₀ : Console) (calls : List BufferCall) : Console × List (BitVec 8) :=
  calls.foldl bufferCall (inputBufferInit s₀, [])

/-! ## The queue -/

/-- A queue: the characters that it took, and how many of them were returned. -/
structure Fifo where
  accepted : List (BitVec 8)
  returned : ℕ

namespace Fifo

/-- The characters that were taken and not returned, the oldest first. -/
def pending (q : Fifo) : List (BitVec 8) := q.accepted.drop q.returned

/-- A character is taken, if there is room for it. -/
def put (q : Fifo) (c : BitVec 8) : Fifo :=
  if q.pending.length < inputBufferSize then { q with accepted := q.accepted ++ [c] } else q

/-- The oldest pending character is returned, if there is one. -/
def get (q : Fifo) : BitVec 8 × Fifo :=
  match q.pending with
  | [] => (0, q)
  | c :: _ => (c, { q with returned := q.returned + 1 })

/-- The effect of a call, with what was returned so far. -/
def call : Fifo × List (BitVec 8) → BufferCall → Fifo × List (BitVec 8)
  | (q, results), .put c => (q.put c, results)
  | (q, results), .get => (q.get.2, results ++ [q.get.1])

/-- A run of calls, from the empty queue. -/
def run (calls : List BufferCall) : Fifo × List (BitVec 8) := calls.foldl call (⟨[], 0⟩, [])

end Fifo

/-! ## Refinement -/

/-- The characters in the array, from the reading position on. -/
def InputBuffer.pending (b : InputBuffer) : List (BitVec 8) := ring b.buffer b.readPos b.count

/-- The buffer is the queue: its characters are the pending ones, and its positions are in range
    and as far apart as there are characters. -/
structure IsFifo (b : InputBuffer) (q : Fifo) : Prop where
  pending : b.pending = q.pending
  count : b.count ≤ inputBufferSize
  readPos : b.readPos < inputBufferSize
  writePos : b.writePos = (b.readPos + b.count) % inputBufferSize
  returned : q.returned ≤ q.accepted.length

namespace IsFifo

variable {s : Console} {q : Fifo}

theorem length_pending {b : InputBuffer} (h : IsFifo b q) : q.pending.length = b.count := by
  rw [← h.pending, InputBuffer.pending, length_ring]

/-- A character is stored behind the pending ones, or dropped. -/
theorem put (h : IsFifo s.inputBuf q) (c : BitVec 8) :
    IsFifo (inputBufferPut s c).inputBuf (q.put c) := by
  rw [inputBufferPut, Fifo.put, h.length_pending]
  split_ifs with hroom
  · have hcell : Fin.ofNat inputBufferSize s.inputBuf.writePos =
        Fin.ofNat inputBufferSize (s.inputBuf.readPos + s.inputBuf.count) := by
      rw [h.writePos]
      exact Fin.ext (Nat.mod_mod _ _)
    refine ⟨?_, hroom, h.readPos, ?_, ?_⟩
    · rw [InputBuffer.pending, hcell, ring_update _ _ hroom, Fifo.pending,
        List.drop_append_of_le_length h.returned]
      exact congrArg (· ++ [c]) h.pending
    · rw [h.writePos, Nat.mod_add_mod, Nat.add_assoc]
    · rw [List.length_append]
      exact h.returned.trans (Nat.le_add_right _ _)
  · exact h

/-- The first of the pending characters is returned. -/
theorem get (h : IsFifo s.inputBuf q) :
    (inputBufferGet s).1 = q.get.1 ∧ IsFifo (inputBufferGet s).2.inputBuf q.get.2 := by
  have hpending := h.pending
  rw [inputBufferGet, Fifo.get]
  rcases hcount : s.inputBuf.count with _ | k
  · rw [InputBuffer.pending, hcount, ring_zero] at hpending
    rw [← hpending]
    exact ⟨rfl, h⟩
  · rw [InputBuffer.pending, hcount, ring_succ_left] at hpending
    have hle := h.count
    rw [if_pos k.succ_pos, ← hpending]
    refine ⟨rfl, ?_, by simp only; omega, Nat.mod_lt _ (by decide), ?_, ?_⟩
    · have htail := congrArg List.tail hpending
      rw [List.tail_cons, Fifo.pending, List.tail_drop] at htail
      rw [Fifo.pending, ← htail]
      exact ring_mod _ _ _
    · rw [h.writePos, hcount, Nat.mod_add_mod, Nat.add_sub_cancel, Nat.add_assoc, Nat.add_comm k]
    · have hlen := h.length_pending
      rw [hcount, Fifo.pending, List.length_drop] at hlen
      simp only
      omega

/-- A call on the buffer does what it does on the queue. -/
theorem call {s : Console × List (BitVec 8)} {q : Fifo × List (BitVec 8)}
    (h : s.2 = q.2 ∧ IsFifo s.1.inputBuf q.1) (c : BufferCall) :
    (bufferCall s c).2 = (Fifo.call q c).2 ∧
      IsFifo (bufferCall s c).1.inputBuf (Fifo.call q c).1 := by
  obtain ⟨hres, h⟩ := h
  cases c with
  | put c => exact ⟨hres, h.put c⟩
  | get =>
    obtain ⟨hget, h'⟩ := h.get
    exact ⟨congrArg₂ (· ++ [·]) hres hget, h'⟩

end IsFifo

/-- In every run of `input_buffer_put` and `input_buffer_get` after `input_buffer_init`, what is
    returned is what the queue returns, the counter is the number of pending characters, and both
    positions are in range, the one as far behind the other as there are characters. -/
theorem inputBuffer_fifo (s₀ : Console) (calls : List BufferCall) :
    let s := bufferRun s₀ calls
    let q := Fifo.run calls
    s.2 = q.2 ∧ s.1.inputBuf.pending = q.1.pending ∧ s.1.inputBuf.count = q.1.pending.length ∧
      s.1.inputBuf.count ≤ inputBufferSize ∧ inputBufferAvailable s.1 = !q.1.pending.isEmpty ∧
      s.1.inputBuf.readPos < inputBufferSize ∧ s.1.inputBuf.writePos < inputBufferSize ∧
      s.1.inputBuf.writePos = (s.1.inputBuf.readPos + s.1.inputBuf.count) % inputBufferSize := by
  intro s q
  have hinit : IsFifo (inputBufferInit s₀).inputBuf ⟨[], 0⟩ :=
    ⟨rfl, Nat.zero_le _, Nat.zero_lt_succ _, rfl, le_rfl⟩
  obtain ⟨hres, h⟩ : s.2 = q.2 ∧ IsFifo s.1.inputBuf q.1 :=
    List.foldl_rel (r := fun (s : Console × List (BitVec 8)) (q : Fifo × List (BitVec 8)) =>
      s.2 = q.2 ∧ IsFifo s.1.inputBuf q.1) ⟨rfl, hinit⟩ fun c _ s q h => IsFifo.call h c
  have hcount := h.length_pending
  refine ⟨hres, h.pending, hcount.symm, h.count, ?_, h.readPos, ?_, h.writePos⟩
  · rw [inputBufferAvailable, ← hcount]
    cases q.1.pending <;> simp
  · rw [h.writePos]
    exact Nat.mod_lt _ (Nat.zero_lt_succ _)

end Fru1tOs
