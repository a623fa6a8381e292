import Fru1tOs.Lib.Loop

/-!
# Keyboard input

The input of `kernel.c`: the UART is a queue of characters, of which the receive register takes
the first. It has two readers: `handle_uart_interrupt` moves a character to a circular buffer, and
`getchar_blocking` returns one, waiting for it in a loop. The latter also asks the console of the
SBI, whose answer it is given here, and never looks at the buffer. So the characters that the
interrupt takes are lost (`input_kept_iff`).
-/

namespace Fru1tOs

open Lib

/-- `INPUT_BUFFER_SIZE`. -/
abbrev inputBufferSize : ℕ := 256

local instance neZero_inputBufferSize : NeZero inputBufferSize := ⟨by decide⟩

/-- `struct input_buffer`. -/
structure InputBuffer where
  buffer : Fin inputBufferSize → BitVec 8
  writePos : ℕ
  readPos : ℕ
  count : ℕ

/-- The characters in the UART, the first to arrive first, and the buffer. -/
structure Console where
  uart : List (BitVec 8)
  inputBuf : InputBuffer

/-- `uart_rx_ready`: the status bit. -/
def uartRxReady (s : Console) : Bool := !s.uart.isEmpty

/-- Reading the receive register. -/
def uartReadRhr (s : Console) : BitVec 8 × Console :=
  match s.uart with
  | [] => (0, s)
  | c :: uart => (c, { s with uart := uart })

/-- `input_buffer_init`. -/
def inputBufferInit (s : Console) : Console :=
  { s with inputBuf := { s.inputBuf with writePos := 0, readPos := 0, count := 0 } }

/-- `input_buffer_put`. -/
def inputBufferPut (s : Console) (c : BitVec 8) : Console :=
  let b := s.inputBuf
  if b.count < inputBufferSize then
    { s with inputBuf :=
      { b with
        buffer := Function.update b.buffer (Fin.ofNat inputBufferSize b.writePos) c
        writePos := (b.writePos + 1) % inputBufferSize
        count := b.count + 1 } }
  else s

/-- `handle_uart_interrupt`. -/
def handleUartInterrupt (s : Console) : Console :=
  if uartRxReady s then
    let (c, s) := uartReadRhr s
    inputBufferPut s c
  else s

/-- A pass of the loop of `getchar_blocking`, with the answer of `sbi_console_getchar`. -/
def getcharPass (sbi : ℤ) (s : Console) : Option (Pass Console (BitVec 8 × Console)) :=
  if sbi ≠ -1 ∧ sbi ≠ 0 then some (.done (BitVec.ofInt 8 sbi, s))
  else if uartRxReady s then some (.done (uartReadRhr s))
  else some (.next s)

/-- `getchar_blocking`, if it returns within the given number of passes. -/
def getcharBlocking (sbi : ℤ) (passes : ℕ) (s : Console) : Option (BitVec 8 × Console) :=
  loop (getcharPass sbi) passes s

/-! ## Runs -/

/-- The console, with the characters that arrived and those that `getchar_blocking` returned. -/
structure Typed where
  console : Console
  arrived : List (BitVec 8)
  returned : List (BitVec 8)

/-- What happens: a character arrives, the interrupt is handled, or `getchar_blocking` is called
    and returns within some passes. -/
inductive InputCall
  | arrive (c : BitVec 8)
  | interrupt
  | getchar (passes : ℕ)
  deriving DecidableEq, Repr

/-- The effect of a call. The console of the SBI delivers nothing. -/
def inputCall (s : Typed) : InputCall → Option Typed
  | .arrive c => some { s with
      console := { s.console with uart := s.console.uart ++ [c] }
      arrived := s.arrived ++ [c] }
  | .interrupt => some { s with console := handleUartInterrupt s.console }
  | .getchar passes => (getcharBlocking (-1) passes s.console).map fun (c, console) =>
      { s with console := console, returned := s.returned ++ [c] }

/-- The state after `input_buffer_init`: what is in the UART has arrived. -/
def Typed.start (s : Console) : Typed := ⟨inputBufferInit s, s.uart, []⟩

/-- Calls of `getchar_blocking` can still return these characters, and no more. -/
inductive StillReturns : Console → List (BitVec 8) → Prop
  | blocked {s : Console} (h : ∀ passes, getcharBlocking (-1) passes s = none) : StillReturns s []
  | next {s s' : Console} {c : BitVec 8} {l : List (BitVec 8)} (passes : ℕ)
      (h : getcharBlocking (-1) passes s = some (c, s')) (hl : StillReturns s' l) :
      StillReturns s (c :: l)

/-- What was returned, and can still be, is what arrived, in order. -/
def Typed.InputKept (s : Typed) : Prop :=
  ∃ l, StillReturns s.console l ∧ s.returned ++ l = s.arrived

/-! ## The two readers -/

section Readers

variable {s s' : Console} {c : BitVec 8} {uart : List (BitVec 8)}

/-- `getchar_blocking` does not return while the UART is empty. -/
theorem getcharBlocking_nil (h : s.uart = []) (passes : ℕ) :
    getcharBlocking (-1) passes s = none := by
  have hpass : getcharPass (-1) s = some (.next s) := by
    rw [getcharPass, if_neg (by decide), uartRxReady, h]
    rfl
  induction passes with
  | zero => rfl
  | succ n ih =>
    rw [getcharBlocking, loop_next hpass]
    exact ih

/-- It takes the first character of the UART. -/
theorem getcharBlocking_cons (h : s.uart = c :: uart) (passes : ℕ) :
    getcharBlocking (-1) (passes + 1) s = some (c, { s with uart := uart }) := by
  refine loop_done ?_
  rw [getcharPass, if_neg (by decide), uartRxReady, uartReadRhr, h]
  rfl

theorem getcharBlocking_eq_some {passes : ℕ} (h : getcharBlocking (-1) passes s = some (c, s')) :
    s.uart = c :: s'.uart ∧ s'.inputBuf = s.inputBuf := by
  cases passes with
  | zero => cases h
  | succ n =>
    cases huart : s.uart with
    | nil =>
      rw [getcharBlocking_nil huart] at h
      cases h
    | cons d uart =>
      rw [getcharBlocking_cons huart] at h
      obtain ⟨rfl, rfl⟩ := Prod.mk.inj (Option.some_inj.1 h)
      exact ⟨rfl, rfl⟩

/-- The characters that can still be returned are those in the UART. -/
theorem stillReturns_iff {l : List (BitVec 8)} : StillReturns s l ↔ l = s.uart := by
  constructor
  · intro h
    induction h with
    | @blocked s h =>
      cases huart : s.uart with
      | nil => rfl
      | cons c uart =>
        have h1 := h 1
        rw [getcharBlocking_cons huart] at h1
        cases h1
    | @next s s' c l passes h _ ih => rw [ih, (getcharBlocking_eq_some h).1]
  · rintro rfl
    generalize huart : s.uart = uart
    induction uart generalizing s with
    | nil => exact .blocked (getcharBlocking_nil huart)
    | cons c uart ih =>
      exact .next 1 (getcharBlocking_cons huart 0) (ih (s := { s with uart := uart }) rfl)

theorem inputKept_iff {s : Typed} :
    s.InputKept ↔ s.returned ++ s.console.uart = s.arrived := by
  simp only [Typed.InputKept, stillReturns_iff, exists_eq_left]

/-- The interrupt takes the first character of the UART. -/
theorem uart_handleUartInterrupt (s : Console) : (handleUartInterrupt s).uart = s.uart.tail := by
  have hput : ∀ (s : Console) c, (inputBufferPut s c).uart = s.uart := fun s c => by
    rw [inputBufferPut]
    split_ifs <;> rfl
  rw [handleUartInterrupt, uartRxReady, uartReadRhr]
  cases huart : s.uart with
  | nil => exact huart
  | cons c uart => exact hput _ c

end Readers

/-- A call moves a character from the UART to what was returned, or adds one that arrived, unless
    the interrupt takes one. -/
theorem inputCall_cases {s s' : Typed} {c : InputCall} (h : inputCall s c = some s') :
    (∃ l, s'.arrived = s.arrived ++ l ∧
      s'.returned ++ s'.console.uart = s.returned ++ s.console.uart ++ l ∧
      (c = .interrupt → s.console.uart = [])) ∨
    (c = .interrupt ∧ s.console.uart ≠ [] ∧ s'.arrived = s.arrived ∧ s'.returned = s.returned ∧
      s'.console.uart = s.console.uart.tail) := by
  cases c with
  | arrive c =>
    obtain rfl := Option.some_inj.1 h
    exact .inl ⟨[c], rfl, (List.append_assoc _ _ _).symm, fun hc => by cases hc⟩
  | interrupt =>
    obtain rfl := Option.some_inj.1 h
    have huart := uart_handleUartInterrupt s.console
    by_cases hnil : s.console.uart = []
    · rw [hnil] at huart
      refine .inl ⟨[], (List.append_nil _).symm, ?_, fun _ => hnil⟩
      dsimp only
      rw [huart, hnil]
      simp
    · exact .inr ⟨rfl, hnil, rfl, rfl, huart⟩
  | getchar passes =>
    obtain ⟨⟨d, console⟩, hd, rfl⟩ := Option.map_eq_some_iff.1 h
    refine .inl ⟨[], (List.append_nil _).symm, ?_, fun hc => by cases hc⟩
    rw [(getcharBlocking_eq_some hd).1]
    simp

/-- All that arrived was returned or is in the UART, in order, or some of it is missing: an
    interrupt took it. -/
theorem run_input {s₀ : Console} {calls : List InputCall} {s : Typed}
    (hs : run inputCall (.start s₀) calls = some s) :
    ((∀ s₁, Makes inputCall (.start s₀) calls s₁ .interrupt → s₁.console.uart = []) ∧
        s.returned ++ s.console.uart = s.arrived) ∨
      ((∃ s₁, Makes inputCall (.start s₀) calls s₁ .interrupt ∧ s₁.console.uart ≠ []) ∧
        s.returned.length + s.console.uart.length < s.arrived.length) := by
  induction calls using List.reverseRecOn generalizing s with
  | nil =>
    obtain rfl := Option.some_inj.1 hs
    exact .inl ⟨fun s₁ h => absurd h not_makes_nil, rfl⟩
  | append_singleton calls c ih =>
    rw [run_concat, Option.bind_eq_some_iff] at hs
    obtain ⟨s₁, hs₁, hs⟩ := hs
    rcases inputCall_cases hs with
      ⟨l, harrived, hreturned, hnil⟩ | ⟨rfl, hne, harrived, hret, huart⟩
    · rcases ih hs₁ with ⟨hnone, hkept⟩ | ⟨⟨s₂, h₂, hne⟩, hlt⟩
      · refine .inl ⟨fun s₂ h₂ => ?_, by rw [hreturned, hkept, harrived]⟩
        rcases (makes_concat hs₁).1 h₂ with h₂ | ⟨rfl, hc⟩
        · exact hnone s₂ h₂
        · exact hnil hc.symm
      · refine .inr ⟨⟨s₂, (makes_concat hs₁).2 (.inl h₂), hne⟩, ?_⟩
        have hlen := congrArg List.length hreturned
        rw [harrived]
        simp only [List.length_append] at hlen ⊢
        omega
    · refine .inr ⟨⟨s₁, (makes_concat hs₁).2 (.inr ⟨rfl, rfl⟩), hne⟩, ?_⟩
      have hpos := List.length_pos_of_ne_nil hne
      have hle : s₁.returned.length + s₁.console.uart.length ≤ s₁.arrived.length := by
        rcases ih hs₁ with ⟨-, hkept⟩ | ⟨-, hlt⟩
        · rw [← hkept, List.length_append]
        · exact hlt.le
      rw [huart, hret, harrived, List.length_tail]
      omega

/-- In every run of arrivals, interrupts and calls of `getchar_blocking` that return, the characters
    that were returned and those that still can be are the ones that arrived, in order, exactly
    if no interrupt was handled while there was a character in the UART. -/
theorem input_kept_iff (s₀ : Console) (calls : List InputCall) (s : Typed)
    (hs : run inputCall (.start s₀) calls = some s) :
    s.InputKept ↔ ∀ s₁, Makes inputCall (.start s₀) calls s₁ .interrupt → s₁.console.uart = [] := by
  rw [inputKept_iff]
  rcases run_input hs with ⟨hnone, hkept⟩ | ⟨hsome, hlt⟩
  · exact iff_of_true hkept hnone
  · obtain ⟨s₁, h₁, hne⟩ := hsome
    refine iff_of_false (fun hkept => ?_) fun hnone => hne (hnone s₁ h₁)
    rw [← hkept, List.length_append] at hlt
    exact lt_irrefl _ hlt

/-- A console with nothing in it. -/
def Console.boot : Console := ⟨[], ⟨fun _ => 0, 0, 0, 0⟩⟩

/-- A character that is read, and one for which the interrupt comes too late. -/
theorem input_kept_two : ∃ s, run inputCall (.start .boot)
      [.arrive 97, .getchar 1, .interrupt, .arrive 98] = some s ∧
    (s.InputKept ↔ ∀ s₁, Makes inputCall (.start .boot)
      [.arrive 97, .getchar 1, .interrupt, .arrive 98] s₁ .interrupt → s₁.console.uart = []) :=
  ⟨_, rfl, input_kept_iff .boot _ _ rfl⟩

/-- The interrupt takes the only character: fewer than `INPUT_BUFFER_SIZE` are pending, and
    `getchar_blocking` never returns. -/
theorem input_lost : ¬ ∀ (s₀ : Console) (calls : List InputCall) (s : Typed),
    run inputCall (.start s₀) calls = some s →
    (∀ s₁ c, Makes inputCall (.start s₀) calls s₁ c →
      s₁.arrived.length < s₁.returned.length + inputBufferSize) → s.InputKept := by
  intro h
  have hkept := h .boot [.arrive 97, .interrupt] _ rfl fun s₁ c h₁ => by
    obtain ⟨k, hk, -, hs₁⟩ := h₁.exists_take
    have hall : ∀ k < 2, (run inputCall (.start .boot) ([.arrive 97, .interrupt].take k)).all
        fun s₁ => s₁.arrived.length < s₁.returned.length + inputBufferSize := by
      decide
    have hk := hall k hk
    rw [hs₁] at hk
    simpa using hk
  rw [inputKept_iff] at hkept
  cases hkept

end Fru1tOs
