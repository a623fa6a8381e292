import Fru1tOs.Epoll.Wait
import Fru1tOs.Kernel.Input

/-!
# The UART as a descriptor

`uart_fd_read` and `uart_fd_poll`, with which the UART is a descriptor that `epoll_wait` can
monitor. A read looks at the status register twice for each character and then takes it, and
characters and interrupts may come between any two of these accesses. So the reader is a state
machine here, of which a step is one access (`UartSystem.readStep`), in any order with what else
happens.

`handle_uart_interrupt` takes characters too. When it does so after the reader has seen one and
before it takes it, the reader waits, or reads what is not there. Otherwise a read never waits, and
every character goes to one of the two, in the order of arrival (`uart_reads_right`).
-/

namespace Fru1tOs

open Lib

/-- `FD_READABLE`. -/
abbrev fdReadable : BitVec 32 := 1

/-- `FD_WRITABLE`. -/
abbrev fdWritable : BitVec 32 := 2

/-- `EPOLLIN`. -/
abbrev epollIn : BitVec 32 := 0x001

/-- `uart_fd_poll`. -/
def uartFdPoll (s : Console) : BitVec 32 :=
  fdWritable ||| if uartRxReady s then fdReadable else 0

/-- `uart_fd_ops`. -/
def uartFdOps : FdOps := ⟨true, true⟩

/-- Where `uart_fd_read` is, with the characters that are left to read and those that it has read:
    before a pass of its loop, at the loop of `uart_getchar`, and behind it. -/
inductive ReadPoint
  | idle
  | loop (left : ℕ) (buf : List (BitVec 8))
  | getchar (left : ℕ) (buf : List (BitVec 8))
  | rhr (left : ℕ) (buf : List (BitVec 8))
  deriving DecidableEq, Repr

/-- The characters that a call has read. -/
def ReadPoint.buf : ReadPoint → List (BitVec 8)
  | idle => []
  | loop _ buf => buf
  | getchar _ buf => buf
  | rhr _ buf => buf

/-- The steps that are left, if the reader never waits. -/
def ReadPoint.rank : ReadPoint → ℕ
  | idle => 0
  | loop left _ => 3 * left + 1
  | getchar left _ => 3 * left + 3
  | rhr left _ => 3 * left + 2

/-- How many characters a call will have read at most. -/
def ReadPoint.room : ReadPoint → ℕ
  | idle => 0
  | loop left buf => buf.length + left
  | getchar left buf => buf.length + 1 + left
  | rhr left buf => buf.length + 1 + left

/-- The reader has seen a character that it has not yet taken. -/
def ReadPoint.Seen : ReadPoint → Prop
  | getchar _ _ => True
  | rhr _ _ => True
  | _ => False

/-- Who takes a character. -/
inductive Taker
  | reader | interrupt
  deriving DecidableEq, Repr

/-- The characters of one taker. -/
def takenBy (t : Taker) (log : List (Taker × BitVec 8)) : List (BitVec 8) :=
  (log.filter (·.1 = t)).map Prod.snd

/-- The UART with its reader, what the calls have returned, and who has taken which characters. -/
structure UartSystem where
  console : Console
  point : ReadPoint
  returned : List (List (BitVec 8))
  log : List (Taker × BitVec 8)

/-- What happens. -/
inductive UartAction
  | arrive (c : BitVec 8)
  | interrupt
  | read (count : ℕ)
  | step
  deriving DecidableEq, Repr

namespace UartSystem

/-- `uart_fd_read` returns. -/
def done (s : UartSystem) (buf : List (BitVec 8)) : UartSystem :=
  { s with point := .idle, returned := s.returned ++ [buf] }

/-- The next access of `uart_fd_read` to the UART. -/
def readStep (s : UartSystem) : UartSystem :=
  match s.point with
  | .idle => s
  | .loop 0 buf => s.done buf
  | .loop (left + 1) buf =>
    if uartRxReady s.console then { s with point := .getchar left buf } else s.done buf
  | .getchar left buf =>
    -- Otherwise it waits for an interrupt.
    if uartRxReady s.console then { s with point := .rhr left buf } else s
  | .rhr left buf =>
    let (c, console) := uartReadRhr s.console
    { s with
      console := console
      point := .loop left (buf ++ [c])
      log := s.log ++ [(.reader, c)] }

/-- An action. -/
def act (s : UartSystem) : UartAction → UartSystem
  | .arrive c => { s with console := { s.console with uart := s.console.uart ++ [c] } }
  | .interrupt => { s with
      console := handleUartInterrupt s.console
      log := s.log ++ s.console.uart.head?.toList.map (Prod.mk .interrupt) }
  | .read count => if s.point = .idle then { s with point := .loop count [] } else s
  | .step => s.readStep

/-- No interrupt is taken while the reader has seen a character that it has not taken. -/
def Masked (s : UartSystem) : List UartAction → Prop
  | [] => True
  | a :: as => (a = .interrupt → ¬ s.point.Seen) ∧ (s.act a).Masked as

/-- The call that is under way has read a character, or will find one. -/
def Fed (s : UartSystem) : Prop :=
  s.point.buf ≠ [] ∨ s.console.uart ≠ [] ∧ s.point.rank ≠ 1

/-- Nothing was typed yet. -/
def start (b : InputBuffer) : UartSystem := ⟨⟨[], b⟩, .idle, [], []⟩

end UartSystem

/-- The characters that arrive. -/
def arrivals (as : List UartAction) : List (BitVec 8) :=
  as.filterMap fun
    | .arrive c => some c
    | _ => none

/-- What holds when nobody takes a character that the reader has seen. -/
structure UartInv (b : InputBuffer) (arrived : List (BitVec 8)) (s : UartSystem) : Prop where
  /-- Every character is taken once, in the order of arrival. -/
  taken : s.log.map Prod.snd ++ s.console.uart = arrived
  /-- The reader has what it has taken. -/
  reader : s.returned.flatten ++ s.point.buf = takenBy .reader s.log
  /-- The interrupt puts what it takes in the buffer. -/
  buffer : s.console.inputBuf =
    ((takenBy .interrupt s.log).foldl inputBufferPut ⟨[], b⟩).inputBuf
  /-- What the reader has seen is there. -/
  seen : s.point.Seen → s.console.uart ≠ []

/-! ## The buffer of the interrupt -/

theorem uart_inputBufferPut (s : Console) (c : BitVec 8) : (inputBufferPut s c).uart = s.uart := by
  rw [inputBufferPut]
  split <;> rfl

/-- The buffer depends on the buffer only. -/
theorem inputBuf_inputBufferPut {s s' : Console} (h : s.inputBuf = s'.inputBuf) (c : BitVec 8) :
    (inputBufferPut s c).inputBuf = (inputBufferPut s' c).inputBuf := by
  rw [inputBufferPut, inputBufferPut, h]
  split
  · rfl
  · exact h

theorem uartRxReady_iff (s : Console) : uartRxReady s = true ↔ s.uart ≠ [] := by
  rw [uartRxReady]
  cases s.uart <;> simp

theorem takenBy_concat (t t' : Taker) (log : List (Taker × BitVec 8)) (c : BitVec 8) :
    takenBy t (log ++ [(t', c)]) = takenBy t log ++ if t' = t then [c] else [] := by
  rw [takenBy, takenBy, List.filter_append, List.map_append]
  by_cases h : t' = t <;> simp [h]

/-! ## Steps -/

section Steps

variable {b : InputBuffer} {arrived : List (BitVec 8)} {s : UartSystem} {a : UartAction}

/-- The call returns what it has read. -/
theorem UartInv.done (h : UartInv b arrived s) : UartInv b arrived (s.done s.point.buf) := by
  refine ⟨h.taken, Eq.trans ?_ h.reader, h.buffer, fun hs => hs.elim⟩
  simp [UartSystem.done, ReadPoint.buf]

/-- The reader goes on, with the characters it has. -/
theorem UartInv.goes_on (h : UartInv b arrived s) {p : ReadPoint} (hbuf : p.buf = s.point.buf)
    (hseen : p.Seen → s.console.uart ≠ []) : UartInv b arrived { s with point := p } :=
  ⟨h.taken, hbuf ▸ h.reader, h.buffer, hseen⟩

/-- The character that was seen is taken. -/
theorem UartInv.take (h : UartInv b arrived s) {left : ℕ} {buf : List (BitVec 8)}
    (hpoint : s.point = .rhr left buf) :
    ∃ c l, s.console.uart = c :: l ∧ UartInv b arrived { s with
      console := { s.console with uart := l }
      point := .loop left (buf ++ [c])
      log := s.log ++ [(.reader, c)] } := by
  obtain ⟨c, l, hl⟩ := List.exists_cons_of_ne_nil (h.seen (by rw [hpoint]; trivial))
  have hreader := h.reader
  rw [hpoint] at hreader
  refine ⟨c, l, hl, ?_, ?_, ?_, fun hs => hs.elim⟩
  · rw [← h.taken, hl]
    simp
  · simp only [takenBy_concat, ← hreader, ReadPoint.buf, if_true, List.append_assoc]
  · simp only [takenBy_concat, reduceCtorEq, if_false, List.append_nil]
    exact h.buffer

/-- An access of the reader. -/
theorem UartInv.readStep (h : UartInv b arrived s) : UartInv b arrived s.readStep := by
  rw [UartSystem.readStep]
  have hready := uartRxReady_iff s.console
  split
  · exact h
  · next buf hpoint => simpa only [hpoint, ReadPoint.buf] using h.done
  · next left buf hpoint =>
    split_ifs with hr
    · exact h.goes_on (by rw [hpoint]; rfl) fun _ => hready.1 hr
    · simpa only [hpoint, ReadPoint.buf] using h.done
  · next left buf hpoint =>
    split_ifs with hr
    · exact h.goes_on (by rw [hpoint]; rfl) fun _ => hready.1 hr
    · exact h
  · next left buf hpoint =>
    obtain ⟨c, l, hl, h'⟩ := h.take hpoint
    have hread : uartReadRhr s.console = (c, { s.console with uart := l }) := by
      rw [uartReadRhr, hl]
    simp only [hread]
    exact h'

/-- An interrupt, when the reader has not seen a character that it has not taken. -/
theorem UartInv.interrupt (h : UartInv b arrived s) (hseen : ¬ s.point.Seen) :
    UartInv b arrived (s.act .interrupt) := by
  rw [UartSystem.act, handleUartInterrupt]
  have hready := uartRxReady_iff s.console
  cases hl : s.console.uart with
  | nil =>
    rw [if_neg fun hr => hready.1 hr hl]
    simpa using h
  | cons c l =>
    rw [if_pos (hready.2 (by rw [hl]; exact List.cons_ne_nil c l)), uartReadRhr, hl]
    refine ⟨?_, ?_, ?_, fun hs => absurd hs hseen⟩
    · rw [← h.taken, hl, uart_inputBufferPut]
      simp
    · simpa [takenBy_concat] using h.reader
    · simp only [List.head?_cons, Option.toList_some, List.map_cons, List.map_nil, takenBy_concat,
        if_true, List.foldl_append, List.foldl_cons, List.foldl_nil]
      have hbuffer : (⟨l, s.console.inputBuf⟩ : Console).inputBuf = _ := h.buffer
      exact inputBuf_inputBufferPut hbuffer c

/-- An action. -/
theorem UartInv.act (h : UartInv b arrived s) (hmask : a = .interrupt → ¬ s.point.Seen) :
    UartInv b (arrived ++ arrivals [a]) (s.act a) := by
  cases a with
  | arrive c =>
    refine ⟨?_, h.reader, h.buffer, fun _ => by simp [UartSystem.act]⟩
    simp [UartSystem.act, arrivals, ← h.taken]
  | interrupt =>
    have := h.interrupt (hmask rfl)
    simpa [arrivals] using this
  | read count =>
    rw [show arrivals [.read count] = [] from rfl, List.append_nil, UartSystem.act]
    split_ifs with hidle
    · exact h.goes_on (by rw [hidle]; rfl) fun hs => hs.elim
    · exact h
  | step =>
    rw [show arrivals [.step] = [] from rfl, List.append_nil]
    exact h.readStep

/-- A run, from the start. -/
theorem UartInv.run (h : UartInv b arrived s) {as : List UartAction} (hmask : s.Masked as) :
    UartInv b (arrived ++ arrivals as) (as.foldl UartSystem.act s) := by
  induction as generalizing arrived s with
  | nil => rwa [show arrivals [] = [] from rfl, List.append_nil]
  | cons a as ih =>
    have := ih (h.act hmask.1) hmask.2
    rwa [List.append_assoc, show arrivals [a] ++ arrivals as = arrivals (a :: as) by
      rw [arrivals, arrivals, arrivals, ← List.filterMap_append, List.singleton_append]] at this

end Steps

/-! ## Returning -/

section Returning

variable {b : InputBuffer} {arrived : List (BitVec 8)} {s : UartSystem} {a : UartAction}

/-- What an action does to a call that is under way: the call returns what it has, or goes on, after
    a step of its own with fewer of them left. -/
theorem UartInv.act_cases (h : UartInv b arrived s) (hidle : s.point ≠ .idle) :
    (s.act a = s.done s.point.buf ∧ (s.Fed → s.point.buf ≠ [])) ∨
      ((s.act a).returned = s.returned ∧ (s.act a).point ≠ .idle ∧
        (s.act a).point.rank + [a].count .step ≤ s.point.rank ∧
        (s.act a).point.room = s.point.room ∧ (a ≠ .interrupt → s.Fed → (s.act a).Fed)) := by
  have hready := uartRxReady_iff s.console
  cases a with
  | arrive c =>
    refine .inr ⟨rfl, hidle, le_rfl, rfl, fun _ hfed => hfed.imp id fun hrank => ?_⟩
    exact ⟨by simp [UartSystem.act], hrank.2⟩
  | interrupt => exact .inr ⟨rfl, hidle, le_rfl, rfl, fun hne => absurd rfl hne⟩
  | read count =>
    rw [UartSystem.act, if_neg hidle]
    exact .inr ⟨rfl, hidle, le_rfl, rfl, fun _ => id⟩
  | step =>
    rw [List.count_singleton_self]
    cases hpoint : s.point with
    | idle => exact absurd hpoint hidle
    | loop left buf =>
      cases left with
      | zero =>
        refine .inl ⟨by simp only [UartSystem.act, UartSystem.readStep, hpoint, ReadPoint.buf], ?_⟩
        rintro (hbuf | ⟨-, hrank⟩)
        · rwa [hpoint] at hbuf
        · exact absurd (by rw [hpoint]; rfl) hrank
      | succ left =>
        by_cases hr : uartRxReady s.console
        · have hact : s.act .step = { s with point := .getchar left buf } := by
            simp only [UartSystem.act, UartSystem.readStep, hpoint, if_pos hr]
          rw [hact]
          refine .inr ⟨rfl, by simp, ?_, ?_, fun _ _ => .inr ⟨hready.1 hr, ?_⟩⟩
          all_goals simp only [ReadPoint.rank, ReadPoint.room]; omega
        · refine .inl ⟨?_, ?_⟩
          · simp only [UartSystem.act, UartSystem.readStep, hpoint, if_neg hr, ReadPoint.buf]
          · rintro (hbuf | ⟨huart, -⟩)
            · rwa [hpoint] at hbuf
            · exact absurd (hready.2 huart) hr
    | getchar left buf =>
      have huart := h.seen (by rw [hpoint]; trivial)
      have hact : s.act .step = { s with point := .rhr left buf } := by
        simp only [UartSystem.act, UartSystem.readStep, hpoint, if_pos (hready.2 huart)]
      rw [hact]
      refine .inr ⟨rfl, by simp, le_rfl, rfl, fun _ _ => .inr ⟨huart, ?_⟩⟩
      simp only [ReadPoint.rank]
      omega
    | rhr left buf =>
      have hact : s.act .step = { s with
          console := (uartReadRhr s.console).2
          point := .loop left (buf ++ [(uartReadRhr s.console).1])
          log := s.log ++ [(.reader, (uartReadRhr s.console).1)] } := by
        simp only [UartSystem.act, UartSystem.readStep, hpoint]
      rw [hact]
      refine .inr ⟨rfl, by simp, le_rfl, ?_, fun _ _ => .inl ?_⟩
      · simp only [ReadPoint.room, List.length_append, List.length_singleton]
      · simp [ReadPoint.buf]

/-- What was returned stays. -/
theorem returned_prefix_foldl (s : UartSystem) (as : List UartAction) :
    s.returned <+: (as.foldl UartSystem.act s).returned := by
  induction as generalizing s with
  | nil => exact List.prefix_rfl
  | cons a as ih =>
    refine List.IsPrefix.trans ?_ (ih (s.act a))
    cases a with
    | arrive c => exact List.prefix_rfl
    | interrupt => exact List.prefix_rfl
    | read count =>
      rw [UartSystem.act]
      split_ifs <;> exact List.prefix_rfl
    | step =>
      have hdone (buf : List (BitVec 8)) : s.returned <+: (s.done buf).returned :=
        List.prefix_append _ _
      rw [UartSystem.act, UartSystem.readStep]
      split
      · exact List.prefix_rfl
      · exact hdone _
      · split_ifs
        · exact List.prefix_rfl
        · exact hdone _
      · split_ifs <;> exact List.prefix_rfl
      · exact List.prefix_rfl

theorem length_buf_le_room (p : ReadPoint) : p.buf.length ≤ p.room := by
  cases p <;> simp [ReadPoint.buf, ReadPoint.room] <;> omega

/-- A call that is under way returns, after as many of its steps as are left. -/
theorem UartInv.returns (h : UartInv b arrived s) {as : List UartAction} (hmask : s.Masked as)
    (hidle : s.point ≠ .idle) (hsteps : s.point.rank ≤ as.count .step) :
    ∃ buf, s.returned ++ [buf] <+: (as.foldl UartSystem.act s).returned ∧
      buf.length ≤ s.point.room ∧ (.interrupt ∉ as → s.Fed → buf ≠ []) := by
  induction as generalizing arrived s with
  | nil =>
    rw [List.count_nil, Nat.le_zero] at hsteps
    cases hpoint : s.point with
    | idle => exact absurd hpoint hidle
    | _ => simp [hpoint, ReadPoint.rank] at hsteps
  | cons a as ih =>
    rcases h.act_cases (a := a) hidle with ⟨hdone, hfed⟩ | ⟨hreturned, hidle', hrank, hroom, hfed⟩
    · refine ⟨s.point.buf, ?_, length_buf_le_room s.point, fun _ => hfed⟩
      rw [List.foldl_cons, hdone]
      exact returned_prefix_foldl (s.done s.point.buf) as
    · have hcount : (a :: as).count .step = as.count .step + [a].count .step := by
        rw [← List.singleton_append, List.count_append, add_comm]
      obtain ⟨buf, hbuf, hlength, hne⟩ := ih (h.act hmask.1) hmask.2 hidle' (by omega)
      rw [hreturned] at hbuf
      refine ⟨buf, hbuf, hroom ▸ hlength, fun hint hs => ?_⟩
      rw [List.mem_cons, not_or] at hint
      exact hne hint.2 (hfed (Ne.symm hint.1) hs)

end Returning

/-! ## The results -/

/-- A character that was seen and taken by the interrupt is waited for: nothing happens until one
    arrives. -/
theorem uart_read_waits {s : UartSystem} {left : ℕ} {buf : List (BitVec 8)}
    (hpoint : s.point = .getchar left buf) (huart : s.console.uart = []) {as : List UartAction}
    (has : arrivals as = []) : as.foldl UartSystem.act s = s := by
  have hready : ¬ uartRxReady s.console := fun hr => (uartRxReady_iff s.console).1 hr huart
  induction as with
  | nil => rfl
  | cons a as ih =>
    have hact : s.act a = s := by
      cases a with
      | arrive c => simp [arrivals] at has
      | interrupt => simp [UartSystem.act, handleUartInterrupt, hready, huart]
      | read count => rw [UartSystem.act, if_neg (by simp [hpoint])]
      | step => simp [UartSystem.act, UartSystem.readStep, hpoint, hready]
    rw [List.foldl_cons, hact]
    refine ih ?_
    cases a with
    | arrive c => simp [arrivals] at has
    | _ => simpa [arrivals] using has

theorem masked_append {s : UartSystem} {as as' : List UartAction} :
    s.Masked (as ++ as') ↔ s.Masked as ∧ (as.foldl UartSystem.act s).Masked as' := by
  induction as generalizing s with
  | nil => exact (and_iff_right trivial).symm
  | cons a as ih =>
    rw [List.cons_append, UartSystem.Masked, UartSystem.Masked, ih, and_assoc, List.foldl_cons]

/-- A run without interrupts. -/
theorem masked_of_not_mem {s : UartSystem} {as : List UartAction} (h : .interrupt ∉ as) :
    s.Masked as := by
  induction as generalizing s with
  | nil => trivial
  | cons a as ih =>
    rw [List.mem_cons, not_or] at h
    exact ⟨fun ha => absurd ha.symm h.1, ih h.2⟩

/-- At the start nothing was taken. -/
theorem uartInv_start (b : InputBuffer) : UartInv b [] (.start b) :=
  ⟨rfl, rfl, rfl, fun hs => hs.elim⟩

/-- A call from the start of its loop. -/
theorem UartInv.read {b : InputBuffer} {arrived : List (BitVec 8)} {s : UartSystem}
    (h : UartInv b arrived s) (hidle : s.point = .idle) {count : ℕ} {after : List UartAction}
    (hmask : s.Masked (.read count :: after)) (hsteps : 3 * count + 1 ≤ after.count .step) :
    ∃ buf, s.returned ++ [buf] <+: ((.read count :: after).foldl UartSystem.act s).returned ∧
      buf.length ≤ count ∧
      (0 < count → s.console.uart ≠ [] → .interrupt ∉ after → buf ≠ []) := by
  have h₁ := h.act hmask.1
  have hact : s.act (.read count) = { s with point := .loop count [] } := by
    rw [UartSystem.act, if_pos hidle]
  have hmask₁ := hmask.2
  rw [hact] at h₁ hmask₁
  obtain ⟨buf, hbuf, hlength, hne⟩ := h₁.returns hmask₁ (by simp) hsteps
  rw [List.foldl_cons, hact]
  refine ⟨buf, hbuf, by simpa [ReadPoint.room] using hlength, fun hpos huart hint => ?_⟩
  refine hne hint (.inr ⟨huart, ?_⟩)
  simp only [ReadPoint.rank]
  omega

/-- In every run in which no interrupt is taken between the reader's seeing a character and its
    taking it, each character goes once to the reader or to the buffer of the interrupt, in the
    order of arrival. A read never waits: it returns after three accesses for each character, with
    not more than asked for, and with some if there are any and the interrupt takes none. -/
theorem uart_reads_right (b : InputBuffer) (before after : List UartAction) (count : ℕ)
    (hmask : (UartSystem.start b).Masked (before ++ .read count :: after)) :
    let s := before.foldl UartSystem.act (.start b)
    let s' := (before ++ .read count :: after).foldl UartSystem.act (.start b)
    UartInv b (arrivals (before ++ .read count :: after)) s' ∧
      (s.point = .idle → 3 * count + 1 ≤ after.count .step →
        ∃ buf, s.returned ++ [buf] <+: s'.returned ∧ buf.length ≤ count ∧
          (0 < count → s.console.uart ≠ [] → .interrupt ∉ after → buf ≠ [])) := by
  refine ⟨by simpa using (uartInv_start b).run hmask, fun hidle hsteps => ?_⟩
  rw [masked_append] at hmask
  rw [List.foldl_append]
  exact ((uartInv_start b).run hmask.1).read hidle hmask.2 hsteps

/-- Two characters arrive, of which the interrupt takes one and the reader the other. -/
theorem uart_reads_right_two :
    let b := Console.boot.inputBuf
    let before := [UartAction.arrive 97, .arrive 98, .interrupt]
    let after := List.replicate 7 UartAction.step
    let s := before.foldl UartSystem.act (.start b)
    let s' := (before ++ .read 2 :: after).foldl UartSystem.act (.start b)
    UartInv b [97, 98] s' ∧
      ∃ buf, s.returned ++ [buf] <+: s'.returned ∧ buf.length ≤ 2 ∧ buf ≠ [] := by
  intro b before after s s'
  have hmask : (UartSystem.start b).Masked (before ++ .read 2 :: after) := by
    simp [before, after, List.replicate, UartSystem.Masked, UartSystem.start, UartSystem.act,
      ReadPoint.Seen]
  have hright := uart_reads_right b before after 2 hmask
  obtain ⟨buf, hbuf, hlength, hne⟩ := hright.2 rfl (by decide)
  exact ⟨hright.1, buf, hbuf, hlength, hne (by decide) (by decide) (by decide)⟩

/-! ## With epoll -/

theorem epollEvents_uartFdPoll (s : Console) :
    epollEvents (uartFdPoll s) &&& epollIn ≠ 0 ↔ s.uart ≠ [] := by
  rw [← uartRxReady_iff, uartFdPoll]
  cases uartRxReady s <;> decide

/-- There is a character in the UART if not all that arrived were taken. -/
theorem UartInv.uart_ne_nil_iff {b : InputBuffer} {arrived : List (BitVec 8)} {s : UartSystem}
    (h : UartInv b arrived s) : s.console.uart ≠ [] ↔ s.log.length < arrived.length := by
  have hlength := congrArg List.length h.taken
  rw [List.length_append, List.length_map] at hlength
  rw [← List.length_pos_iff]
  omega

/-- In every state that calls on descriptors and epoll instances lead to, with a UART that ran as
    for `uart_reads_right`: when `epoll_wait` is called on an instance that monitors the UART for
    reading, the UART is among the descriptors that are ready, of which the first `maxevents` are
    reported, exactly if not all the characters that arrived were taken. If it is, and no read is
    under way, a read that starts thereafter returns some, without waiting, if the interrupt takes
    none. -/
theorem epoll_wait_uart (s₀ : Epoll) (calls : List EpollCall) (b : InputBuffer)
    (before : List UartAction) (hmask : (UartSystem.start b).Masked before) :
    let u := before.foldl UartSystem.act (.start b)
    ∃ s, run (fun s c => (epollCall s c).map Prod.snd) (fdInit (epollInit s₀)) calls = some s ∧
      ∀ (answer : ℤ → BitVec 32) (i : EpIndex) (m : ℤ → Option EpollEvent) (fd : ℤ)
        (j : Fin maxFds) (data : BitVec 64),
        s.maps i = some m → m fd = some ⟨epollIn, data⟩ → fdGet s fd = some j →
        (s.fds j).ops = some uartFdOps → answer fd = uartFdPoll u.console →
        ∀ (events : ℕ → EpollEvent) (maxevents : ℤ), 0 < maxevents →
        ∃ r events' s' ready,
          epollWaitInto s i.epfd events maxevents answer = some ((r, events'), s') ∧
          WaitReports s answer m maxevents events r events' ready ∧
          (fd ∈ ready ↔ u.log.length < (arrivals before).length) ∧
          (fd ∈ ready → u.point = .idle → ∀ (count : ℕ) (after : List UartAction), 0 < count →
            .interrupt ∉ after → 3 * count + 1 ≤ after.count .step →
            ∃ buf, u.returned ++ [buf] <+:
                ((.read count :: after).foldl UartSystem.act u).returned ∧
              buf.length ≤ count ∧ buf ≠ []) := by
  intro u
  have hinv : UartInv b (arrivals before) u := (uartInv_start b).run hmask
  obtain ⟨s, hs, ts, h⟩ := run_epollInv s₀ calls
  refine ⟨s, hs, fun answer i m fd j data hm hfd hget hops hanswer events maxevents hmax => ?_⟩
  have hi := EpollInv.inUse_of_maps hm
  rw [h.maps_of_inUse hi, Option.some_inj] at hm
  subst hm
  obtain ⟨s', hp, hwait⟩ :=
    epollWait_reports h (h.epollGetInstance_eq_some.2 ⟨hi, rfl⟩) hmax answer
  have hreports := hp.waitReports (h.tree i hi).1 hmax events
  have hready := hreports.mem_ready fd
  rw [Epoll.readyMask, hfd, fdPoll, hget] at hready
  simp only [hops, uartFdOps, hanswer] at hready
  rw [epollEvents_uartFdPoll] at hready
  refine ⟨_, _, s', _, ?_, hreports, hready.trans hinv.uart_ne_nil_iff, ?_⟩
  · rw [epollWaitInto_eq, hwait, Option.map_some]
  · intro hmem hidle count after hpos hint hsteps
    have hmask' : u.Masked (.read count :: after) :=
      masked_of_not_mem (by simpa using hint)
    obtain ⟨buf, hbuf, hlength, hne⟩ := hinv.read hidle hmask' hsteps
    exact ⟨buf, hbuf, hlength, hne hpos (hready.1 hmem) hint⟩

/-- A character arrives while the UART is monitored, and is read. -/
theorem epoll_wait_uart_one :
    let u := [UartAction.arrive 97].foldl UartSystem.act (.start Console.boot.inputBuf)
    ∃ s, run (fun s c => (epollCall s c).map Prod.snd) (fdInit (epollInit .boot))
        [.fdAlloc 1 0 (some uartFdOps), .create, .ctl (-1) epollCtlAdd 0 ⟨epollIn, 7⟩ 4096] =
          some s ∧
      ∃ m r events' s' ready,
        epollWaitInto s (-1) (fun _ => ⟨0, 0⟩) 8 (fun _ => 3) = some ((r, events'), s') ∧
        WaitReports s (fun _ => 3) m 8 (fun _ => ⟨0, 0⟩) r events' ready ∧ 0 ∈ ready ∧
        ∃ buf, u.returned ++ [buf] <+:
            ((.read 1 :: List.replicate 4 UartAction.step).foldl UartSystem.act u).returned ∧
          buf.length ≤ 1 ∧ buf ≠ [] := by
  intro u
  have hmask : (UartSystem.start Console.boot.inputBuf).Masked [.arrive 97] :=
    masked_of_not_mem (by decide)
  obtain ⟨s, hs, h⟩ := epoll_wait_uart .boot
    [.fdAlloc 1 0 (some uartFdOps), .create, .ctl (-1) epollCtlAdd 0 ⟨epollIn, 7⟩ 4096]
    Console.boot.inputBuf [.arrive 97] hmask
  have hstate : (run (fun s c => (epollCall s c).map Prod.snd) (fdInit (epollInit .boot))
      [.fdAlloc 1 0 (some uartFdOps), .create, .ctl (-1) epollCtlAdd 0 ⟨epollIn, 7⟩ 4096]).all
      fun s => (s.instances 0).inUse ∧ (s.maps 0).bind (· 0) = some ⟨epollIn, 7⟩ ∧
        fdGet s 0 = some 0 ∧ (s.fds 0).ops = some uartFdOps := by decide +kernel
  rw [hs, Option.all_some, decide_eq_true_iff] at hstate
  obtain ⟨hused, hmap, hget, hops⟩ := hstate
  have hm : s.maps 0 = some _ := if_pos hused
  rw [hm] at hmap
  obtain ⟨r, events', s', ready, hwait, hreports, hready, hread⟩ :=
    h (fun _ => 3) 0 _ 0 0 7 hm hmap hget hops (by decide) (fun _ => ⟨0, 0⟩) 8 (by decide)
  have hmem := hready.2 (by decide)
  exact ⟨s, hs, _, r, events', s', ready, hwait, hreports, hmem,
    hread hmem rfl 1 _ (by decide) (by decide) (by decide)⟩

end Fru1tOs
