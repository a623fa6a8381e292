import Fru1tOs.Lib.Loop

/-!
# Formatted output

`printf` of `common.c`: a loop over the format, with a conversion for each percent sign. What is
emitted is a list of characters. Numbers are written in two ways, which share nothing: words from
their most significant digit on, after a loop that looks for the power of ten to start with
(`printDivisor`), and `long long` from the least significant one on, into a buffer that is then
emitted backwards (`printReversed`). A `long` has 32 bits.

The cursor is what is left of the format up to its terminator, which is the end of the list, or
`none` when it is behind the terminator: what is read there is not part of the format, and the scan
is not followed any further (`Scan.overruns`). The arguments are a list, and taking one that is not
there, or is of another size, has no result.
-/

namespace Fru1tOs

open Lib

/-- A character. -/
def ascii (c : Char) : UInt8 := .ofNat c.toNat

/-- The characters of a string. -/
def chars (s : String) : List UInt8 := s.toList.map fun c => UInt8.ofNat c.toNat

/-! ## Numbers -/

/-- A pass of `while (value / divisor > 9) divisor *= 10`, in words of `w` bits. -/
def divisorPass (w value : ℕ) (divisor : ℕ) : Option (Pass ℕ ℕ) :=
  if divisor = 0 then none
  else if value / divisor > 9 then some (.next (divisor * 10 % 2 ^ w))
  else some (.done divisor)

/-- A pass of `while (divisor > 0)`, with the value, the divisor and what was emitted. -/
def digitsPass : ℕ × ℕ × List UInt8 → Option (Pass (ℕ × ℕ × List UInt8) (List UInt8))
  | (value, divisor, out) =>
    if divisor > 0 then
      some (.next (value % divisor, divisor / 10, out ++ [.ofNat (48 + value / divisor)]))
    else some (.done out)

/-- The digits of a word of `w` bits, from the first one on. -/
def printDivisor (w fuel value : ℕ) : Option (List UInt8) := do
  let divisor ← loop (divisorPass w value) fuel 1
  loop digitsPass fuel (value, divisor, [])

/-- The size of the buffer for the digits of a `long long`. -/
abbrev digitBufferSize : ℕ := 32

/-- A pass of `while (value > 0 && pos < 31)`, with the value and the first `pos` characters of
    the buffer. -/
def bufferPass : ℕ × List UInt8 → Option (Pass (ℕ × List UInt8) (List UInt8))
  | (value, buf) =>
    if value > 0 ∧ buf.length < 31 then
      if buf.length < digitBufferSize then
        some (.next (value / 10, buf ++ [.ofNat (48 + value % 10)]))
      else none
    else some (.done buf)

/-- The digits of a double word, from the last one on. -/
def printReversed (fuel value : ℕ) : Option (List UInt8) :=
  if value = 0 then some [ascii '0']
  else do
    let buf ← loop bufferPass fuel (value, [])
    return buf.reverse

/-- The minus sign of a negative value, and its magnitude, which the digits are of. -/
def printSigned {w : ℕ} (digits : ℕ → Option (List UInt8)) (value : BitVec w) :
    Option (List UInt8) :=
  if value.toInt < 0 then (digits (-value).toNat).map (ascii '-' :: ·)
  else digits value.toNat

/-- The eight digits of a word in base 16. -/
def printHex (value : BitVec 32) : List UInt8 :=
  (List.range 8).reverse.map fun i =>
    (chars "0123456789abcdef").getD ((value >>> (i * 4)) &&& 0xf).toNat 0

/-! ## The scan -/

/-- An argument: an `int`, a `long` or a pointer, a `long long`, or a string. -/
inductive VaArg
  | word (v : BitVec 32)
  | dword (v : BitVec 64)
  | str (s : List UInt8)
  deriving DecidableEq, Repr

/-- `va_arg`, of a word. -/
def takeWord : List VaArg → Option (BitVec 32 × List VaArg)
  | .word v :: args => some (v, args)
  | _ => none

/-- `va_arg`, of a double word. -/
def takeDword : List VaArg → Option (BitVec 64 × List VaArg)
  | .dword v :: args => some (v, args)
  | _ => none

/-- `va_arg`, of a string. -/
def takeStr : List VaArg → Option (List UInt8 × List VaArg)
  | .str s :: args => some (s, args)
  | _ => none

/-- The cursor in the format, the arguments that are left, and what was emitted. -/
structure Printf where
  fmt : Option (List UInt8)
  args : List VaArg
  out : List UInt8

/-- How the scan ends: at the terminator, or behind it. -/
inductive Scan
  | stops (out : List UInt8)
  | overruns (out : List UInt8)
  deriving DecidableEq, Repr

/-- The character at the cursor, if that is in the format: the terminator is the last one. -/
def peek : Option (List UInt8) → Option UInt8
  | some [] => some 0
  | some (c :: _) => some c
  | none => none

/-- `fmt++`. -/
def advance : Option (List UInt8) → Option (List UInt8)
  | some (_ :: fmt) => some fmt
  | _ => none

@[simp] theorem peek_nil : peek (some []) = some 0 := rfl
@[simp] theorem peek_cons (c : UInt8) (fmt : List UInt8) : peek (some (c :: fmt)) = some c := rfl
@[simp] theorem advance_nil : advance (some []) = none := rfl
@[simp] theorem advance_cons (c : UInt8) (fmt : List UInt8) :
    advance (some (c :: fmt)) = some fmt := rfl

namespace Printf

/-- `fmt++`, of the state. -/
def next (s : Printf) : Printf := { s with fmt := advance s.fmt }

/-- Characters are emitted. -/
def emit (s : Printf) (l : List UInt8) : Printf := { s with out := s.out ++ l }

@[simp] theorem next_mk (fmt : Option (List UInt8)) (args : List VaArg) (out : List UInt8) :
    next ⟨fmt, args, out⟩ = ⟨advance fmt, args, out⟩ := rfl
@[simp] theorem emit_mk (fmt : Option (List UInt8)) (args : List VaArg) (out l : List UInt8) :
    emit ⟨fmt, args, out⟩ l = ⟨fmt, args, out ++ l⟩ := rfl

/-- Something is emitted for a word. -/
def word (s : Printf) (f : BitVec 32 → Option (List UInt8)) : Option Printf := do
  let (v, args) ← takeWord s.args
  return { s with args := args }.emit (← f v)

/-- Something is emitted for a double word. -/
def dword (s : Printf) (f : BitVec 64 → Option (List UInt8)) : Option Printf := do
  let (v, args) ← takeDword s.args
  return { s with args := args }.emit (← f v)

theorem word_cons {f : BitVec 32 → Option (List UInt8)} {v : BitVec 32} {l : List UInt8}
    (h : f v = some l) (fmt : Option (List UInt8)) (args : List VaArg) (out : List UInt8) :
    word ⟨fmt, .word v :: args, out⟩ f = some ⟨fmt, args, out ++ l⟩ := by
  simp [word, takeWord, h]

theorem dword_cons {f : BitVec 64 → Option (List UInt8)} {v : BitVec 64} {l : List UInt8}
    (h : f v = some l) (fmt : Option (List UInt8)) (args : List VaArg) (out : List UInt8) :
    dword ⟨fmt, .dword v :: args, out⟩ f = some ⟨fmt, args, out ++ l⟩ := by
  simp [dword, takeDword, h]

/-- The case `'l'` of the conversions, the cursor being on the first `l`. -/
def long (fuel : ℕ) (s : Printf) : Option Printf :=
  let s := s.next
  if peek s.fmt = ascii 'l' then
    let s := s.next
    if peek s.fmt = ascii 'u' then s.dword fun v => printReversed fuel v.toNat
    else if peek s.fmt = ascii 'd' then s.dword (printSigned (printReversed fuel))
    else some s
  else if peek s.fmt = ascii 'u' then s.word fun v => printDivisor 32 fuel v.toNat
  else if peek s.fmt = ascii 'd' then s.word (printSigned (printDivisor 32 fuel))
  else some s

/-- The conversions but for a percent sign at the end of the format. -/
def convert (fuel : ℕ) (s : Printf) : Option Printf :=
  let c := peek s.fmt
  if c = ascii '%' then some (s.emit [ascii '%'])
  else if c = ascii 's' then do
    let (v, args) ← takeStr s.args
    return { s with args := args }.emit v
  else if c = ascii 'd' then s.word (printSigned (printDivisor 32 fuel))
  else if c = ascii 'x' then s.word fun v => some (printHex v)
  else if c = ascii 'u' then s.word fun v => printDivisor 32 fuel v.toNat
  else if c = ascii 'l' then s.long fuel
  else if c = ascii 'p' then s.word fun v => some (chars "0x" ++ printHex v)
  else some s

/-- A pass of the loop. -/
def pass (fuel : ℕ) (s : Printf) : Option (Pass Printf Scan) :=
  match peek s.fmt with
  | none => some (.done (.overruns s.out))
  | some c =>
    if c = 0 then some (.done (.stops s.out))
    else if c = ascii '%' then
      let s := s.next
      if peek s.fmt = some 0 then some (.done (.stops (s.out ++ [ascii '%'])))
      else do
        let s ← s.convert fuel
        return .next s.next
    else some (.next (s.emit [c]).next)

variable {fuel : ℕ} {c : UInt8} {fmt : List UInt8} {args : List VaArg} {out : List UInt8}

/-- A pass at a percent sign that is not the last character. -/
theorem pass_percent (hc : c ≠ 0) :
    pass fuel ⟨some (ascii '%' :: c :: fmt), args, out⟩ =
      (convert fuel ⟨some (c :: fmt), args, out⟩).bind fun s => some (.next s.next) := by
  simp [pass, ascii, hc]

/-- A pass at another character. -/
theorem pass_char (hc : c ≠ 0) (hpercent : c ≠ ascii '%') :
    pass fuel ⟨some (c :: fmt), args, out⟩ = some (.next ⟨some fmt, args, out ++ [c]⟩) := by
  simp [pass, hc, hpercent]

end Printf

/-- `printf`. -/
def printf (fuel : ℕ) (fmt : List UInt8) (args : List VaArg) : Option Scan :=
  loop (Printf.pass fuel) fuel ⟨some fmt, args, []⟩

end Fru1tOs
