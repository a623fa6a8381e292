import Fru1tOs.Common.Printf
import Fru1tOs.Files.Run

/-!
# The shell

The shell of `kernel.c`: `shell_tokenize` cuts a line at the blanks and copies each token in a
block of the heap, `shell_execute_command` compares the first one with the names of the commands,
and `shell_parse_command` frees the tokens afterwards.

A line is the list of its characters, up to the terminating zero. The two static arrays are lists:
`token_buffer` of the characters before `token_pos`, and `args` of the pointers before `argc`. A
store out of `token_buffer` has no result. A token is copied wherever `kmalloc` says, `NULL`
included. What is printed is left out, so that most commands leave the state as it is.
-/

namespace Fru1tOs

open Lib

/-- `SHELL_BUFFER_SIZE`. -/
abbrev shellBufferSize : ℕ := 256

/-- `MAX_ARGS`. -/
abbrev maxArgs : ℕ := 10

/-- The string at an address, which is shorter than `SHELL_BUFFER_SIZE`. -/
def loadStr (m : Mem) (a : ℕ) : List UInt8 := (loadBytes m a shellBufferSize).takeWhile (· ≠ 0)

/-- The loop of `str_to_int`, in 32-bit arithmetic. -/
def strToIntFrom (result : ℤ) : List UInt8 → ℤ
  | [] => result
  | c :: str =>
    if 48 ≤ c ∧ c ≤ 57 then strToIntFrom ((result * 10 + (c.toNat - 48)).bmod (2 ^ 32)) str
    else result

/-- `str_to_int`. -/
def strToInt (str : List UInt8) : ℤ := strToIntFrom 0 str

/-! ## Tokens -/

/-- The variables of `shell_tokenize`. -/
structure Tokens where
  heap : Heap
  args : List ℕ
  argStart : Option ℕ
  token : List UInt8

/-- A blank or a tab. -/
def isBlank (c : UInt8) : Bool := c = 32 || c = 9

/-- The token is terminated, and copied in a block of its own. -/
def storeToken (t : Tokens) : Option Tokens :=
  if t.token.length < shellBufferSize then do
    let (arg, heap) ← kmalloc t.heap (t.token.length + 1)
    return { t with
      heap := { heap with mem := strcpy heap.mem arg t.token }
      args := t.args ++ [arg] }
  else none

/-- The loop of `shell_tokenize`, from the character `i` on. -/
def tokenizeFrom (maxArgs : ℕ) : ℕ → List UInt8 → Tokens → Option Tokens
  | _, [], t => some t
  | i, c :: input, t =>
    if t.args.length < maxArgs then
      if isBlank c then
        if t.argStart ≠ none then do
          let t ← storeToken t
          tokenizeFrom maxArgs (i + 1) input { t with argStart := none, token := [] }
        else tokenizeFrom maxArgs (i + 1) input t
      else if t.token.length < shellBufferSize then
        tokenizeFrom maxArgs (i + 1) input
          { t with argStart := t.argStart.or (some i), token := t.token ++ [c] }
      else none
    else some t

/-- `shell_tokenize`, with the arguments it has stored. -/
def shellTokenize (s : Heap) (input : List UInt8) (maxArgs : ℕ) : Option (List ℕ × Heap) := do
  let t ← tokenizeFrom maxArgs 0 input ⟨s, [], none, []⟩
  if t.argStart ≠ none ∧ t.args.length < maxArgs then
    let t ← storeToken t
    return (t.args, t.heap)
  else return (t.args, t.heap)

/-! ## Commands -/

/-- The commands. -/
inductive Command
  | help | ls | cat | create | delete | memstat | clear | echo | exit
  deriving DecidableEq, Repr

/-- The name of a command. -/
def Command.name : Command → List UInt8
  | help => chars "help"
  | ls => chars "ls"
  | cat => chars "cat"
  | create => chars "create"
  | delete => chars "delete"
  | memstat => chars "memstat"
  | clear => chars "clear"
  | echo => chars "echo"
  | exit => chars "exit"

/-- The commands, in the order in which `shell_execute_command` compares them. -/
def Command.all : List Command :=
  [help, ls, cat, create, delete, memstat, clear, echo, exit]

/-- The heap, and whether the shell is running. -/
structure Shell where
  heap : Heap
  running : Bool

/-- `cmd_create`. -/
def cmdCreate (L : FsLayout) (s : Shell) (filename sizeStr : List UInt8) : Option Shell :=
  let size := strToInt sizeStr
  if size ≤ 0 ∨ size > maxFilesize then some s
  else do
    let (_, heap) ← fsCreate L s.heap filename size.toNat
    return { s with heap := heap }

/-- `cmd_delete`. -/
def cmdDelete (L : FsLayout) (s : Shell) (filename : List UInt8) : Option Shell := do
  let (_, heap) ← fsDelete L s.heap filename
  return { s with heap := heap }

/-- `shell_execute_command`. The commands that only print something leave the state as it is. -/
def shellExecuteCommand (L : FsLayout) (s : Shell) (cmd : ℕ) (args : List ℕ) : Option Shell :=
  match Command.all.find? fun c => strcmp s.heap.mem cmd c.name = 0 with
  | some .create =>
    match args with
    | _ :: filename :: sizeStr :: _ =>
      cmdCreate L s (loadStr s.heap.mem filename) (loadStr s.heap.mem sizeStr)
    | _ => some s
  | some .delete =>
    match args with
    | _ :: filename :: _ => cmdDelete L s (loadStr s.heap.mem filename)
    | _ => some s
  | some .exit => some { s with running := false }
  | _ => some s

/-- `shell_parse_command`. -/
def shellParseCommand (L : FsLayout) (s : Shell) (input : List UInt8) : Option Shell := do
  let (args, heap) ← shellTokenize s.heap input maxArgs
  match args with
  | [] => return { s with heap := heap }
  | cmd :: rest =>
    let s ← shellExecuteCommand L { s with heap := heap } cmd (cmd :: rest)
    let heap ← (cmd :: rest).foldlM kfree s.heap
    return { s with heap := heap }

/-- The state after `memory_init`, `fs_init` and `shell_init`. -/
def Shell.init (L : FsLayout) (s : Heap) : Shell :=
  ⟨fsInit L (memoryInit L.toHeapLayout s), true⟩

/-! ## Lines -/

/-- The words of a line, the one under way being `token`. -/
def wordsFrom : List UInt8 → List UInt8 → List (List UInt8)
  | token, [] => if token = [] then [] else [token]
  | token, c :: input =>
    if isBlank c then (if token = [] then [] else [token]) ++ wordsFrom [] input
    else wordsFrom (token ++ [c]) input

/-- The words of a line: the runs of characters that are not blanks. -/
def words (input : List UInt8) : List (List UInt8) := wordsFrom [] input

/-- The file name that a command is given, if it takes one. -/
def fileArg : List (List UInt8) → Option (List UInt8)
  | cmd :: filename :: rest =>
    if cmd = Command.cat.name ∨ cmd = Command.delete.name ∨
        (cmd = Command.create.name ∧ rest ≠ []) then some filename
    else none
  | _ => none

/-- A line of fewer than `SHELL_BUFFER_SIZE` characters, with a file name that fits its field. -/
abbrev ShellLine := {input : List UInt8 // (∀ c ∈ input, c ≠ 0) ∧ input.length < shellBufferSize ∧
  ∀ filename ∈ fileArg (words input), filename.length < maxFilename}

end Fru1tOs
