import Fru1tOs.Lib.Bounded
import Fru1tOs.Shell.Words

/-!
# The arrays of the tokenizer

`shell_tokenize` as it works on its arrays: the static `token_buffer`, of `SHELL_BUFFER_SIZE`
characters, and `args`, which has room for `max_args` pointers. A store out of an array has no
result. The variables `argc` and `token_pos` say which cells are in use, and with the cells as lists
this is the `shellTokenize` of the lines (`Scanner.shellTokenize_rel`). What the arrays hold at
first does not matter.

`shell_parse_command` goes through the same array to free the tokens (`freeArgs_eq`).
-/

namespace Fru1tOs

open Lib

/-- The variables of `shell_tokenize`, and its arrays. -/
structure Scanner (maxArgs : ℕ) where
  heap : Heap
  args : Vector ℕ maxArgs
  argc : ℕ
  i : ℕ
  argStart : ℤ
  tokenBuffer : Vector UInt8 shellBufferSize
  tokenPos : ℕ

namespace Scanner

variable {n : ℕ}

/-- The token is terminated and copied in a block of its own, which is the next argument. -/
def flush (t : Scanner n) : Option (Scanner n) := do
  let tokenBuffer ← store t.tokenBuffer t.tokenPos 0
  let (arg, heap) ← kmalloc t.heap (t.tokenPos + 1)
  let args ← store t.args t.argc arg
  let token ← cString tokenBuffer
  return { t with
    heap := { heap with mem := strcpy heap.mem arg token }
    args := args
    argc := t.argc + 1
    tokenBuffer := tokenBuffer }

/-- A pass of the loop of `shell_tokenize`. -/
def pass (input : List UInt8) (t : Scanner n) : Option (Pass (Scanner n) (Scanner n)) := do
  let c ← (input ++ [0])[t.i]?
  if c ≠ 0 ∧ t.argc < n then
    if isBlank c then
      if t.argStart ≠ -1 then do
        let t ← t.flush
        return .next { t with argStart := -1, tokenPos := 0, i := t.i + 1 }
      else return .next { t with i := t.i + 1 }
    else do
      let tokenBuffer ← store t.tokenBuffer t.tokenPos c
      return .next { t with
        argStart := if t.argStart = -1 then t.i else t.argStart
        tokenBuffer := tokenBuffer
        tokenPos := t.tokenPos + 1
        i := t.i + 1 }
  else return .done t

/-- `shell_tokenize`. It returns `argc`. -/
def shellTokenize (s : Heap) (tokenBuffer : Vector UInt8 shellBufferSize) (input : List UInt8)
    (args : Vector ℕ n) : Option (Scanner n) := do
  let t ← loop (pass input) (input.length + 1) ⟨s, args, 0, 0, -1, tokenBuffer, 0⟩
  if t.argStart ≠ -1 ∧ t.argc < n then t.flush else return t

/-! ## The cells in use -/

/-- The cells in use are the arguments and the token. -/
structure Sim (t : Scanner n) (u : Tokens) : Prop where
  heap : t.heap = u.heap
  args : front t.args t.argc = u.args
  argc : t.argc ≤ n
  start : t.argStart = -1 ↔ u.argStart = none
  token : front t.tokenBuffer t.tokenPos = u.token
  pos : t.tokenPos ≤ shellBufferSize
  ne_zero : ∀ c ∈ u.token, c ≠ 0

namespace Sim

variable {t : Scanner n} {u : Tokens}

theorem length_args (h : t.Sim u) : u.args.length = t.argc := by
  rw [← h.args, length_front _ h.argc]

theorem length_token (h : t.Sim u) : u.token.length = t.tokenPos := by
  rw [← h.token, length_front _ h.pos]

/-- The token is copied, if its terminating zero fits the buffer. -/
theorem flush (h : t.Sim u) (hargc : t.argc < n) :
    Option.Rel (fun t' u' => t'.i = t.i ∧ t'.Sim u') t.flush (storeToken u) := by
  rw [Scanner.flush, storeToken, h.length_token, h.heap]
  by_cases hpos : t.tokenPos < shellBufferSize
  swap
  · rw [store_of_le _ (not_lt.1 hpos), if_neg hpos]
    exact .none
  have hstr : cString (t.tokenBuffer.set t.tokenPos 0 hpos) = some u.token := by
    rw [cString_set_zero hpos (by rw [h.token]; exact h.ne_zero), h.token]
  rw [store_of_lt _ hpos, if_pos hpos]
  simp only [Option.bind_eq_bind, Option.bind_some, Option.pure_def]
  cases kmalloc u.heap (t.tokenPos + 1) with
  | none => exact .none
  | some r =>
    simp only [Option.bind_some, store_of_lt _ hargc, hstr]
    refine .some ⟨rfl, rfl, ?_, hargc, h.start, ?_, h.pos, h.ne_zero⟩
    · simp only [front_set_succ, h.args]
    · simp only [front_set_of_le _ hpos _ le_rfl, h.token]

/-- A blank between two tokens. -/
theorem skip (h : t.Sim u) : Sim { t with i := t.i + 1 } u :=
  ⟨h.heap, h.args, h.argc, h.start, h.token, h.pos, h.ne_zero⟩

/-- A new token. -/
theorem cut (h : t.Sim u) (i : ℕ) :
    Sim { t with argStart := -1, tokenPos := 0, i := i } { u with argStart := none, token := [] } :=
  ⟨h.heap, h.args, h.argc, by simp, front_zero _, Nat.zero_le _, by simp⟩

/-- A character of the token. -/
theorem char (h : t.Sim u) {c : UInt8} (hc : c ≠ 0) (hpos : t.tokenPos < shellBufferSize) :
    Sim { t with
        argStart := if t.argStart = -1 then t.i else t.argStart
        tokenBuffer := t.tokenBuffer.set t.tokenPos c hpos
        tokenPos := t.tokenPos + 1
        i := t.i + 1 }
      { u with argStart := u.argStart.or (some t.i), token := u.token ++ [c] } := by
  refine ⟨h.heap, h.args, h.argc, ?_, ?_, hpos, fun d hd => ?_⟩
  · -- `arg_start` is an index now.
    simp only [Option.or_eq_none_iff, reduceCtorEq, and_false, iff_false]
    split_ifs with hs
    · exact not_false
    · exact hs
  · simp only [front_set_succ, h.token]
  · rcases List.mem_append.1 hd with hd | hd
    · exact h.ne_zero d hd
    · exact List.mem_singleton.1 hd ▸ hc

/-- The loop, from the character `i` on. -/
theorem loop (h : t.Sim u) (pre : List UInt8) {input : List UInt8} (hinput : ∀ c ∈ input, c ≠ 0)
    (hi : t.i = pre.length) {fuel : ℕ} (hfuel : input.length < fuel) :
    Option.Rel (fun t' u' => t'.Sim u') (Lib.loop (pass (pre ++ input)) fuel t)
      (tokenizeFrom n t.i input u) := by
  induction input generalizing pre t u fuel with
  | nil =>
    obtain ⟨fuel, rfl⟩ : ∃ k, fuel = k + 1 := ⟨fuel - 1, by omega⟩
    have hpass : pass (pre ++ []) t = some (.done t) := by simp [pass, hi]
    rw [loop_done hpass, tokenizeFrom]
    exact .some h
  | cons c input ih =>
    rw [List.length_cons] at hfuel
    obtain ⟨fuel, rfl⟩ : ∃ k, fuel = k + 1 := ⟨fuel - 1, by omega⟩
    have hfuel' : input.length < fuel := by omega
    have hc : c ≠ 0 := hinput c List.mem_cons_self
    have hrest : ∀ c ∈ input, c ≠ 0 := fun d hd => hinput d (List.mem_cons_of_mem _ hd)
    have hchar : (pre ++ c :: input ++ [0])[t.i]? = some c := by simp [hi]
    have hpre : pre ++ c :: input = (pre ++ [c]) ++ input := by simp
    have hnext : t.i + 1 = (pre ++ [c]).length := by rw [hi, List.length_append]; rfl
    rw [tokenizeFrom, h.length_args, Lib.loop, pass, hchar]
    simp only [Option.bind_eq_bind, Option.bind_some, Option.pure_def, hc, ne_eq,
      not_false_eq_true, true_and]
    by_cases hmax : t.argc < n
    swap
    · rw [if_neg hmax, if_neg hmax]
      exact .some h
    rw [if_pos hmax, if_pos hmax]
    by_cases hblank : isBlank c = true
    · rw [if_pos hblank, if_pos hblank]
      by_cases hstart : t.argStart = -1
      · rw [if_neg (not_not.2 hstart), if_neg (not_not.2 (h.start.1 hstart)), hpre]
        exact ih h.skip _ hrest hnext hfuel'
      · have hflush := h.flush hmax
        rw [if_pos hstart, if_pos fun hs => hstart (h.start.2 hs), hpre]
        generalize t.flush = x at hflush ⊢
        generalize storeToken u = y at hflush ⊢
        cases hflush with
        | none => exact .none
        | @some t' u' hflush =>
          have := ih (hflush.2.cut (t.i + 1)) _ hrest hnext hfuel'
          simpa only [Option.bind_some, hflush.1] using this
    · rw [if_neg hblank, if_neg hblank, h.length_token, hpre]
      by_cases hpos : t.tokenPos < shellBufferSize
      · rw [store_of_lt _ hpos, if_pos hpos]
        exact ih (h.char hc hpos) _ hrest hnext hfuel'
      · rw [store_of_le _ (not_lt.1 hpos), if_neg hpos]
        exact .none

end Sim

/-- The scan of a line is that of `shellTokenize`, whatever the arrays hold at first. -/
theorem shellTokenize_rel (s : Heap) (tokenBuffer : Vector UInt8 shellBufferSize)
    {input : List UInt8} (hinput : ∀ c ∈ input, c ≠ 0) (args : Vector ℕ n) :
    Option.Rel (fun t r => t.argc ≤ n ∧ front t.args t.argc = r.1 ∧ t.heap = r.2)
      (shellTokenize s tokenBuffer input args) (Fru1tOs.shellTokenize s input n) := by
  have hstart : Sim (⟨s, args, 0, 0, -1, tokenBuffer, 0⟩ : Scanner n) ⟨s, [], none, []⟩ :=
    ⟨rfl, front_zero _, Nat.zero_le _, by simp, front_zero _, Nat.zero_le _, by simp⟩
  have hloop := hstart.loop [] hinput rfl (Nat.lt_succ_self input.length)
  refine optionRel_bind hloop fun t u h => ?_
  by_cases hlast : t.argStart ≠ -1 ∧ t.argc < n
  · rw [if_pos hlast, if_pos (by rwa [h.length_args, ne_eq, ← h.start])]
    have hflush := h.flush hlast.2
    generalize t.flush = x at hflush ⊢
    generalize storeToken u = y at hflush ⊢
    cases hflush with
    | none => exact .none
    | some h' => exact .some ⟨h'.2.argc, h'.2.args, h'.2.heap⟩
  · rw [if_neg hlast, if_neg (by rwa [h.length_args, ne_eq, ← h.start])]
    exact .some ⟨h.argc, h.args, h.heap⟩

end Scanner

/-! ## Freeing the tokens -/

section Free

variable {σ : Type} {n : ℕ} (free : σ → ℕ → Option σ) (args : Vector ℕ n)

/-- A pass of the loop of `shell_parse_command`, at the index `i` of the arguments. -/
def freePass (argc : ℕ) : σ × ℕ → Option (Pass (σ × ℕ) σ)
  | (s, i) =>
    if i < argc then do
      let arg ← args[i]?
      let s ← free s arg
      return .next (s, i + 1)
    else return .done s

/-- The loop of `shell_parse_command`, which frees the tokens. -/
def freeArgs (argc : ℕ) (s : σ) : Option σ := loop (freePass free args argc) (argc + 1) (s, 0)

variable {argc : ℕ}

theorem loop_freePass (h : argc ≤ n) {k i : ℕ} (hi : i + k = argc) (s : σ) :
    loop (freePass free args argc) (k + 1) (s, i) = ((front args argc).drop i).foldlM free s := by
  induction k generalizing i s with
  | zero =>
    have hdone : freePass free args argc (s, i) = some (.done s) := if_neg (by omega)
    rw [loop_done hdone, List.drop_of_length_le (by rw [length_front _ h]; omega)]
    rfl
  | succ k ih =>
    have hlt : i < argc := by omega
    have hin : i < n := by omega
    have hdrop : (front args argc).drop i = args[i] :: (front args argc).drop (i + 1) := by
      rw [List.drop_eq_getElem_cons (by rwa [length_front _ h])]
      congr 1
      simp [front]
    rw [hdrop, List.foldlM_cons, loop, freePass, if_pos hlt, Vector.getElem?_eq_getElem hin]
    simp only [Option.bind_eq_bind, Option.bind_some, Option.pure_def]
    cases free s args[i] with
    | none => rfl
    | some s' => exact ih (by omega) s'

/-- The loop goes once through the arguments. -/
theorem freeArgs_eq (h : argc ≤ n) (s : σ) :
    freeArgs free args argc s = (front args argc).foldlM free s :=
  loop_freePass free args h (Nat.zero_add argc) s

end Free

/-- `shell_parse_command`, with what its arrays hold at first. -/
def Scanner.shellParseCommand (L : FsLayout) (tokenBuffer : Vector UInt8 shellBufferSize)
    (args : Vector ℕ maxArgs) (s : Shell) (input : List UInt8) : Option Shell := do
  let t ← Scanner.shellTokenize s.heap tokenBuffer input args
  if t.argc > 0 then
    let cmd ← t.args[0]?
    let s ← shellExecuteCommand L { s with heap := t.heap } cmd (front t.args t.argc)
    let heap ← freeArgs kfree t.args t.argc s.heap
    return { s with heap := heap }
  else return { s with heap := t.heap }

/-- `shell_parse_command` works on its arrays as on lists. -/
theorem Scanner.shellParseCommand_eq (L : FsLayout) (tokenBuffer : Vector UInt8 shellBufferSize)
    (args : Vector ℕ maxArgs) (s : Shell) {input : List UInt8} (hinput : ∀ c ∈ input, c ≠ 0) :
    Scanner.shellParseCommand L tokenBuffer args s input = Fru1tOs.shellParseCommand L s input := by
  have hrel := Scanner.shellTokenize_rel s.heap tokenBuffer hinput args
  rw [Scanner.shellParseCommand, Fru1tOs.shellParseCommand]
  generalize Scanner.shellTokenize s.heap tokenBuffer input args = x at hrel ⊢
  generalize Fru1tOs.shellTokenize s.heap input maxArgs = y at hrel ⊢
  cases hrel with
  | none => rfl
  | @some t r h =>
    obtain ⟨hargc, hargs, hheap⟩ := h
    obtain ⟨args', heap⟩ := r
    simp only at hargs hheap
    simp only [Option.bind_eq_bind, Option.bind_some, Option.pure_def, hheap, hargs,
      freeArgs_eq _ _ hargc]
    cases args' with
    | nil =>
      have h0 : t.argc = 0 := by rw [← length_front t.args hargc, hargs, List.length_nil]
      rw [h0, if_neg (lt_irrefl 0)]
    | cons cmd rest =>
      obtain ⟨hpos, hcmd⟩ := of_front_eq_cons hargs
      rw [if_pos hpos, hcmd]
      rfl

end Fru1tOs
