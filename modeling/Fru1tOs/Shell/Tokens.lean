import Fru1tOs.Shell.Basic

/-!
# Tokens

What `shell_tokenize` stores is the words of the line, which are the runs of characters between the
blanks (`words_eq_splitOnP`): it copies the first `max_args` of them, one after another
(`shellTokenize_eq`). So what holds after it is any property of the heap, the arguments and the
words copied so far that copying one more word keeps (`shellTokenize_spec`).
-/

namespace Fru1tOs

open Lib

/-- The last word of a line. -/
def lastWord (token : List UInt8) : List (List UInt8) := if token = [] then [] else [token]

@[simp] theorem lastWord_nil : lastWord [] = [] := rfl

theorem lastWord_of_ne_nil {token : List UInt8} (h : token ≠ []) : lastWord token = [token] :=
  if_neg h

theorem wordsFrom_nil (token : List UInt8) : wordsFrom token [] = lastWord token := rfl

theorem wordsFrom_blank {c : UInt8} (hc : isBlank c = true) (token input : List UInt8) :
    wordsFrom token (c :: input) = lastWord token ++ wordsFrom [] input := by
  rw [wordsFrom, if_pos hc, lastWord]

theorem wordsFrom_char {c : UInt8} (hc : ¬ isBlank c = true) (token input : List UInt8) :
    wordsFrom token (c :: input) = wordsFrom (token ++ [c]) input := by
  rw [wordsFrom, if_neg hc]

theorem wordsFrom_eq_splitOnP (token input : List UInt8) :
    wordsFrom token input =
      ((input.splitOnP isBlank).modifyHead (token ++ ·)).filter (· ≠ []) := by
  induction input generalizing token with
  | nil =>
    rw [wordsFrom_nil, lastWord, List.splitOnP_nil, List.modifyHead_cons, List.append_nil]
    by_cases h : token = [] <;> simp [h]
  | cons c input ih =>
    rw [List.splitOnP_cons_eq_if_modifyHead]
    by_cases hc : isBlank c = true
    · have hrest : (input.splitOnP isBlank).modifyHead ([] ++ ·) = input.splitOnP isBlank := by
        cases input.splitOnP isBlank <;> rfl
      rw [wordsFrom_blank hc, if_pos hc, ih, hrest, List.modifyHead_cons, List.append_nil, lastWord]
      by_cases h : token = [] <;> simp [h]
    · rw [wordsFrom_char hc, if_neg hc, ih, List.modifyHead_modifyHead]
      congr 2
      funext l
      simp

/-- The words are what is between the blanks, if that is not empty. -/
theorem words_eq_splitOnP (input : List UInt8) :
    words input = (input.splitOnP isBlank).filter (· ≠ []) := by
  rw [words, wordsFrom_eq_splitOnP]
  congr 1
  cases input.splitOnP isBlank <;> rfl

/-- The characters of a word are those of the line. -/
theorem mem_of_mem_wordsFrom {token input w : List UInt8} (hw : w ∈ wordsFrom token input) :
    w.length ≤ token.length + input.length ∧ ∀ c ∈ w, c ∈ token ∨ c ∈ input := by
  induction input generalizing token with
  | nil =>
    rw [wordsFrom_nil, lastWord] at hw
    split_ifs at hw
    · cases hw
    · rw [List.mem_singleton.1 hw]
      exact ⟨le_rfl, fun c hc => .inl hc⟩
  | cons d input ih =>
    rw [List.length_cons]
    by_cases hd : isBlank d = true
    · rw [wordsFrom_blank hd, List.mem_append] at hw
      rcases hw with hw | hw
      · rw [lastWord] at hw
        split_ifs at hw
        · cases hw
        · rw [List.mem_singleton.1 hw]
          exact ⟨Nat.le_add_right _ _, fun c hc => .inl hc⟩
      · obtain ⟨hlen, hmem⟩ := ih hw
        rw [List.length_nil] at hlen
        refine ⟨by omega, fun c hc => .inr (List.mem_cons_of_mem _ ?_)⟩
        exact (hmem c hc).resolve_left List.not_mem_nil
    · rw [wordsFrom_char hd] at hw
      obtain ⟨hlen, hmem⟩ := ih hw
      rw [List.length_append, List.length_singleton] at hlen
      refine ⟨by omega, fun c hc => ?_⟩
      rcases hmem c hc with hc | hc
      · rcases List.mem_append.1 hc with hc | hc
        · exact .inl hc
        · exact .inr (List.mem_cons.2 (.inl (List.mem_singleton.1 hc)))
      · exact .inr (List.mem_cons_of_mem _ hc)

/-! ## Copying words -/

/-- A word is copied in a block of its own. -/
def copyWord (s : Heap) (w : List UInt8) : Option (ℕ × Heap) := do
  let (arg, heap) ← kmalloc s (w.length + 1)
  return (arg, { heap with mem := strcpy heap.mem arg w })

/-- Words are copied, one after another. -/
def copyWords : Heap → List (List UInt8) → Option (List ℕ × Heap)
  | s, [] => some ([], s)
  | s, w :: ws => do
    let (arg, s) ← copyWord s w
    let (args, s) ← copyWords s ws
    return (arg :: args, s)

@[simp] theorem copyWords_nil (s : Heap) : copyWords s [] = some ([], s) := rfl

theorem copyWords_cons (s : Heap) (w : List UInt8) (ws : List (List UInt8)) :
    copyWords s (w :: ws) =
      (copyWord s w).bind fun r => (copyWords r.2 ws).map fun q => (r.1 :: q.1, q.2) := by
  rw [copyWords]
  cases copyWord s w with
  | none => rfl
  | some r =>
    simp only [Option.bind_eq_bind, Option.bind_some, Option.pure_def]
    cases copyWords r.2 ws <;> rfl

/-- The token is a word. -/
theorem storeToken_eq {t : Tokens} (h : t.token.length < shellBufferSize) :
    storeToken t = (copyWord t.heap t.token).map fun r =>
      { t with heap := r.2, args := t.args ++ [r.1] } := by
  rw [storeToken, if_pos h, copyWord]
  cases kmalloc t.heap (t.token.length + 1) <;> rfl

/-! ## The scan -/

/-- What follows the loop: the token that the end of the line has cut off. -/
def storeLast (n : ℕ) (t : Tokens) : Option (List ℕ × Heap) :=
  if t.argStart ≠ none ∧ t.args.length < n then
    (storeToken t).map fun t => (t.args, t.heap)
  else some (t.args, t.heap)

/-- Nothing is copied once there are `n` arguments. -/
theorem storeLast_of_full {n : ℕ} {t : Tokens} (h : ¬ t.args.length < n)
    (ws : List (List UInt8)) : storeLast n t =
      (copyWords t.heap (ws.take (n - t.args.length))).map fun r => (t.args ++ r.1, r.2) := by
  rw [storeLast, if_neg fun hn => h hn.2, Nat.sub_eq_zero_of_le (not_lt.1 h), List.take_zero,
    copyWords_nil, Option.map_some, List.append_nil]

/-- The loop, and what follows it, copy the first words of those that are left. -/
theorem tokenizeFrom_storeLast {n : ℕ} {input : List UInt8} {t : Tokens} (i : ℕ)
    (hstart : t.argStart = none ↔ t.token = [])
    (hfit : t.token.length + input.length < shellBufferSize) :
    (tokenizeFrom n i input t).bind (storeLast n) =
      (copyWords t.heap ((wordsFrom t.token input).take (n - t.args.length))).map fun r =>
        (t.args ++ r.1, r.2) := by
  induction input generalizing t i with
  | nil =>
    rw [tokenizeFrom, Option.bind_some, wordsFrom_nil]
    by_cases hmax : t.args.length < n
    swap
    · exact storeLast_of_full hmax _
    by_cases hempty : t.token = []
    · rw [storeLast, if_neg fun hn => hn.1 (hstart.2 hempty), hempty, lastWord_nil, List.take_nil,
        copyWords_nil, Option.map_some, List.append_nil]
    · rw [storeLast, if_pos ⟨fun hs => hempty (hstart.1 hs), hmax⟩,
        storeToken_eq (by simpa using hfit), lastWord_of_ne_nil hempty,
        List.take_of_length_le (by rw [List.length_singleton]; omega), copyWords_cons]
      cases copyWord t.heap t.token <;> rfl
  | cons c input ih =>
    rw [List.length_cons] at hfit
    rw [tokenizeFrom]
    by_cases hmax : t.args.length < n
    swap
    · rw [if_neg hmax, Option.bind_some]
      exact storeLast_of_full hmax _
    rw [if_pos hmax]
    by_cases hblank : isBlank c = true
    · rw [if_pos hblank, wordsFrom_blank hblank]
      by_cases hempty : t.token = []
      · rw [if_neg fun hs => hs (hstart.2 hempty), hempty, lastWord_nil, List.nil_append]
        have := ih (i + 1) hstart (by omega)
        rwa [hempty] at this
      · -- The token is the first word, and the others are copied behind it.
        obtain ⟨k, hk⟩ : ∃ k, n - t.args.length = k + 1 := ⟨n - t.args.length - 1, by omega⟩
        have hk' : n - (t.args.length + 1) = k := by omega
        rw [if_pos fun hs => hempty (hstart.1 hs), storeToken_eq (by omega),
          lastWord_of_ne_nil hempty, List.singleton_append, hk, List.take_succ_cons,
          copyWords_cons]
        cases copyWord t.heap t.token with
        | none => rfl
        | some r =>
          have := ih (t := ⟨r.2, t.args ++ [r.1], none, []⟩) (i + 1) (by simp)
            (by rw [List.length_nil]; omega)
          rw [List.length_append, List.length_singleton, hk'] at this
          rw [Option.map_some, Option.bind_eq_bind, Option.bind_some, this, Option.bind_some,
            Option.map_map]
          refine congrFun (congrArg _ (funext fun q => ?_)) _
          rw [Function.comp_apply, List.append_assoc, List.singleton_append]
    · rw [if_neg hblank, wordsFrom_char hblank, if_pos (by omega)]
      exact ih (t := ⟨t.heap, t.args, t.argStart.or (some i), t.token ++ [c]⟩) (i + 1) (by simp)
        (by simp only [List.length_append, List.length_singleton]; omega)

/-- `shell_tokenize` copies the first words of the line. -/
theorem shellTokenize_eq (s : Heap) {input : List UInt8} (hlen : input.length < shellBufferSize)
    (n : ℕ) : shellTokenize s input n = copyWords s ((words input).take n) := by
  have hbind : shellTokenize s input n =
      (tokenizeFrom n 0 input ⟨s, [], none, []⟩).bind (storeLast n) := by
    rw [shellTokenize]
    congr 1
    funext t
    rw [storeLast]
    split_ifs
    · cases storeToken t <;> rfl
    · rfl
  rw [hbind, tokenizeFrom_storeLast 0 (by simp) (by simpa using hlen), words, List.length_nil,
    Nat.sub_zero]
  cases copyWords s ((wordsFrom [] input).take n) <;> rfl

/-! ## What a copy keeps -/

/-- A property of the heap, the arguments and the words copied so far, that copying one more word
    keeps. -/
def StoresWords (n : ℕ) (P : Heap → List ℕ → List (List UInt8) → Prop) : Prop :=
  ∀ t ws, P t.heap t.args ws → t.args.length < n → t.token.length < shellBufferSize →
    (∀ c ∈ t.token, c ≠ 0) → ∃ arg s',
      storeToken t = some { t with heap := s', args := t.args ++ [arg] } ∧
        P s' (t.args ++ [arg]) (ws ++ [t.token])

section Keeps

variable {n : ℕ} {P : Heap → List ℕ → List (List UInt8) → Prop}

theorem copyWords_spec (hP : StoresWords n P) {s : Heap} {args : List ℕ}
    {ws ws' : List (List UInt8)} (h : P s args ws) (hargs : args.length + ws'.length ≤ n)
    (hws' : ∀ w ∈ ws', w.length < shellBufferSize ∧ ∀ c ∈ w, c ≠ 0) :
    ∃ args' s', copyWords s ws' = some (args', s') ∧ P s' (args ++ args') (ws ++ ws') := by
  induction ws' generalizing s args ws with
  | nil => exact ⟨[], s, rfl, by simpa using h⟩
  | cons w ws' ih =>
    rw [List.length_cons] at hargs
    obtain ⟨hlen, hne⟩ := hws' w List.mem_cons_self
    obtain ⟨arg, s₁, hstore, h₁⟩ := hP ⟨s, args, none, w⟩ ws h (by simp only; omega) hlen hne
    rw [storeToken_eq hlen, Option.map_eq_some_iff] at hstore
    obtain ⟨r, hr, hstore⟩ := hstore
    simp only [Tokens.mk.injEq, List.append_cancel_left_eq, List.singleton_inj] at hstore
    obtain ⟨rfl, rfl, -⟩ := hstore
    have hargs' : (args ++ [r.1]).length + ws'.length ≤ n := by
      rw [List.length_append, List.length_singleton]
      omega
    obtain ⟨args', s', hs', h'⟩ := ih h₁ hargs' fun w' hw' => hws' w' (List.mem_cons_of_mem _ hw')
    refine ⟨r.1 :: args', s', ?_, ?_⟩
    · rw [copyWords_cons, hr, Option.bind_some, hs']
      rfl
    · simpa using h'

/-- What is said of the words that `shell_tokenize` copies. -/
theorem shellTokenize_spec (hP : StoresWords n P) {s : Heap} (h : P s [] []) {input : List UInt8}
    (hinput : ∀ c ∈ input, c ≠ 0) (hlen : input.length < shellBufferSize) :
    ∃ args s', shellTokenize s input n = some (args, s') ∧ P s' args ((words input).take n) := by
  rw [shellTokenize_eq s hlen n]
  have hws : ∀ w ∈ (words input).take n, w.length < shellBufferSize ∧ ∀ c ∈ w, c ≠ 0 :=
    fun w hw => by
      obtain ⟨hw', hmem⟩ := mem_of_mem_wordsFrom (List.mem_of_mem_take hw)
      rw [List.length_nil, Nat.zero_add] at hw'
      exact ⟨hw'.trans_lt hlen, fun c hc => hinput c ((hmem c hc).resolve_left List.not_mem_nil)⟩
  have hstore := copyWords_spec hP h (by simp) hws
  exact hstore

end Keeps

end Fru1tOs
