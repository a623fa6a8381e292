import Fru1tOs.Shell.Run
import Fru1tOs.Shell.Scanner

/-!
# The line editor

`shell_run` edits a line in `input_buffer`, of which `buffer_pos` characters are in use, and hands
it over to `shell_parse_command` when it ends. What it should do is said of the characters that were
typed (`draft`): those that can be printed are kept while there is room, and a backspace or DEL
removes the last one that was kept.

* `shellRun_rel`: whatever is typed, `buffer_pos` stays in the buffer, the line under way is in its
  first cells, and the lines handed over are those that were edited, without the empty ones.
* `shellLine_spec`: with that, what `shell_tokenize` makes of any line, and how
  `shell_parse_command` frees the tokens.
* `shellRun_no_token_left`: over a whole run of the shell, no token stays in the heap.

An empty line is not handed over, but `shell_parse_command` would do nothing with it
(`shellParseCommand_nil`).
-/

namespace Fru1tOs

open Lib

/-- `struct shell_state`, with `running` and all that `shell_parse_command` changes in `shell`. -/
structure LineEditor (σ : Type) where
  shell : σ
  inputBuffer : Vector UInt8 shellBufferSize
  bufferPos : ℕ

/-! ## What is typed -/

/-- A character that does not end the line. -/
def editKey (line : List UInt8) (c : UInt8) : List UInt8 :=
  if c = 8 ∨ c = 127 then line.dropLast
  else if 32 ≤ c ∧ c < 127 ∧ line.length < shellBufferSize - 1 then line ++ [c]
  else line

/-- The lines that were ended, and the one under way. -/
structure Draft where
  lines : List (List UInt8)
  line : List UInt8
  deriving DecidableEq, Repr

/-- A character is typed. -/
def Draft.key (d : Draft) (c : UInt8) : Draft :=
  if c = 10 ∨ c = 13 then ⟨d.lines ++ [d.line], []⟩ else { d with line := editKey d.line c }

/-- The lines that the characters make. -/
def draft (keys : List UInt8) : Draft := keys.foldl Draft.key ⟨[], []⟩

/-- A line that fits the buffer, of characters that can be printed. -/
structure Editable (line : List UInt8) : Prop where
  fits : line.length < shellBufferSize
  printable : ∀ c ∈ line, 32 ≤ c ∧ c < 127

theorem Editable.ne_zero {line : List UInt8} (h : Editable line) : ∀ c ∈ line, c ≠ 0 := by
  rintro c hc rfl
  exact absurd (h.printable 0 hc).1 (by decide)

theorem Editable.editKey {line : List UInt8} (h : Editable line) (c : UInt8) :
    Editable (editKey line c) := by
  rw [Fru1tOs.editKey]
  split_ifs with hback hkeep
  · refine ⟨?_, fun d hd => h.printable d (List.mem_of_mem_dropLast hd)⟩
    rw [List.length_dropLast]
    exact (Nat.sub_le _ _).trans_lt h.fits
  · refine ⟨?_, fun d hd => ?_⟩
    · rw [List.length_append, List.length_singleton]
      exact Nat.add_lt_of_lt_sub hkeep.2.2
    · rcases List.mem_append.1 hd with hd | hd
      · exact h.printable d hd
      · exact List.mem_singleton.1 hd ▸ ⟨hkeep.1, hkeep.2.1⟩
  · exact h

theorem draft_concat (keys : List UInt8) (c : UInt8) :
    draft (keys ++ [c]) = (draft keys).key c := by
  rw [draft, List.foldl_append]
  rfl

/-- The lines are what `shell_tokenize` can take. -/
theorem draft_editable (keys : List UInt8) :
    Editable (draft keys).line ∧ ∀ line ∈ (draft keys).lines, Editable line := by
  have hnil : Editable [] := ⟨by decide, by simp⟩
  induction keys using List.reverseRecOn with
  | nil => exact ⟨hnil, by simp [draft]⟩
  | append_singleton keys c ih =>
    rw [draft_concat, Draft.key]
    split_ifs with hend
    · refine ⟨hnil, fun line hline => ?_⟩
      rcases List.mem_append.1 hline with hline | hline
      · exact ih.2 line hline
      · exact List.mem_singleton.1 hline ▸ ih.1
    · exact ⟨ih.1.editKey c, ih.2⟩

/-! ## The editor -/

section Editor

variable {σ : Type} (running : σ → Bool) (parse : σ → List UInt8 → Option σ)

/-- A pass of the outer loop of `shell_run` starts a new line. -/
def shellPrompt (e : LineEditor σ) : LineEditor σ :=
  if running e.shell then { e with bufferPos := 0 } else e

/-- A pass of the inner loop of `shell_run`, with the character that was read. At the end of a line
    the outer loop goes on. -/
def shellKey (e : LineEditor σ) (c : UInt8) : Option (LineEditor σ) :=
  if c = 10 ∨ c = 13 then do
    let inputBuffer ← store e.inputBuffer e.bufferPos 0
    let shell ← if e.bufferPos > 0 then (cString inputBuffer).bind (parse e.shell) else some e.shell
    return shellPrompt running { e with shell := shell, inputBuffer := inputBuffer }
  else if c = 8 ∨ c = 127 then
    if e.bufferPos > 0 then some { e with bufferPos := e.bufferPos - 1 } else some e
  else if 32 ≤ c ∧ c < 127 ∧ e.bufferPos < shellBufferSize - 1 then do
    let inputBuffer ← store e.inputBuffer e.bufferPos c
    return { e with inputBuffer := inputBuffer, bufferPos := e.bufferPos + 1 }
  else some e

/-- `shell_run`, on the characters that are typed. It reads no more once the shell has stopped. -/
def shellRun (e : LineEditor σ) (keys : List UInt8) : Option (LineEditor σ) :=
  run (fun e c => if running e.shell then shellKey running parse e c else some e)
    (shellPrompt running e) keys

/-- The shell runs a line, if it is not empty. -/
def handOver (shell : σ) (line : List UInt8) : Option σ :=
  if running shell ∧ line ≠ [] then parse shell line else some shell

/-- The editor has the line in its buffer, as long as the shell is running. -/
structure LineEditor.Shows (e : LineEditor σ) (shell : σ) (line : List UInt8) : Prop where
  holds : e.shell = shell
  pos : e.bufferPos ≤ shellBufferSize - 1
  line : running shell → front e.inputBuffer e.bufferPos = line

end Editor

namespace LineEditor.Shows

variable {σ : Type} {running : σ → Bool} {parse : σ → List UInt8 → Option σ} {e : LineEditor σ}
  {shell : σ} {line : List UInt8}

theorem prompt (hpos : e.bufferPos ≤ shellBufferSize - 1) :
    (shellPrompt running e).Shows running e.shell [] := by
  rw [shellPrompt]
  split_ifs with hrun
  · exact ⟨rfl, Nat.zero_le _, fun _ => front_zero _⟩
  · exact ⟨rfl, hpos, fun h => absurd h hrun⟩

/-- `buffer_pos` is the length of the line. -/
theorem length (h : e.Shows running shell line) (hrun : running shell) :
    line.length = e.bufferPos := by
  rw [← h.line hrun, length_front _ (h.pos.trans (Nat.sub_le _ _))]

/-- The end of a line. -/
theorem newline (h : e.Shows running shell line) (hrun : running shell) (hline : Editable line)
    {c : UInt8} (hc : c = 10 ∨ c = 13) :
    Option.Rel (fun e' shell' => e'.Shows running shell' []) (shellKey running parse e c)
      (handOver running parse shell line) := by
  have hpos : e.bufferPos < shellBufferSize := Nat.lt_of_le_pred (by decide) h.pos
  have hstr : cString (e.inputBuffer.set e.bufferPos 0 hpos) = some line := by
    rw [cString_set_zero hpos (by rw [h.line hrun]; exact hline.ne_zero), h.line hrun]
  rw [shellKey, if_pos hc, store_of_lt _ hpos, handOver]
  simp only [Option.bind_eq_bind, Option.bind_some, Option.pure_def, hstr, h.holds]
  by_cases hempty : line = []
  · have h0 : e.bufferPos = 0 := by rw [← h.length hrun, hempty, List.length_nil]
    rw [if_neg (by omega), if_neg fun hn => hn.2 hempty]
    exact .some (prompt h.pos)
  · have h0 : e.bufferPos > 0 := by
      rw [← h.length hrun]
      exact List.length_pos_of_ne_nil hempty
    rw [if_pos h0, if_pos ⟨hrun, hempty⟩]
    cases parse shell line with
    | none => exact .none
    | some shell' => exact .some (prompt h.pos)

/-- A character that does not end the line. -/
theorem key (h : e.Shows running shell line) (parse : σ → List UInt8 → Option σ)
    (hrun : running shell) {c : UInt8} (hc : ¬ (c = 10 ∨ c = 13)) :
    ∃ e', shellKey running parse e c = some e' ∧ e'.Shows running shell (editKey line c) := by
  have hlen := h.length hrun
  have hpos := h.pos
  rw [shellKey, if_neg hc, editKey, hlen]
  split_ifs with hback hsome hkeep
  · -- The last character is removed.
    refine ⟨_, rfl, h.holds, (Nat.sub_le _ _).trans hpos, fun _ => ?_⟩
    rw [front_pred _ (hpos.trans (Nat.sub_le _ _)), h.line hrun]
  · -- There is none.
    refine ⟨_, rfl, h.holds, hpos, fun _ => ?_⟩
    have hnil : line = [] := List.eq_nil_of_length_eq_zero (by omega)
    rw [h.line hrun, hnil, List.dropLast_nil]
  · have hlt : e.bufferPos < shellBufferSize := hkeep.2.2.trans_le (Nat.sub_le _ _)
    rw [store_of_lt _ hlt]
    refine ⟨_, rfl, h.holds, hkeep.2.2, fun _ => ?_⟩
    rw [front_set_succ, h.line hrun]
  · exact ⟨e, rfl, h⟩

end LineEditor.Shows

section Run

variable {σ : Type} (running : σ → Bool) (parse : σ → List UInt8 → Option σ)

/-- Whatever is typed, `buffer_pos` stays in the buffer, the line under way is in the first cells,
    and the lines that were ended have been handed over in turn, without the empty ones. -/
theorem shellRun_rel (e : LineEditor σ) (he : e.bufferPos ≤ shellBufferSize - 1)
    (keys : List UInt8) :
    Option.Rel (fun e' shell => e'.Shows running shell (draft keys).line)
      (shellRun running parse e keys)
      ((draft keys).lines.foldlM (handOver running parse) e.shell) := by
  induction keys using List.reverseRecOn with
  | nil => exact .some (LineEditor.Shows.prompt he)
  | append_singleton keys c ih =>
    have hedit := draft_editable keys
    rw [shellRun, run_concat, ← shellRun, draft_concat, Draft.key]
    by_cases hc : c = 10 ∨ c = 13
    · rw [if_pos hc, List.foldlM_append]
      refine optionRel_bind ih fun e' shell h => ?_
      rw [List.foldlM_cons, h.holds]
      simp only [List.foldlM_nil, bind_pure]
      by_cases hrun : running shell = true
      · rw [if_pos hrun]
        exact h.newline hrun hedit.1 hc
      · rw [if_neg hrun, handOver, if_neg fun hn => hrun hn.1]
        exact .some ⟨h.holds, h.pos, fun h' => absurd h' hrun⟩
    · rw [if_neg hc]
      generalize shellRun running parse e keys = x at ih ⊢
      generalize (draft keys).lines.foldlM (handOver running parse) e.shell = y at ih ⊢
      cases ih with
      | none => exact .none
      | @some e' shell h =>
        rw [Option.bind_some, h.holds]
        by_cases hrun : running shell = true
        · obtain ⟨e₁, he₁, h₁⟩ := h.key parse hrun hc
          rw [if_pos hrun, he₁]
          exact .some h₁
        · rw [if_neg hrun]
          exact .some ⟨h.holds, h.pos, fun h' => absurd h' hrun⟩

end Run

/-- An empty line does nothing. -/
theorem shellParseCommand_nil (L : FsLayout) (s : Shell) :
    shellParseCommand L s [] = some s := by
  rw [shellParseCommand, shellTokenize_eq s.heap (by decide), words, wordsFrom_nil, lastWord_nil,
    List.take_nil, copyWords_nil]
  rfl

/-! ## Tokens -/

section Tokens

variable {L : HeapLayout} {live : List ℕ} {bs : List Block} {n : ℕ}

/-- `shell_tokenize` has stored the words: it returns how many there are, and the arguments are
    new blocks with the words in order. -/
structure Scanner.Stores (L : HeapLayout) (live : List ℕ) (t : Scanner n) (ws : List (List UInt8)) :
    Prop where
  count : t.argc = ws.length
  within : t.argc ≤ n
  words : List.Forall₂ (StoresStr t.heap.mem) (front t.args t.argc) ws
  blocks : ∃ bs, HeapInv L ⟨t.heap, front t.args t.argc ++ live⟩ bs

/-- The arguments are different. -/
theorem Scanner.Stores.nodup {t : Scanner n} {ws : List (List UInt8)} (h : t.Stores L live ws) :
    (front t.args t.argc ++ live).Nodup := by
  obtain ⟨bs, h⟩ := h.blocks
  exact h.live.nodup_iff.2 (nodup_usedAt L.heap bs)

/-- The first words of a line are stored. -/
theorem HeapInv.shellTokenize {s : Heap} (h : HeapInv L ⟨s, live⟩ bs) {line : List UInt8}
    (hline : ∀ c ∈ line, c ≠ 0) (hlen : line.length < shellBufferSize)
    (hk : KmallocSucceeds s ((words line).take n)) (tokenBuffer : Vector UInt8 shellBufferSize)
    (args : Vector ℕ n) :
    ∃ t, Scanner.shellTokenize s tokenBuffer line args = some t ∧
      t.Stores L live ((words line).take n) := by
  obtain ⟨args', s', bs', hstore, h', hwords, -⟩ := h.copyWords (fun w hw => by
    have := (mem_of_mem_wordsFrom (List.mem_of_mem_take hw)).1
    rw [List.length_nil, Nat.zero_add] at this
    exact this.trans_lt hlen) hk
  have hrel := Scanner.shellTokenize_rel s tokenBuffer hline args
  rw [shellTokenize_eq s hlen, hstore] at hrel
  cases hx : Scanner.shellTokenize s tokenBuffer line args with
  | none => rw [hx] at hrel; cases hrel
  | some t =>
    rw [hx] at hrel
    obtain ⟨hargc, hargs, hheap⟩ : t.argc ≤ n ∧ front t.args t.argc = args' ∧ t.heap = s' := by
      cases hrel with
      | some hrel => exact hrel
    refine ⟨t, rfl, ?_, hargc, ?_, bs', ?_⟩
    · rw [← length_front t.args hargc, hargs, hwords.length_eq]
    · rwa [hargs, hheap]
    · rwa [hargs, hheap]

/-- Freeing the tokens leaves the other blocks in use. -/
theorem HeapInv.foldlM_kfree {s : Heap} {args : List ℕ} (h : HeapInv L ⟨s, args ++ live⟩ bs) :
    ∃ s' bs', args.foldlM Fru1tOs.kfree s = some s' ∧ HeapInv L ⟨s', live⟩ bs' := by
  induction args generalizing s bs with
  | nil => exact ⟨s, bs, rfl, h⟩
  | cons arg args ih =>
    obtain ⟨s₁, bs₁, hk, h₁, -⟩ := h.kfree List.mem_cons_self
    simp only [List.cons_append, List.erase_cons_head] at hk h₁
    obtain ⟨s', bs', hs', h'⟩ := ih h₁
    refine ⟨s', bs', ?_, h'⟩
    rw [List.foldlM_cons, hk]
    exact hs'

end Tokens

/-- `shell_parse_command` calls `kfree` once for each of the tokens. If they are in use after the
    command then they are not in use any more, and the other blocks still are. -/
structure FreesTokens (L : FsLayout) (tokenBuffer : Vector UInt8 shellBufferSize)
    (args : Vector ℕ maxArgs) (s : Shell) (line : List UInt8) (t : Scanner maxArgs) : Prop where
  nodup : (front t.args t.argc).Nodup
  calls : freeArgs (fun freed arg => some (freed ++ [arg])) t.args t.argc [] =
    some (front t.args t.argc)
  frees : ∀ cmd rest s' live bs, front t.args t.argc = cmd :: rest →
    shellExecuteCommand L { s with heap := t.heap } cmd (cmd :: rest) = some s' →
    HeapInv L.toHeapLayout ⟨s'.heap, (cmd :: rest) ++ live⟩ bs →
    ∃ heap bs', Scanner.shellParseCommand L tokenBuffer args s line =
      some { s' with heap := heap } ∧ HeapInv L.toHeapLayout ⟨heap, live⟩ bs'

theorem foldlM_concat {α : Type} (l l' : List α) :
    l.foldlM (fun l a => some (l ++ [a])) l' = some (l' ++ l) := by
  induction l generalizing l' with
  | nil => rw [List.append_nil]; rfl
  | cons a l ih =>
    rw [List.foldlM_cons]
    refine (ih _).trans ?_
    rw [List.append_assoc, List.singleton_append]

/-- The tokens that were stored are freed. -/
theorem Scanner.Stores.frees {L : FsLayout} {live : List ℕ} {ws : List (List UInt8)} {s : Shell}
    {line : List UInt8} {tokenBuffer : Vector UInt8 shellBufferSize} {args : Vector ℕ maxArgs}
    {t : Scanner maxArgs} (h : t.Stores L.toHeapLayout live ws)
    (ht : Scanner.shellTokenize s.heap tokenBuffer line args = some t) :
    FreesTokens L tokenBuffer args s line t where
  nodup := h.nodup.of_append_left
  calls := by rw [freeArgs_eq _ _ h.within, foldlM_concat, List.nil_append]
  frees := by
    intro cmd rest s' live' bs' hargs hexec hinv
    obtain ⟨hpos, hcmd⟩ := of_front_eq_cons hargs
    obtain ⟨heap, bs₁, hheap, hinv'⟩ := hinv.foldlM_kfree
    refine ⟨heap, bs₁, ?_, hinv'⟩
    rw [Scanner.shellParseCommand, ht]
    simp only [Option.bind_eq_bind, Option.bind_some, Option.pure_def, if_pos hpos, hcmd, hargs,
      hexec, freeArgs_eq _ _ h.within, hheap]

/-- Lines with file names that fit their field are run, one after another, with no token left. -/
theorem foldlM_handOver {L : FsLayout} (tokenBuffer : Vector UInt8 shellBufferSize)
    (args : Vector ℕ maxArgs) {lines : List (List UInt8)} (hlines : ∀ line ∈ lines,
      Editable line ∧ ∀ filename ∈ fileArg (words line), filename.length < maxFilename) {s : Shell}
    (h : ∃ bs slots, ShellInv L s.heap [] bs slots) :
    ∃ s', lines.foldlM (handOver Shell.running (Scanner.shellParseCommand L tokenBuffer args)) s =
      some s' ∧ ∃ bs slots, ShellInv L s'.heap [] bs slots := by
  induction lines generalizing s with
  | nil => exact ⟨s, rfl, h⟩
  | cons line lines ih =>
    obtain ⟨hline, hfile⟩ := hlines line List.mem_cons_self
    have hstep : ∃ s₁,
        handOver Shell.running (Scanner.shellParseCommand L tokenBuffer args) s line = some s₁ ∧
        ∃ bs slots, ShellInv L s₁.heap [] bs slots := by
      rw [handOver]
      split_ifs
      · obtain ⟨bs, slots, h⟩ := h
        obtain ⟨s', running, bs', slots', hs', h'⟩ :=
          h.shellParseCommand s.running ⟨line, hline.ne_zero, hline.fits, hfile⟩
        rw [Scanner.shellParseCommand_eq L tokenBuffer args s hline.ne_zero]
        exact ⟨_, hs', bs', slots', h'⟩
      · exact ⟨s, rfl, h⟩
    obtain ⟨s₁, hs₁, h₁⟩ := hstep
    obtain ⟨s', hs', h'⟩ := ih (fun l hl => hlines l (List.mem_cons_of_mem _ hl)) h₁
    refine ⟨s', ?_, h'⟩
    rw [List.foldlM_cons, hs₁]
    exact hs'

/-- Whatever is typed, with file names that fit their field, `shell_run` goes on, and between two
    lines the data of the files are all that is in use. -/
theorem shellRun_no_token_left (L : FsLayout) (s₀ : Heap)
    (inputBuffer tokenBuffer : Vector UInt8 shellBufferSize) (args : Vector ℕ maxArgs)
    {keys : List UInt8} (hfile : ∀ line ∈ (draft keys).lines,
      ∀ filename ∈ fileArg (words line), filename.length < maxFilename) :
    ∃ e, shellRun Shell.running (Scanner.shellParseCommand L tokenBuffer args)
        ⟨Shell.init L s₀, inputBuffer, 0⟩ keys = some e ∧
      ∃ bs slots, ShellInv L e.shell.heap [] bs slots := by
  have hrel := shellRun_rel Shell.running (Scanner.shellParseCommand L tokenBuffer args)
    ⟨Shell.init L s₀, inputBuffer, 0⟩ (Nat.zero_le _) keys
  obtain ⟨s, hs, h⟩ := foldlM_handOver tokenBuffer args
    (fun line hline => ⟨(draft_editable keys).2 line hline, hfile line hline⟩)
    ⟨_, _, shellInv_init L s₀⟩
  rw [hs] at hrel
  generalize shellRun _ _ _ keys = x at hrel ⊢
  cases hrel with
  | some hshows => exact ⟨_, rfl, by rwa [hshows.holds]⟩

/-- The editor, the tokenizer and the freeing of the tokens, for whatever is typed and for every
    line. -/
theorem shellLine_spec {σ : Type} (running : σ → Bool) (parse : σ → List UInt8 → Option σ)
    (e : LineEditor σ) (he : e.bufferPos ≤ shellBufferSize - 1) (keys : List UInt8) {L : FsLayout}
    {s : Shell} {live : List ℕ} {bs : List Block} (h : HeapInv L.toHeapLayout ⟨s.heap, live⟩ bs)
    {line : List UInt8} (hline : ∀ c ∈ line, c ≠ 0) (hlen : line.length < shellBufferSize)
    (tokenBuffer : Vector UInt8 shellBufferSize) :
    Option.Rel (fun e' shell => e'.Shows running shell (draft keys).line)
      (shellRun running parse e keys)
      ((draft keys).lines.foldlM (handOver running parse) e.shell) ∧
    (∀ (n : ℕ) (args : Vector ℕ n), KmallocSucceeds s.heap ((words line).take n) →
      ∃ t, Scanner.shellTokenize s.heap tokenBuffer line args = some t ∧
        t.Stores L.toHeapLayout live ((words line).take n)) ∧
    ∀ (args : Vector ℕ maxArgs), KmallocSucceeds s.heap ((words line).take maxArgs) →
      ∃ t, Scanner.shellTokenize s.heap tokenBuffer line args = some t ∧
        FreesTokens L tokenBuffer args s line t := by
  refine ⟨shellRun_rel running parse e he keys,
    fun n args hk => h.shellTokenize hline hlen hk tokenBuffer args, fun args hk => ?_⟩
  obtain ⟨t, ht, hstores⟩ := h.shellTokenize hline hlen hk tokenBuffer args
  exact ⟨t, ht, hstores.frees ht⟩

/-- `cax`, a backspace and `t a` give the line `cat a`, and `ls` stays in the buffer; three words,
    with blanks around them, are stored and freed after `shell_init`. -/
theorem shellLine_spec_words :
    (∃ e', shellRun (fun _ => true) (fun log line => some (log ++ [line]))
        ⟨[], Vector.replicate _ 0, 0⟩ (chars "cax" ++ [8] ++ chars "t a" ++ [10] ++ chars "ls") =
          some e' ∧
      e'.shell = [chars "cat a"] ∧ front e'.inputBuffer e'.bufferPos = chars "ls") ∧
    ∃ t : Scanner maxArgs,
      Scanner.shellTokenize (Shell.init default ⟨fun _ => 0, 0⟩).heap (Vector.replicate _ 0)
        (chars "  create\ta 12 ") (Vector.replicate _ 0) = some t ∧
      FreesTokens default (Vector.replicate _ 0) (Vector.replicate _ 0)
        (Shell.init default ⟨fun _ => 0, 0⟩) (chars "  create\ta 12 ") t ∧
      t.Stores (default : FsLayout).toHeapLayout (dataPtrs fun _ => none)
        [chars "create", chars "a", chars "12"] := by
  have h := shellInv_init default ⟨fun _ => 0, 0⟩
  have hwords : (words (chars "  create\ta 12 ")).take maxArgs =
      [chars "create", chars "a", chars "12"] := by decide +kernel
  have hk : KmallocSucceeds (Shell.init default ⟨fun _ => 0, 0⟩).heap
      ((words (chars "  create\ta 12 ")).take maxArgs) := by
    rw [hwords]
    exact h.kmallocSucceeds .nil (by decide +kernel) (by decide +kernel)
  obtain ⟨hedit, hstores, hfrees⟩ := shellLine_spec (fun _ => true)
    (fun log line => some (log ++ [line])) ⟨[], Vector.replicate _ 0, 0⟩ (Nat.zero_le _)
    (chars "cax" ++ [8] ++ chars "t a" ++ [10] ++ chars "ls") h.fs.heap
    (show ∀ c ∈ chars "  create\ta 12 ", c ≠ 0 by decide +kernel) (by decide +kernel)
    (Vector.replicate _ 0)
  have hlines : (draft (chars "cax" ++ [8] ++ chars "t a" ++ [10] ++ chars "ls")).lines =
      [chars "cat a"] := by decide +kernel
  have hline : (draft (chars "cax" ++ [8] ++ chars "t a" ++ [10] ++ chars "ls")).line =
      chars "ls" := by decide +kernel
  constructor
  · rw [hlines, hline] at hedit
    have hhand : [chars "cat a"].foldlM
        (handOver (fun _ => true) fun log line => some (log ++ [line])) [] =
          some [chars "cat a"] := rfl
    rw [hhand] at hedit
    generalize shellRun _ _ _ _ = x at hedit ⊢
    cases hedit with
    | some hshows => exact ⟨_, rfl, hshows.holds, hshows.line rfl⟩
  · obtain ⟨t, ht, hstored⟩ := hstores maxArgs (Vector.replicate _ 0) hk
    obtain ⟨t', ht', hfreed⟩ := hfrees (Vector.replicate _ 0) hk
    obtain rfl := Option.some_inj.1 (ht.symm.trans ht')
    exact ⟨t, ht, hfreed, hwords ▸ hstored⟩

/-- At the end of an empty line nothing is handed over. -/
theorem shellRun_empty_line :
    (shellRun (fun _ => true) (fun log line => some (log ++ [line]))
      ⟨[], Vector.replicate _ 0, 0⟩ [10]).map LineEditor.shell = some [] ∧
    (draft [10]).lines = [[]] := by
  decide +kernel

end Fru1tOs
