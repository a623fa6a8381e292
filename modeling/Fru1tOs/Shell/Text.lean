import Fru1tOs.Files.Text
import Fru1tOs.Shell.Run

/-!
# What the shell prints

The commands of the shell with what they print, and what they should reply, which is said of the
words of a line and of the files (`Replies`): a command prints its text and leaves the files as they
are, but for `create` and `delete`. A command is given the tokens of the line, which are in the heap
with the files; while it runs they change nothing of what it replies (`ShellInv.execute`), and
neither does cutting the line (`ShellInv.tokenize`) nor freeing them afterwards
(`ShellInv.freeTokens`). So a line is answered as it should be: `ShellInv.parse`.
-/

namespace Fru1tOs

open Lib

/-! ## The texts -/

/-- The lines that `cmd_help` prints. -/
def helpLines : List String :=
  ["\n=== Fru1t OS Shell Commands ===\n",
    "help          - Show this help message\n",
    "ls            - List files in filesystem\n",
    "cat <file>    - Display file contents\n",
    "create <file> <size> - Create new file\n",
    "delete <file> - Delete file\n",
    "echo [args]   - Print arguments\n",
    "memstat       - Show memory statistics\n",
    "clear         - Clear screen\n",
    "exit          - Exit shell\n",
    "\n"]

/-- What `cmd_help` prints. -/
def cmdHelpText : Option (List UInt8) :=
  (helpLines.mapM fun line => say line []).map List.flatten

/-- What `cmd_cat` prints. -/
def cmdCatText (L : FsLayout) (s : Heap) (filename : List UInt8) : Option (List UInt8) := do
  let (bytesRead, buffer) := fsRead L s filename maxFilesize
  let out ← fsReadText L s filename maxFilesize
  if bytesRead > 0 then
    return out ++ (← say "Content of %s:\n" [.str filename]) ++ buffer.takeWhile (· ≠ 0) ++
      (← say "\n" [])
  else return out

/-- What `cmd_create` prints. -/
def cmdCreateText (L : FsLayout) (s : Heap) (filename sizeStr : List UInt8) :
    Option (List UInt8) :=
  let size := strToInt sizeStr
  if size ≤ 0 ∨ size > maxFilesize then
    say "Invalid size. Must be 1-%d bytes\n" [intArg maxFilesize]
  else fsCreateText L s filename size.toNat

/-- What `cmd_echo` prints for the arguments that are left. -/
def cmdEchoText (m : Mem) : List ℕ → Option (List UInt8)
  | [] => say "\n" []
  | arg :: args => do
    let out ← say "%s" [.str (loadStr m arg)]
    let blank ← if args ≠ [] then say " " [] else some []
    return out ++ blank ++ (← cmdEchoText m args)

/-- What `shell_execute_command` prints. -/
def shellExecuteText (L : FsLayout) (s : Shell) (cmd : ℕ) (args : List ℕ) : Option (List UInt8) :=
  match Command.all.find? fun c => strcmp s.heap.mem cmd c.name = 0 with
  | some .help => cmdHelpText
  | some .ls => fsListText L s.heap
  | some .cat =>
    match args with
    | _ :: filename :: _ => cmdCatText L s.heap (loadStr s.heap.mem filename)
    | _ => say "Usage: cat <filename>\n" []
  | some .create =>
    match args with
    | _ :: filename :: sizeStr :: _ =>
      cmdCreateText L s.heap (loadStr s.heap.mem filename) (loadStr s.heap.mem sizeStr)
    | _ => say "Usage: create <filename> <size>\n" []
  | some .delete =>
    match args with
    | _ :: filename :: _ => fsDeleteText L s.heap (loadStr s.heap.mem filename)
    | _ => say "Usage: delete <filename>\n" []
  | some .memstat => printMemoryStats s.heap
  | some .clear => say "\x1b[2J\x1b[H" []
  | some .echo => cmdEchoText s.heap.mem args.tail
  | some .exit => say "Goodbye!\n" []
  | none => do
    return (← say "Unknown command: %s\n" [.str (loadStr s.heap.mem cmd)]) ++
      (← say "Type 'help' for available commands\n" [])

/-- What `kmalloc` prints in the loop of `shell_tokenize`, and after it. -/
def tokenizeText (maxArgs : ℕ) : ℕ → List UInt8 → Tokens → Option (List UInt8)
  | _, [], t =>
    if t.argStart ≠ none ∧ t.args.length < maxArgs then kmallocText t.heap (t.token.length + 1)
    else some []
  | i, c :: input, t =>
    if t.args.length < maxArgs then
      if isBlank c then
        if t.argStart ≠ none then do
          let out ← kmallocText t.heap (t.token.length + 1)
          let t ← storeToken t
          return out ++
            (← tokenizeText maxArgs (i + 1) input { t with argStart := none, token := [] })
        else tokenizeText maxArgs (i + 1) input t
      else tokenizeText maxArgs (i + 1) input
        { t with argStart := t.argStart.or (some i), token := t.token ++ [c] }
    else some []

/-- What `shell_parse_command` prints. -/
def shellParseText (L : FsLayout) (s : Shell) (input : List UInt8) : Option (List UInt8) := do
  let out ← tokenizeText maxArgs 0 input ⟨s.heap, [], none, []⟩
  let (args, heap) ← shellTokenize s.heap input maxArgs
  match args with
  | [] => return out
  | cmd :: rest => return out ++ (← shellExecuteText L { s with heap := heap } cmd (cmd :: rest))

/-! ## What a line should reply -/

namespace Files

variable (files : Files)

/-- How long the contents are together. -/
def bytes : ℕ := (files.toList.map fun f => f.2.length).sum

/-- What displaying a file prints: its contents, up to the first zero. -/
def display (name : List UInt8) : List UInt8 :=
  files.reading name maxFilesize ++
    match files.contents name with
    | none => []
    | some c =>
      text "Content of %s:\n" [.str name] ++ c.takeWhile (· ≠ 0) ++ text "\n" []

/-- Statistics of a heap with the files in it. -/
def Stats (out : List UInt8) : Prop :=
  ∃ blocks free used, 12 * blocks + free + used = heapSize ∧ files.bytes ≤ used ∧
    out = statsText blocks free used

end Files

/-- What a command prints, given its arguments, and the files after it. -/
def Command.Replies (files : Files) (args : List (List UInt8)) (out : List UInt8) (files' : Files) :
    Command → Prop
  | help => out = (helpLines.map (text · [])).flatten ∧ files' = files
  | ls => out = files.listing ∧ files' = files
  | cat =>
    match args with
    | filename :: _ => out = files.display filename ∧ files' = files
    | _ => out = text "Usage: cat <filename>\n" [] ∧ files' = files
  | create =>
    match args with
    | filename :: size :: _ =>
      if 1 ≤ strToInt size ∧ strToInt size ≤ maxFilesize then
        files.Creates filename (strToInt size).toNat out files'
      else out = text "Invalid size. Must be 1-%d bytes\n" [intArg maxFilesize] ∧ files' = files
    | _ => out = text "Usage: create <filename> <size>\n" [] ∧ files' = files
  | delete =>
    match args with
    | filename :: _ => files.Deletes filename out files'
    | _ => out = text "Usage: delete <filename>\n" [] ∧ files' = files
  | memstat => files.Stats out ∧ files' = files
  | clear => out = text "\x1b[2J\x1b[H" [] ∧ files' = files
  | echo => out = [32].intercalate args ++ [10] ∧ files' = files
  | exit => out = text "Goodbye!\n" [] ∧ files' = files

/-- What a line of these words prints, the files after it, and whether the shell goes on. -/
def Replies (files : Files) (ws : List (List UInt8)) (out : List UInt8) (files' : Files)
    (running : Bool) : Prop :=
  match ws with
  | [] => out = [] ∧ files' = files ∧ running = true
  | cmd :: args =>
    match Command.all.find? fun c => cmd = c.name with
    | some c => c.Replies files args out files' ∧ (running = false ↔ c = .exit)
    | none =>
      out = text "Unknown command: %s\n" [.str cmd] ++
          text "Type 'help' for available commands\n" [] ∧
        files' = files ∧ running = true

/-! ## The commands -/

/-- Lines that take no argument. -/
theorem mapM_say {lines : List String} (h : ∀ line ∈ lines, Takes line []) :
    lines.mapM (fun line => say line []) = some (lines.map (text · [])) := by
  induction lines with
  | nil => rfl
  | cons line lines ih =>
    rw [List.mapM_cons, say_eq (h line List.mem_cons_self),
      ih fun l hl => h l (List.mem_cons_of_mem _ hl)]
    rfl

theorem cmdHelpText_eq : cmdHelpText = some (helpLines.map (text · [])).flatten := by
  rw [cmdHelpText, mapM_say (by decide +kernel), Option.map_some]

/-- A string is printed as it is. -/
theorem text_str (w : List UInt8) : text "%s" [.str w] = w := by
  have hpieces : pieces (chars "%s") = [.conv [ascii 's']] := by decide +kernel
  rw [text, hpieces, render_some (k := .str) (by decide +kernel)]
  exact List.append_nil w

/-- The arguments are printed with blanks between them. -/
theorem cmdEchoText_eq (m : Mem) (args : List ℕ) :
    cmdEchoText m args = some ([32].intercalate (args.map (loadStr m)) ++ [10]) := by
  induction args with
  | nil => exact say_eq (show Takes _ [] by decide +kernel)
  | cons arg args ih =>
    have hblank : text " " [] = [32] := by decide +kernel
    rw [cmdEchoText, say_eq (show Takes _ [.str] by decide +kernel), text_str, ih,
      say_eq (show Takes _ [] by decide +kernel), hblank]
    cases args with
    | nil => simp
    | cons arg' args => simp [List.intercalate]

/-- The command that the first token names. -/
theorem find?_strcmp {m : Mem} {cmd : ℕ} {w : List UInt8} (h : StoresStr m cmd w)
    (hw : ∀ c ∈ w, c ≠ 0) : (Command.all.find? fun c => strcmp m cmd c.name = 0) =
      Command.all.find? fun c => w = c.name := by
  refine congrArg (List.find? · Command.all) (funext fun c => ?_)
  exact decide_eq_decide.2 (h.strcmp_eq_zero hw c.name_ne_zero)

/-- The tokens are read as they were stored. -/
theorem HoldsWords.map_loadStr {L : FsLayout} {m : Mem} {bs : List Block} {args : List ℕ}
    {ws : List (List UInt8)} (h : HoldsWords L m bs args ws)
    (hws : ∀ w ∈ ws, (∀ c ∈ w, c ≠ 0) ∧ w.length < shellBufferSize) :
    args.map (loadStr m) = ws := by
  rw [HoldsWords] at h
  induction h with
  | nil => rfl
  | @cons p w args ws hstr _ ih =>
    obtain ⟨hne, hlen⟩ := hws w List.mem_cons_self
    rw [List.map_cons, loadStr_eq hstr.1 hne hlen, ih fun w' hw' =>
      hws w' (List.mem_cons_of_mem _ hw')]

/-- The data of the files are in used blocks. -/
theorem FsInv.bytes_le {L : FsLayout} {s : FsRun} {bs : List Block}
    {slots : Fin maxFiles → Option Slot} (h : FsInv L s bs slots) :
    (filesOf s.heap.mem slots).bytes ≤ usedBytes bs := by
  set t : HeapRun := ⟨s.heap, s.live ++ dataPtrs slots⟩
  have hpayload : ∀ i f, slots i = some f → f.size ≤ t.payload f.data := fun i f hf => by
    obtain ⟨n, hn, hmem⟩ := h.block i f hf
    have hlive := h.heap.mem_usedAt_of_live (h.heap.mem_used.1 (List.mem_map_of_mem hmem))
    have heq := List.inj_on_of_nodup_map (nodup_usedAt L.heap bs) hlive hmem rfl
    exact hn.trans (congrArg Prod.snd heq).ge
  have hle : ∀ l : List (Fin maxFiles),
      ((l.filterMap (filesOf s.heap.mem slots)).map fun f => f.2.length).sum ≤
        ((l.filterMap fun i => (slots i).map Slot.data).map t.payload).sum := fun l => by
    induction l with
    | nil => exact le_rfl
    | cons i l ih =>
      cases hi : slots i with
      | none => simpa [filesOf, hi] using ih
      | some f =>
        have := hpayload i f hi
        simp only [filesOf, hi, List.filterMap_cons, Option.map_some, List.map_cons,
          List.sum_cons, Slot.contents, length_loadBytes] at ih ⊢
        omega
  calc (filesOf s.heap.mem slots).bytes
      ≤ ((dataPtrs slots).map t.payload).sum := hle _
    _ ≤ (t.live.map t.payload).sum := by
        rw [List.map_append, List.sum_append]
        exact Nat.le_add_left _ _
    _ = usedBytes bs := h.heap.sum_payload

/-! ## Tokens -/

section Tokens

variable {n : ℕ} {P : Heap → List ℕ → List (List UInt8) → Prop}

/-- Nothing is printed while a line is cut, when `kmalloc` finds a block for each token. -/
theorem tokenizeText_eq_nil (hP : StoresWords n P)
    (hquiet : ∀ s args ws, P s args ws → args.length < n → ∀ size, size < shellBufferSize →
      kmallocText s (size + 1) = some []) {input : List UInt8} {t : Tokens}
    {ws : List (List UInt8)} (i : ℕ) (h : P t.heap t.args ws)
    (hne : ∀ c ∈ t.token ++ input, c ≠ 0)
    (hfit : t.token.length + input.length < shellBufferSize) :
    tokenizeText n i input t = some [] := by
  induction input generalizing t ws i with
  | nil =>
    rw [tokenizeText]
    split_ifs with hlast
    · exact hquiet _ _ _ h hlast.2 _ (by simpa using hfit)
    · rfl
  | cons c input ih =>
    rw [List.length_cons] at hfit
    rw [tokenizeText]
    split_ifs with hmax hblank hstart
    · obtain ⟨arg, s', hstore, h'⟩ := hP t ws h hmax (by omega)
        fun d hd => hne d (List.mem_append_left _ hd)
      rw [hquiet _ _ _ h hmax _ (by omega), hstore]
      simp only [Option.bind_eq_bind, Option.bind_some, Option.pure_def, List.nil_append]
      rw [ih (t := ⟨s', t.args ++ [arg], none, []⟩) (i + 1) h'
        (fun d hd => hne d (by simp only [List.nil_append] at hd; simp [hd]))
        (by rw [List.length_nil]; omega), Option.bind_some]
    · exact ih (i + 1) h (fun d hd => hne d (by
        rcases List.mem_append.1 hd with hd | hd <;> simp [hd])) (by omega)
    · exact ih (t := ⟨t.heap, t.args, t.argStart.or (some i), t.token ++ [c]⟩) (i + 1) h
        (by simpa using hne)
        (by simp only [List.length_append, List.length_singleton]; omega)
    · rfl

end Tokens

namespace ShellInv

variable {L : FsLayout} {s : Heap} {args : List ℕ} {bs : List Block}
  {slots : Fin maxFiles → Option Slot}

/-- Copying a token leaves the files as they are. -/
theorem storesWords_files (L : FsLayout) (slots : Fin maxFiles → Option Slot) (files : FsMap) :
    StoresWords maxArgs fun s args ws => ∃ bs, ShellInv L s args bs slots ∧
      HoldsWords L s.mem bs args ws ∧ fsMap L s.mem = files := by
  rintro t ws ⟨bs, h, hwords, hfiles⟩ hargs hlen hne
  obtain ⟨p, s', hstore, bs', h', hwords'⟩ :=
    storesWords L slots t ws ⟨bs, h, hwords⟩ hargs hlen hne
  refine ⟨p, s', hstore, bs', h', hwords', ?_⟩
  rw [storeToken_eq hlen] at hstore
  obtain ⟨q, hq, hstore⟩ := Option.map_eq_some_iff.1 hstore
  simp only [Tokens.mk.injEq, List.append_cancel_left_eq, List.cons.injEq, and_true] at hstore
  obtain ⟨rfl, rfl⟩ := hstore
  rcases h.fs.heap.copyWord hlen with
    ⟨s₀, hs₀⟩ | ⟨p, s₁, bs₁, n, hs₁, -, hinv, -, hkeeps, hused, -⟩
  · rw [hs₀, Option.some_inj] at hq
    have hq0 : q.1 ≠ 0 := h'.fs.heap.ne_zero_of_live (List.mem_append_left _ (by simp))
    exact absurd (congrArg Prod.fst hq).symm hq0
  · rw [hs₁, Option.some_inj] at hq
    subst hq
    obtain ⟨-, hmap⟩ := h.fs.of_keeps ⟨s₁, t.args ++ [p]⟩
      (hinv.congr (fun _ _ _ => rfl) (by rw [List.append_assoc]; exact List.perm_middle))
      (fun x hx => hkeeps x (hx.imp id .inl))
      fun i f hf k hmem => ⟨(hused _).2 (.inr hmem), fun x hx hx' =>
        hkeeps x (.inr (.inr ⟨(f.data, k), hmem, hx, hx'⟩))⟩
    exact hmap.trans hfiles

/-- The words of a line are copied, nothing is printed, and the files are the same. -/
theorem tokenize (h : ShellInv L s [] bs slots) (line : ShellLine) :
    ∃ args s₁ bs₁, tokenizeText maxArgs 0 line ⟨s, [], none, []⟩ = some [] ∧
      Fru1tOs.shellTokenize s line maxArgs = some (args, s₁) ∧ ShellInv L s₁ args bs₁ slots ∧
      HoldsWords L s₁.mem bs₁ args ((words line).take maxArgs) ∧
      filesOf s₁.mem slots = filesOf s.mem slots := by
  have hstart : ∃ bs, ShellInv L s [] bs slots ∧ HoldsWords L s.mem bs [] [] ∧
      fsMap L s.mem = fsMap L s.mem := ⟨bs, h, .nil, rfl⟩
  obtain ⟨args, s₁, htok, bs₁, h₁, hwords, hmap⟩ :=
    shellTokenize_spec (storesWords_files L slots (fsMap L s.mem)) hstart line.2.1 line.2.2.1
  refine ⟨args, s₁, bs₁, ?_, htok, h₁, hwords,
    funext fun i => h.fs.filesOf_congr h₁.fs rfl fun f _ => congrFun hmap _⟩
  refine tokenizeText_eq_nil (t := ⟨s, [], none, []⟩) (storesWords_files L slots (fsMap L s.mem))
    ?_ 0 hstart (by simpa using line.2.1) (by simpa using line.2.2.1)
  rintro s' args' ws ⟨bs', h', -, -⟩ hargs size hsize
  obtain ⟨p, s₂, hk, hp⟩ := h'.kmalloc_ne_null hargs.le (fun _ _ _ => rfl) (Nat.succ_ne_zero size)
    (by simp only [maxFilesize, shellBufferSize] at hsize ⊢; omega)
  rw [kmallocText, hk]
  exact if_neg fun hn => hp hn.2

/-- Freeing the tokens leaves the files as they are. -/
theorem freeTokens (h : ShellInv L s args bs slots) :
    ∃ s' bs', args.foldlM kfree s = some s' ∧ ShellInv L s' [] bs' slots ∧
      filesOf s'.mem slots = filesOf s.mem slots := by
  induction args generalizing s bs with
  | nil => exact ⟨s, bs, rfl, h, rfl⟩
  | cons p args ih =>
    obtain ⟨r, s', hs', h', hmap⟩ := h.fs.other (.kfree p)
    obtain ⟨t, ht, hret⟩ := Option.bind_eq_some_iff.1 hs'
    obtain ⟨-, rfl⟩ := Prod.mk.inj (Option.some.inj hret)
    rw [HeapRun.call, if_pos (.inr List.mem_cons_self)] at ht
    obtain ⟨heap, hk, hret⟩ := Option.bind_eq_some_iff.1 ht
    obtain rfl := Option.some.inj hret
    have hcompact := h.fs.compact_step (c := .other (.kfree p)) h.compact (by simp)
    simp only [List.erase_cons_head, FsShape.step_other_slots] at h' hk hmap
    obtain ⟨s', bs', hrun, hinv, hfiles⟩ := ih ⟨h', hcompact⟩
    refine ⟨s', bs', ?_, hinv, hfiles.trans ?_⟩
    · rw [List.foldlM_cons, hk]
      exact hrun
    · exact funext fun i => h.fs.filesOf_congr h' rfl fun f _ => congrFun hmap _

/-- `cmd_cat` displays the file. -/
theorem cmdCatText (h : ShellInv L s args bs slots) (name : FileName) :
    Fru1tOs.cmdCatText L s name = some ((filesOf s.mem slots).display name) := by
  have hsize : maxFilesize = (UInt32.ofNat maxFilesize).toNat := rfl
  obtain ⟨-, hread⟩ := h.fs.read name (UInt32.ofNat maxFilesize)
  rw [← hsize] at hread
  have hcontents := h.fs.contents name
  have htext := h.fs.fsReadText name maxFilesize
  simp only at hread hcontents htext
  rw [Fru1tOs.cmdCatText, htext, Files.display, hcontents]
  rcases hread with ⟨c, hc, hr⟩ | ⟨hnone, hr⟩
  · -- The file is not empty, and its contents fit in the buffer.
    obtain ⟨i, f, hf, -, rfl⟩ := h.fs.table.fsMap_eq_some.1 hc
    obtain ⟨hpos, hmax⟩ := h.fs.size i f hf
    have hlen : (f.contents s.mem).length = f.size := length_loadBytes _ _ _
    rw [hr, hc, List.take_of_length_le (by rw [hlen]; exact hmax)]
    simp only [Option.bind_eq_bind, Option.bind_some, Option.pure_def]
    rw [if_pos (by rw [hlen]; simp only [maxFilesize] at hmax ⊢; omega),
      say_eq (show Takes _ [.str] by decide +kernel), say_eq (show Takes _ [] by decide +kernel)]
    simp only [Option.bind_some, List.append_assoc]
  · rw [hr, hnone]
    simp only [Option.bind_eq_bind, Option.bind_some, Option.pure_def, List.append_nil]
    rw [if_neg (by decide)]

/-- `cmd_create` replies what it should. -/
theorem createReplies (h : ShellInv L s args bs slots) (hargs : args.length ≤ maxArgs)
    (name : FileName) (sizeStr : List UInt8) (rest : List (List UInt8)) (running : Bool) :
    ∃ out s' bs' slots', cmdCreateText L s name sizeStr = some out ∧
      Fru1tOs.cmdCreate L ⟨s, running⟩ name sizeStr = some ⟨s', running⟩ ∧
      ShellInv L s' args bs' slots' ∧
      Command.create.Replies (filesOf s.mem slots) (name :: sizeStr :: rest) out
        (filesOf s'.mem slots') := by
  rw [cmdCreateText, Fru1tOs.cmdCreate]
  simp only [Command.Replies]
  by_cases hsize : strToInt sizeStr ≤ 0 ∨ strToInt sizeStr > maxFilesize
  · have hout : ¬ (1 ≤ strToInt sizeStr ∧ strToInt sizeStr ≤ (maxFilesize : ℤ)) := by omega
    simp only [if_pos hsize, if_neg hout]
    exact ⟨_, s, bs, slots, say_eq (show Takes _ [.word] by decide +kernel), rfl, h, rfl, rfl⟩
  have hin : 1 ≤ strToInt sizeStr ∧ strToInt sizeStr ≤ (maxFilesize : ℤ) := by omega
  simp only [if_neg hsize, if_pos hin]
  set size := UInt32.ofNat (strToInt sizeStr).toNat
  have htoNat : size.toNat = (strToInt sizeStr).toNat := by
    simp only [maxFilesize] at hsize
    exact UInt32.toNat_ofNat_of_lt' (by simp only [UInt32.size]; omega)
  have h0 : size.toNat ≠ 0 := by omega
  have hmax : size.toNat ≤ maxFilesize := by omega
  obtain ⟨out, s', bs', slots', htext, hcall, h', hstep, hreply⟩ :=
    h.fs.fsCreate name h0 hmax fun m' hm => h.kmalloc_ne_null hargs hm h0 hmax
  obtain ⟨r, hs'⟩ := hcall
  rw [FsRun.call, htoNat] at hs'
  obtain ⟨q, hcreate, hret⟩ := Option.bind_eq_some_iff.1 hs'
  obtain ⟨-, rfl⟩ := Prod.mk.inj (Option.some.inj hret)
  have hcompact := h.fs.compact_step (c := .create name size) h.compact (by simp)
  rw [hstep] at hcompact
  rw [htoNat] at htext hreply
  simp only at hcreate htext
  refine ⟨out, q.2, bs', slots', htext, ?_, ⟨h', hcompact⟩, hreply⟩
  rw [hcreate]
  rfl

/-- `cmd_delete` replies what it should. -/
theorem deleteReplies (h : ShellInv L s args bs slots) (name : FileName)
    (rest : List (List UInt8)) (running : Bool) :
    ∃ out s' bs' slots', fsDeleteText L s name = some out ∧
      Fru1tOs.cmdDelete L ⟨s, running⟩ name = some ⟨s', running⟩ ∧
      ShellInv L s' args bs' slots' ∧
      Command.delete.Replies (filesOf s.mem slots) (name :: rest) out (filesOf s'.mem slots') := by
  obtain ⟨out, s', bs', slots', htext, hcall, h', hstep, hreply⟩ := h.fs.fsDelete name
  obtain ⟨r, hs'⟩ := hcall
  obtain ⟨q, hdelete, hret⟩ := Option.bind_eq_some_iff.1 hs'
  obtain ⟨-, rfl⟩ := Prod.mk.inj (Option.some.inj hret)
  have hcompact := h.fs.compact_step (c := .delete name) h.compact (by simp)
  rw [hstep] at hcompact
  simp only at hdelete htext
  refine ⟨out, q.2, bs', slots', htext, ?_, ⟨h', hcompact⟩, hreply⟩
  rw [Fru1tOs.cmdDelete, hdelete]
  rfl

/-- A command replies what it should, given the words of the line. -/
theorem execute {cmd : ℕ} {rest : List ℕ} {ws : List (List UInt8)}
    (h : ShellInv L s (cmd :: rest) bs slots) (hargs : (cmd :: rest).length ≤ maxArgs)
    (hwords : HoldsWords L s.mem bs (cmd :: rest) ws)
    (hws : ∀ w ∈ ws, (∀ c ∈ w, c ≠ 0) ∧ w.length < shellBufferSize)
    (hfile : ∀ filename ∈ fileArg ws, filename.length < maxFilename) :
    ∃ out s' running bs' slots', shellExecuteText L ⟨s, true⟩ cmd (cmd :: rest) = some out ∧
      Fru1tOs.shellExecuteCommand L ⟨s, true⟩ cmd (cmd :: rest) = some ⟨s', running⟩ ∧
      ShellInv L s' (cmd :: rest) bs' slots' ∧
      Replies (filesOf s.mem slots) ws out (filesOf s'.mem slots') running := by
  have hload := hwords.map_loadStr hws
  obtain ⟨w, ws', hcmd, -, rfl⟩ := List.forall₂_cons_left_iff.1 hwords
  have hfind := find?_strcmp hcmd.1 (hws w List.mem_cons_self).1
  obtain ⟨hw, hrest⟩ := List.cons.inj hload
  -- A name of a file fits its field.
  have hname : ∀ {c : Command}, Command.all.find? (fun c => w = c.name) = some c → w = c.name :=
    fun hc => by simpa using List.find?_some hc
  simp only [shellExecuteText, Fru1tOs.shellExecuteCommand, Replies, hfind]
  cases hc : Command.all.find? fun c => w = c.name with
  | none =>
    refine ⟨_, s, true, bs, slots, ?_, rfl, h, rfl, rfl, rfl⟩
    simp only
    rw [hw, say_eq (show Takes _ [.str] by decide +kernel),
      say_eq (show Takes _ [] by decide +kernel)]
    rfl
  | some c =>
    have hwc := hname hc
    cases c with
    | help => exact ⟨_, s, true, bs, slots, cmdHelpText_eq, rfl, h, ⟨rfl, rfl⟩, by simp⟩
    | ls => exact ⟨_, s, true, bs, slots, h.fs.fsListText, rfl, h, ⟨rfl, rfl⟩, by simp⟩
    | memstat =>
      have hends := h.fs.heap.tiled.ends
      rw [endOf_eq_add, HeapLayout.heapEnd] at hends
      exact ⟨_, s, true, bs, slots, h.fs.heap.printMemoryStats, rfl, h,
        ⟨⟨_, _, _, by omega, h.fs.bytes_le, rfl⟩, rfl⟩, by simp⟩
    | clear =>
      exact ⟨_, s, true, bs, slots, say_eq (show Takes _ [] by decide +kernel), rfl, h,
        ⟨rfl, rfl⟩, by simp⟩
    | echo =>
      refine ⟨_, s, true, bs, slots, cmdEchoText_eq _ _, rfl, h, ⟨?_, rfl⟩, by simp⟩
      rw [List.tail_cons, hrest]
    | exit =>
      exact ⟨_, s, false, bs, slots, say_eq (show Takes _ [] by decide +kernel), rfl, h,
        ⟨rfl, rfl⟩, by simp⟩
    | cat =>
      cases rest with
      | nil =>
        subst hrest
        exact ⟨_, s, true, bs, slots, say_eq (show Takes _ [] by decide +kernel), rfl, h,
          ⟨rfl, rfl⟩, by simp⟩
      | cons p rest =>
        subst hrest
        have hfits := hfile (loadStr s.mem p) (by simp [fileArg, hwc])
        have hne := (hws (loadStr s.mem p) (by simp)).1
        exact ⟨_, s, true, bs, slots, h.cmdCatText ⟨loadStr s.mem p, hne, hfits⟩, rfl, h,
          ⟨rfl, rfl⟩, by simp⟩
    | create =>
      cases rest with
      | nil =>
        subst hrest
        exact ⟨_, s, true, bs, slots, say_eq (show Takes _ [] by decide +kernel), rfl, h,
          ⟨rfl, rfl⟩, by simp⟩
      | cons p rest =>
        cases rest with
        | nil =>
          subst hrest
          exact ⟨_, s, true, bs, slots, say_eq (show Takes _ [] by decide +kernel), rfl, h,
            ⟨rfl, rfl⟩, by simp⟩
        | cons q rest =>
          subst hrest
          have hfits := hfile (loadStr s.mem p) (by simp [fileArg, hwc])
          have hne := (hws (loadStr s.mem p) (by simp)).1
          obtain ⟨out, s', bs', slots', htext, hrun, h', hreply⟩ := h.createReplies hargs
            ⟨loadStr s.mem p, hne, hfits⟩ (loadStr s.mem q) (rest.map (loadStr s.mem)) true
          exact ⟨out, s', true, bs', slots', htext, hrun, h', hreply, by simp⟩
    | delete =>
      cases rest with
      | nil =>
        subst hrest
        exact ⟨_, s, true, bs, slots, say_eq (show Takes _ [] by decide +kernel), rfl, h,
          ⟨rfl, rfl⟩, by simp⟩
      | cons p rest =>
        subst hrest
        have hfits := hfile (loadStr s.mem p) (by simp [fileArg, hwc])
        have hne := (hws (loadStr s.mem p) (by simp)).1
        obtain ⟨out, s', bs', slots', htext, hrun, h', hreply⟩ := h.deleteReplies
          ⟨loadStr s.mem p, hne, hfits⟩ (rest.map (loadStr s.mem)) true
        exact ⟨out, s', true, bs', slots', htext, hrun, h', hreply, by simp⟩

/-- A line is answered as it should be. -/
theorem parse (h : ShellInv L s [] bs slots) (line : ShellLine) :
    ∃ out s' running bs' slots', shellParseText L ⟨s, true⟩ line = some out ∧
      Fru1tOs.shellParseCommand L ⟨s, true⟩ line = some ⟨s', running⟩ ∧
      ShellInv L s' [] bs' slots' ∧
      Replies (filesOf s.mem slots) ((words line).take maxArgs) out (filesOf s'.mem slots')
        running := by
  obtain ⟨args, s₁, bs₁, htext, htok, h₁, hwords, hfiles⟩ := h.tokenize line
  rw [shellParseText, Fru1tOs.shellParseCommand, htext, htok, ← hfiles]
  cases args with
  | nil =>
    rw [List.forall₂_nil_left_iff.1 hwords]
    exact ⟨_, s₁, true, bs₁, slots, rfl, rfl, h₁, rfl, rfl, rfl⟩
  | cons cmd rest =>
    have hws : ∀ w ∈ (words line).take maxArgs, (∀ c ∈ w, c ≠ 0) ∧ w.length < shellBufferSize :=
      fun w hw => by
        obtain ⟨hlen, hmem⟩ := mem_of_mem_wordsFrom (List.mem_of_mem_take hw)
        refine ⟨fun c hc => line.2.1 c ((hmem c hc).resolve_left List.not_mem_nil), ?_⟩
        rw [List.length_nil, Nat.zero_add] at hlen
        exact hlen.trans_lt line.2.2.1
    have hargs : (cmd :: rest).length ≤ maxArgs := by
      rw [hwords.length_eq]
      exact List.length_take_le _ _
    obtain ⟨out, s₂, running, bs₂, slots', hout, hexec, h₂, hreply⟩ := h₁.execute hargs hwords hws
      (by rw [fileArg_take]; exact line.2.2.2)
    obtain ⟨s₃, bs₃, hfree, h₃, hfiles'⟩ := h₂.freeTokens
    refine ⟨out, s₃, running, bs₃, slots', ?_, ?_, h₃, hfiles' ▸ hreply⟩
    · simp only [Option.bind_eq_bind, Option.bind_some, Option.pure_def, hout, List.nil_append]
    · simp only [Option.bind_eq_bind, Option.bind_some, Option.pure_def, hexec, hfree]

end ShellInv

end Fru1tOs
