import Fru1tOs.Shell.Line
import Fru1tOs.Shell.Text

/-!
# Sessions

A session of `shell_run` with all that it prints: the prompts, the echo of what is typed, and the
replies. What it should be is said without the memory (`Dialog`): there are the files, the line
under way, and what has been printed; a character is echoed and edits the line, and the end of a
line is answered as `Replies` says, with the next prompt after it. Before the first character there
is the hint of `getchar_blocking`, which ends the line of the first prompt.

* `Session.Shows.newline`, `Session.Shows.edit`: with each character the session does what the
  dialog does.
* `Dialog.Run.displays`: the terminal shows the line under way, behind the prompt but for the first
  line, with nothing but blanks after the cursor.
* `session_shows`: whatever is typed, the session is such a dialog.
-/

namespace Fru1tOs

open Lib

/-- The shell, what it has printed, and `first_time` of `getchar_blocking`. -/
structure Session where
  shell : Shell
  printed : List UInt8
  firstTime : Bool

/-- Something is printed. -/
def Session.print (s : Session) (out : List UInt8) : Session :=
  { s with printed := s.printed ++ out }

/-- `shell_parse_command`. -/
def Session.parse (L : FsLayout) (s : Session) (input : List UInt8) : Option Session := do
  let out ← shellParseText L s.shell input
  let shell ← shellParseCommand L s.shell input
  return { s with shell := shell, printed := s.printed ++ out }

/-- `getchar_blocking` before its loop: a hint is printed when it is called for the first time. -/
def getcharBlockingHint (s : Session) : Option Session :=
  if s.firstTime then do
    let out ← say "Waiting for keyboard input... (try typing!)\n" []
    return { s with printed := s.printed ++ out, firstTime := false }
  else some s

/-- A pass of the outer loop of `shell_run` prints the prompt, and starts a new line. -/
def sessionPrompt (e : LineEditor Session) : Option (LineEditor Session) :=
  if e.shell.shell.running then do
    return { e with shell := e.shell.print (← say "fru1t-os> " []), bufferPos := 0 }
  else some e

/-- What a pass of the inner loop of `shell_run` does with the character that was read. -/
def sessionChar (L : FsLayout) (e : LineEditor Session) (c : UInt8) :
    Option (LineEditor Session) :=
  if c = 10 ∨ c = 13 then do
    let inputBuffer ← store e.inputBuffer e.bufferPos 0
    let shell := e.shell.print (← say "\n" [])
    let shell ← if e.bufferPos > 0 then (cString inputBuffer).bind (shell.parse L) else some shell
    sessionPrompt { e with shell := shell, inputBuffer := inputBuffer }
  else if c = 8 ∨ c = 127 then
    if e.bufferPos > 0 then do
      return { e with
        shell := e.shell.print (← say "\x08 \x08" [])
        bufferPos := e.bufferPos - 1 }
    else some e
  else if 32 ≤ c ∧ c < 127 ∧ e.bufferPos < shellBufferSize - 1 then do
    let inputBuffer ← store e.inputBuffer e.bufferPos c
    return { e with
      shell := e.shell.print [c]
      inputBuffer := inputBuffer
      bufferPos := e.bufferPos + 1 }
  else some e

/-- A pass of the inner loop of `shell_run`. -/
def sessionKey (L : FsLayout) (e : LineEditor Session) (c : UInt8) :
    Option (LineEditor Session) := do
  let shell ← getcharBlockingHint e.shell
  sessionChar L { e with shell := shell } c

/-- `shell_run`, on the characters that are typed. -/
def sessionRun (L : FsLayout) (e : LineEditor Session) (keys : List UInt8) :
    Option (LineEditor Session) := do
  let e ← sessionPrompt e
  run (fun e c => if e.shell.shell.running then sessionKey L e c else some e) e keys

/-! ## The dialog -/

/-- A session as the user sees it. -/
structure Dialog where
  files : Files
  running : Bool
  line : List UInt8
  printed : List UInt8
  firstTime : Bool

/-- The prompt. -/
def promptText : List UInt8 := text "fru1t-os> " []

/-- The hint before the first character. -/
def hintText : List UInt8 := text "Waiting for keyboard input... (try typing!)\n" []

/-- What a character prints that does not end the line: it is echoed if it is kept. -/
def echoText (line : List UInt8) (c : UInt8) : List UInt8 :=
  if c = 8 ∨ c = 127 then if line = [] then [] else text "\x08 \x08" []
  else if editKey line c = line then [] else [c]

namespace Dialog

/-- There are no files. -/
def start : Dialog := ⟨fun _ => none, true, [], promptText, true⟩

/-- The dialog before a character. -/
def hint (d : Dialog) : Dialog :=
  { d with printed := d.printed ++ (if d.firstTime then hintText else []), firstTime := false }

/-- A character edits or ends the line. -/
def Char (d : Dialog) (c : UInt8) (d' : Dialog) : Prop :=
  if c = 10 ∨ c = 13 then
    ∃ out files running, Replies d.files ((words d.line).take maxArgs) out files running ∧
      d' = { d with
        files := files
        running := running
        line := []
        printed := d.printed ++ text "\n" [] ++ out ++ if running then promptText else [] }
  else d' = { d with line := editKey d.line c, printed := d.printed ++ echoText d.line c }

/-- A character is typed. -/
def Key (d : Dialog) (c : UInt8) (d' : Dialog) : Prop :=
  if d.running then d.hint.Char c d' else d' = d

/-- Characters are typed, one after another. -/
inductive Run (d : Dialog) : List UInt8 → Dialog → Prop
  | nil : Run d [] d
  | concat {keys : List UInt8} {c : UInt8} {d' d'' : Dialog} :
    Run d keys d' → d'.Key c d'' → Run d (keys ++ [c]) d''

end Dialog

/-! ## The terminal -/

/-- A line of a terminal: what is before the cursor, and what is under it and after it. -/
structure Terminal where
  left : List UInt8
  right : List UInt8

namespace Terminal

/-- A character is put under the cursor, or the cursor goes back, or to the next line. -/
def put (t : Terminal) (c : UInt8) : Terminal :=
  if c = 8 then ⟨t.left.dropLast, t.left.getLast?.toList ++ t.right⟩
  else if c = 10 then ⟨[], []⟩
  else ⟨t.left ++ [c], t.right.tail⟩

/-- Blanks. -/
abbrev blanks (n : ℕ) : List UInt8 := List.replicate n 32

end Terminal

/-- After the last prompt, what the terminal shows is `p` and the line under way. -/
def Dialog.Displays (d : Dialog) (p : List UInt8) : Prop :=
  ∃ before typed n, d.printed = before ++ promptText ++ typed ∧
    typed.foldl Terminal.put ⟨promptText, []⟩ = ⟨p ++ d.line, Terminal.blanks n⟩

/-- What stands before the line under way: the prompt, but for the first line. -/
def shownPrompt (keys : List UInt8) : List UInt8 :=
  if keys ≠ [] ∧ (draft keys).lines = [] then [] else promptText

namespace Dialog

variable {d d' : Dialog} {c : UInt8} {keys : List UInt8}

/-- What a character prints changes the line on the terminal as the line is edited. -/
theorem foldl_put_echoText (p line : List UInt8) (c : UInt8) (n : ℕ) :
    ∃ n', (echoText line c).foldl Terminal.put ⟨p ++ line, Terminal.blanks n⟩ =
      ⟨p ++ editKey line c, Terminal.blanks n'⟩ := by
  rw [echoText]
  by_cases hback : c = 8 ∨ c = 127
  · rw [if_pos hback, editKey, if_pos hback]
    rcases List.eq_nil_or_concat line with rfl | ⟨l, x, rfl⟩
    · exact ⟨n, rfl⟩
    · -- The cursor goes back, over a blank, and back again.
      have hback' : text "\x08 \x08" [] = [8, 32, 8] := by decide +kernel
      refine ⟨n + 1, ?_⟩
      rw [List.concat_eq_append, if_neg (by simp), hback', List.dropLast_concat,
        ← List.append_assoc]
      simp [Terminal.put, List.replicate_succ]
  · rw [if_neg hback, editKey, if_neg hback]
    split_ifs with hkeep hsame hsame
    · exact absurd hsame (by simp)
    · have hc : c ≠ 8 := fun h => hback (.inl h)
      have hc' : c ≠ 10 := fun h => absurd (h ▸ hkeep.1) (by decide)
      exact ⟨n - 1, by simp [Terminal.put, hc, hc']⟩
    · exact ⟨n, rfl⟩
    · exact absurd rfl hsame

/-- The hint ends the line of the prompt. -/
theorem Displays.hint {p : List UInt8} (h : d.Displays p)
    (hline : d.firstTime = true → d.line = []) :
    d.hint.Displays (if d.firstTime then [] else p) := by
  obtain ⟨before, typed, n, hprinted, hterm⟩ := h
  by_cases hfirst : d.firstTime = true
  · obtain ⟨l, hl⟩ : ∃ l, hintText = l ++ [10] := ⟨_, (by decide +kernel :
      hintText = chars "Waiting for keyboard input... (try typing!)" ++ [10])⟩
    refine ⟨before, typed ++ hintText, 0, ?_, ?_⟩
    · simp only [Dialog.hint, if_pos hfirst, hprinted, List.append_assoc]
    · rw [if_pos hfirst, List.foldl_append, hl, List.foldl_append, List.nil_append]
      exact congrArg (Terminal.mk · []) (hline hfirst).symm
  · refine ⟨before, typed, n, ?_, ?_⟩
    · simp only [Dialog.hint, if_neg hfirst, hprinted, List.append_nil]
    · rw [if_neg hfirst]
      exact hterm

/-- A character edits the line on the terminal, or there is a new prompt. -/
theorem Displays.char {p : List UInt8} (h : d.Displays p) (hchar : d.Char c d')
    (hrun : d'.running = true) :
    d'.Displays (if c = 10 ∨ c = 13 then promptText else p) := by
  rw [Char] at hchar
  split_ifs at hchar ⊢ with hend
  · obtain ⟨out, files, running, -, rfl⟩ := hchar
    obtain rfl : running = true := hrun
    exact ⟨_, [], 0, by rw [List.append_nil]; rfl, by rw [List.foldl_nil, List.append_nil]; rfl⟩
  · subst hchar
    obtain ⟨before, typed, n, hprinted, hterm⟩ := h
    obtain ⟨n', hn'⟩ := foldl_put_echoText p d.line c n
    refine ⟨before, typed ++ echoText d.line c, n', ?_, ?_⟩
    · rw [hprinted, ← List.append_assoc]
    · rw [List.foldl_append, hterm, hn']

/-- A step of a dialog that goes on. -/
theorem Key.of_running (h : d.Key c d') (hrun : d'.running = true) :
    d.running = true ∧ d.hint.Char c d' := by
  rw [Key] at h
  split_ifs at h with hd
  · exact ⟨hd, h⟩
  · subst h
    exact absurd hrun hd

/-- As long as the shell is running, the line under way is what is typed. -/
theorem Run.line (h : start.Run keys d) (hrun : d.running = true) : d.line = (draft keys).line := by
  induction h with
  | nil => rfl
  | @concat keys c d' d'' _ hkey ih =>
    obtain ⟨hrun', hchar⟩ := hkey.of_running hrun
    rw [Char] at hchar
    rw [draft_concat, Draft.key]
    split_ifs at hchar ⊢ with hend
    · obtain ⟨out, files, running, -, rfl⟩ := hchar
      rfl
    · subst hchar
      rw [← ih hrun']
      rfl

/-- The hint is yet to come as long as nothing is typed. -/
theorem Run.firstTime (h : start.Run keys d) (hrun : d.running = true) :
    d.firstTime = true ↔ keys = [] := by
  induction h with
  | nil => exact iff_of_true rfl rfl
  | @concat keys c d' d'' _ hkey _ =>
    obtain ⟨-, hchar⟩ := hkey.of_running hrun
    rw [Char] at hchar
    refine iff_of_false ?_ (by simp)
    split_ifs at hchar
    · obtain ⟨out, files, running, -, rfl⟩ := hchar
      exact Bool.false_ne_true
    · subst hchar
      exact Bool.false_ne_true

/-- In every dialog the terminal shows the line under way, until the shell stops. -/
theorem Run.displays (h : start.Run keys d) (hrun : d.running = true) :
    d.Displays (shownPrompt keys) := by
  induction h with
  | nil => exact ⟨[], [], 0, rfl, congrArg (Terminal.mk · []) (List.append_nil _).symm⟩
  | @concat keys c d' d'' hd hkey ih =>
    obtain ⟨hrun', hchar⟩ := hkey.of_running hrun
    have hfirst := hd.firstTime hrun'
    have hshown := ((ih hrun').hint fun hf => by
      rw [hd.line hrun', hfirst.1 hf]
      rfl).char hchar hrun
    convert hshown using 1
    rw [shownPrompt, draft_concat, Draft.key]
    by_cases hend : c = 10 ∨ c = 13
    · rw [if_pos hend, if_pos hend, if_neg (by simp)]
    · rw [if_neg hend, if_neg hend]
      by_cases hnil : keys = []
      · subst hnil
        rw [if_pos (hfirst.2 rfl)]
        exact if_pos ⟨List.cons_ne_nil c [], rfl⟩
      · rw [if_neg fun hf => hnil (hfirst.1 hf), shownPrompt]
        exact if_congr (and_congr_left' (iff_of_true (by simp) hnil)) rfl rfl

end Dialog

/-! ## The session -/

/-- The session is at the dialog. -/
structure Session.Shows (L : FsLayout) (e : LineEditor Session) (d : Dialog) : Prop where
  inv : ∃ bs slots, ShellInv L e.shell.shell.heap [] bs slots ∧
    filesOf e.shell.shell.heap.mem slots = d.files
  running : e.shell.shell.running = d.running
  printed : e.shell.printed = d.printed
  firstTime : e.shell.firstTime = d.firstTime
  pos : e.bufferPos ≤ shellBufferSize - 1
  line : d.running = true → front e.inputBuffer e.bufferPos = d.line

namespace Session.Shows

variable {L : FsLayout} {e : LineEditor Session} {d : Dialog} {c : UInt8}

/-- The hint is printed before the first character. -/
theorem hint (h : Shows L e d) :
    ∃ shell, getcharBlockingHint e.shell = some shell ∧
      Shows L { e with shell := shell } d.hint := by
  rw [getcharBlockingHint]
  by_cases hfirst : e.shell.firstTime = true
  · rw [if_pos hfirst, say_eq (show Takes _ [] by decide +kernel)]
    refine ⟨_, rfl, h.inv, h.running, ?_, rfl, h.pos, h.line⟩
    rw [Dialog.hint, ← h.firstTime, if_pos hfirst, ← h.printed]
    rfl
  · rw [if_neg hfirst]
    refine ⟨_, rfl, h.inv, h.running, ?_, Bool.eq_false_iff.2 hfirst, h.pos, h.line⟩
    simp only [Dialog.hint, ← h.firstTime, if_neg hfirst, ← h.printed, List.append_nil]

/-- The prompt is printed, if the shell is running. -/
theorem prompt (files : Files) (hinv : ∃ bs slots, ShellInv L e.shell.shell.heap [] bs slots ∧
    filesOf e.shell.shell.heap.mem slots = files) (hpos : e.bufferPos ≤ shellBufferSize - 1) :
    ∃ e', sessionPrompt e = some e' ∧ Shows L e' ⟨files, e.shell.shell.running, [],
      e.shell.printed ++ if e.shell.shell.running then promptText else [], e.shell.firstTime⟩ := by
  rw [sessionPrompt]
  by_cases hrun : e.shell.shell.running = true
  · rw [if_pos hrun, if_pos hrun, say_eq (show Takes _ [] by decide +kernel)]
    exact ⟨_, rfl, hinv, rfl, rfl, rfl, Nat.zero_le _, fun _ => front_zero _⟩
  · rw [if_neg hrun, if_neg hrun, List.append_nil]
    exact ⟨e, rfl, hinv, rfl, rfl, rfl, hpos, fun h => absurd h hrun⟩

/-- The end of a line is answered. -/
theorem newline (h : Shows L e d) (hrun : d.running = true) (hline : Editable d.line)
    (hfile : ∀ filename ∈ fileArg (words d.line), filename.length < maxFilename)
    (hc : c = 10 ∨ c = 13) :
    ∃ e' d', sessionChar L e c = some e' ∧ d.Char c d' ∧ Shows L e' d' := by
  have hpos : e.bufferPos < shellBufferSize := Nat.lt_of_le_pred (by decide) h.pos
  have hstr : cString (e.inputBuffer.set e.bufferPos 0 hpos) = some d.line := by
    rw [cString_set_zero hpos (by rw [h.line hrun]; exact hline.ne_zero), h.line hrun]
  have hlen : d.line.length = e.bufferPos := by
    rw [← h.line hrun, length_front _ (h.pos.trans (Nat.sub_le _ _))]
  obtain ⟨bs, slots, hinv, hfiles⟩ := h.inv
  have hshell : e.shell.shell = ⟨e.shell.shell.heap, true⟩ := by
    rw [← hrun, ← h.running]
  rw [sessionChar, if_pos hc, store_of_lt _ hpos, say_eq (show Takes _ [] by decide +kernel)]
  simp only [Option.bind_eq_bind, Option.bind_some, hstr]
  have hchar : ∀ {out files running},
      Replies d.files ((words d.line).take maxArgs) out files running →
      d.Char c ⟨files, running, [], d.printed ++ text "\n" [] ++ out ++
        if running then promptText else [], d.firstTime⟩ := fun hreply => by
    rw [Dialog.Char, if_pos hc]
    exact ⟨_, _, _, hreply, rfl⟩
  by_cases hempty : e.bufferPos > 0
  · rw [if_pos hempty]
    obtain ⟨out, s', running, bs', slots', htext, hparse, hinv', hreply⟩ :=
      hinv.parse ⟨d.line, hline.ne_zero, hline.fits, hfile⟩
    rw [← hshell] at htext hparse
    rw [hfiles] at hreply
    have hsession : (e.shell.print (text "\n" [])).parse L d.line =
        some ⟨⟨s', running⟩, d.printed ++ text "\n" [] ++ out, d.firstTime⟩ := by
      rw [← h.printed, ← h.firstTime]
      simp only [Session.parse, Session.print, htext, hparse, Option.bind_eq_bind,
        Option.bind_some, Option.pure_def]
    rw [hsession, Option.bind_some]
    obtain ⟨e', he', hshows⟩ := prompt (e := ⟨⟨⟨s', running⟩, d.printed ++ text "\n" [] ++ out,
      d.firstTime⟩, e.inputBuffer.set e.bufferPos 0 hpos, e.bufferPos⟩) _
      ⟨bs', slots', hinv', rfl⟩ h.pos
    exact ⟨e', _, he', hchar hreply, hshows⟩
  · -- Nothing was typed.
    rw [if_neg hempty]
    have hnil : d.line = [] := List.eq_nil_of_length_eq_zero (by omega)
    have hreply : Replies d.files ((words d.line).take maxArgs) [] d.files true := by
      rw [hnil]
      exact ⟨rfl, rfl, rfl⟩
    obtain ⟨e', he', hshows⟩ := prompt (e := ⟨e.shell.print (text "\n" []),
      e.inputBuffer.set e.bufferPos 0 hpos, e.bufferPos⟩) _ ⟨bs, slots, hinv, hfiles⟩ h.pos
    refine ⟨e', _, he', hchar hreply, ?_⟩
    simp only [Session.print, h.printed, h.running, h.firstTime, hrun] at hshows
    rwa [List.append_nil]

/-- Another character is echoed, and edits the line. -/
theorem edit (h : Shows L e d) (hrun : d.running = true) (hc : ¬ (c = 10 ∨ c = 13)) :
    ∃ e', sessionChar L e c = some e' ∧ Shows L e' { d with
      line := editKey d.line c, printed := d.printed ++ echoText d.line c } := by
  have hpos := h.pos
  have hlen : d.line.length = e.bufferPos := by
    rw [← h.line hrun, length_front _ (hpos.trans (Nat.sub_le _ _))]
  rw [sessionChar, if_neg hc, echoText, editKey, hlen]
  split_ifs with hback hsome hnil hnil hkeep hsame hsame
  · rw [hnil] at hlen
    exact absurd hlen.symm (by simpa using hsome.ne')
  · -- The last character is removed.
    rw [say_eq (show Takes _ [] by decide +kernel)]
    refine ⟨_, rfl, h.inv, h.running, ?_, h.firstTime, (Nat.sub_le _ _).trans hpos, fun _ => ?_⟩
    · simp only [Session.print, h.printed]
    · rw [front_pred _ (hpos.trans (Nat.sub_le _ _)), h.line hrun]
  · -- There is none.
    exact ⟨e, rfl, h.inv, h.running, by rw [h.printed, List.append_nil], h.firstTime, hpos,
      fun _ => by rw [h.line hrun, hnil, List.dropLast_nil]⟩
  · exact absurd (List.eq_nil_of_length_eq_zero (by omega)) hnil
  · exact absurd hsame (by simp)
  · have hlt : e.bufferPos < shellBufferSize := hkeep.2.2.trans_le (Nat.sub_le _ _)
    rw [store_of_lt _ hlt]
    refine ⟨_, rfl, h.inv, h.running, ?_, h.firstTime, hkeep.2.2, fun _ => ?_⟩
    · simp only [Session.print, h.printed]
    · rw [front_set_succ, h.line hrun]
  · exact ⟨e, rfl, h.inv, h.running, by rw [h.printed, List.append_nil], h.firstTime, hpos,
      fun _ => h.line hrun⟩
  · exact absurd rfl hsame

/-- A character is typed, in a line that is what `shell_run` can edit. -/
theorem key (h : Shows L e d) (hline : d.running = true → Editable d.line)
    (hfile : d.running = true → c = 10 ∨ c = 13 →
      ∀ filename ∈ fileArg (words d.line), filename.length < maxFilename) :
    ∃ e' d', (if e.shell.shell.running then sessionKey L e c else some e) = some e' ∧
      d.Key c d' ∧ Shows L e' d' := by
  by_cases hrun : d.running = true
  · obtain ⟨shell, hshell, hhint⟩ := h.hint
    rw [if_pos (h.running.trans hrun), sessionKey, hshell, Option.bind_eq_bind, Option.bind_some]
    have hchar : ∃ e' d', sessionChar L { e with shell := shell } c = some e' ∧
        d.hint.Char c d' ∧ Shows L e' d' := by
      by_cases hc : c = 10 ∨ c = 13
      · exact hhint.newline hrun (hline hrun) (hfile hrun hc) hc
      · obtain ⟨e', he', h'⟩ := hhint.edit hrun hc
        exact ⟨e', _, he', by rw [Dialog.Char, if_neg hc], h'⟩
    obtain ⟨e', d', he', hd', h'⟩ := hchar
    exact ⟨e', d', he', by rwa [Dialog.Key, if_pos hrun], h'⟩
  · rw [if_neg fun hn => hrun (h.running.symm.trans hn)]
    exact ⟨e, d, rfl, by rw [Dialog.Key, if_neg hrun], h⟩

end Session.Shows

/-- Whatever is typed, with file names that fit their field, the session goes on as a dialog: what
    it has printed, the files, and whether the shell is running. The terminal shows the line under
    way. -/
theorem session_shows (L : FsLayout) (s₀ : Heap) (inputBuffer : Vector UInt8 shellBufferSize)
    {keys : List UInt8} (hfile : ∀ line ∈ (draft keys).lines,
      ∀ filename ∈ fileArg (words line), filename.length < maxFilename) :
    ∃ e d, sessionRun L ⟨⟨Shell.init L s₀, [], true⟩, inputBuffer, 0⟩ keys = some e ∧
      Dialog.start.Run keys d ∧ e.shell.printed = d.printed ∧
      filesIn L e.shell.shell.heap.mem = d.files ∧ e.shell.shell.running = d.running ∧
      (d.running = true → d.line = (draft keys).line ∧ d.Displays (shownPrompt keys)) := by
  suffices hrun : ∃ e d, sessionRun L ⟨⟨Shell.init L s₀, [], true⟩, inputBuffer, 0⟩ keys = some e ∧
      Dialog.start.Run keys d ∧ Session.Shows L e d by
    obtain ⟨e, d, he, hd, h⟩ := hrun
    obtain ⟨bs, slots, hinv, hfiles⟩ := h.inv
    exact ⟨e, d, he, hd, h.printed, hinv.fs.table.filesIn.trans hfiles, h.running,
      fun hrun => ⟨hd.line hrun, hd.displays hrun⟩⟩
  induction keys using List.reverseRecOn with
  | nil =>
    obtain ⟨e, he, h⟩ := Session.Shows.prompt (L := L)
      (e := ⟨⟨Shell.init L s₀, [], true⟩, inputBuffer, 0⟩) (fun _ => none)
      ⟨_, _, shellInv_init L s₀, rfl⟩ (Nat.zero_le _)
    refine ⟨e, Dialog.start, ?_, .nil, h⟩
    rw [sessionRun, he]
    rfl
  | append_singleton keys c ih =>
    have hsub : ∀ line ∈ (draft keys).lines, line ∈ (draft (keys ++ [c])).lines :=
      fun line hline => by
        rw [draft_concat, Draft.key]
        split_ifs
        · exact List.mem_append_left _ hline
        · exact hline
    obtain ⟨e, d, he, hd, h⟩ := ih fun line hline => hfile line (hsub line hline)
    obtain ⟨e', d', he', hkey, h'⟩ : ∃ e' d',
        (if e.shell.shell.running then sessionKey L e c else some e) = some e' ∧
        d.Key c d' ∧ Session.Shows L e' d' := by
      refine h.key (fun hrun => ?_) fun hrun hc => ?_
      · rw [hd.line hrun]
        exact (draft_editable keys).1
      · rw [hd.line hrun]
        refine hfile _ ?_
        rw [draft_concat, Draft.key, if_pos hc]
        exact List.mem_append_right _ (List.mem_singleton_self _)
    refine ⟨e', d', ?_, hd.concat hkey, h'⟩
    rw [sessionRun] at he ⊢
    obtain ⟨e₀, he₀, he⟩ := Option.bind_eq_some_iff.1 he
    rw [he₀, Option.bind_eq_bind, Option.bind_some, run_concat, he, Option.bind_some, he']

/-- A file is created and listed. -/
theorem session_shows_ls :
    let keys := chars "create a 7\nls\n"
    ∃ e d, sessionRun default ⟨⟨Shell.init default ⟨fun _ => 0, 0⟩, [], true⟩,
        Vector.replicate _ 0, 0⟩ keys = some e ∧
      Dialog.start.Run keys d ∧ e.shell.printed = d.printed ∧
      filesIn default e.shell.shell.heap.mem = d.files ∧ e.shell.shell.running = d.running ∧
      (d.running = true → d.line = (draft keys).line ∧ d.Displays (shownPrompt keys)) :=
  session_shows default ⟨fun _ => 0, 0⟩ (Vector.replicate _ 0) (by decide +kernel)

end Fru1tOs
