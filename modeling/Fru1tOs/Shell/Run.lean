import Fru1tOs.Heap.Room
import Fru1tOs.Shell.Words

/-!
# Runs of the shell

While a command is run, the used blocks of the heap are those of its tokens, `MAX_ARGS` at most,
and those of the files, `MAX_FILES` at most, and none is much larger than a file
(`ShellInv`). So there is always room for another one: `ShellInv.kmalloc_ne_null`. The calls of a
command and the freeing of its tokens keep this, and between two lines there are no tokens left
(`ShellInv.shellParseCommand`).
-/

namespace Fru1tOs

open Lib

/-- The largest payload of a used block: that of a file, with what is too small to be cut off. -/
abbrev maxPayload : ℕ := maxFilesize + 12

/-- The invariant of the shell, while the tokens `args` are in the heap. -/
structure ShellInv (L : FsLayout) (s : Heap) (args : List ℕ) (bs : List Block)
    (slots : Fin maxFiles → Option Slot) : Prop where
  fs : FsInv L ⟨s, args⟩ bs slots
  compact : Compact maxPayload bs

/-- The tokens are strings, within used blocks. -/
def HoldsWords (L : FsLayout) (m : Mem) (bs : List Block) (args : List ℕ) (ws : List (List UInt8)) :
    Prop :=
  List.Forall₂ (fun p w => StoresStr m p w ∧ ∃ n, w.length + 1 ≤ n ∧ (p, n) ∈ usedAt L.heap bs)
    args ws

theorem Command.name_ne_zero (c : Command) : ∀ x ∈ c.name, x ≠ 0 := by
  cases c <;> decide +kernel

theorem loadStr_eq {m : Mem} {a : ℕ} {w : List UInt8} (h : StoresStr m a w) (hw : ∀ c ∈ w, c ≠ 0)
    (hlen : w.length < shellBufferSize) : loadStr m a = w := h.takeWhile hw hlen

theorem fileArg_take (ws : List (List UInt8)) : fileArg (ws.take maxArgs) = fileArg ws := by
  match ws with
  | [] => rfl
  | [_] => rfl
  | [_, _] => rfl
  | _ :: _ :: _ :: _ => simp [fileArg]

theorem roundUp_le {size : ℕ} (h : size ≤ maxFilesize) : roundUp size ≤ maxFilesize := by
  simp only [maxFilesize] at h ⊢
  rw [roundUp]
  omega

/-- A call keeps the blocks compact, if what is allocated is not larger than a file. -/
theorem FsInv.compact_step {L : FsLayout} {s : FsRun} {bs : List Block}
    {slots : Fin maxFiles → Option Slot} (h : FsInv L s bs slots) (hc : Compact maxPayload bs)
    {c : FsCall} (hsize : ∀ n, c = .other (.kmalloc n) → n.toNat ≤ maxFilesize) :
    Compact maxPayload (FsShape.step L ⟨bs, slots⟩ c).blocks := by
  cases c with
  | create name size =>
    rw [FsShape.step, FsShape.create]
    split_ifs with hfail
    · exact hc
    · simp only [not_or, not_lt] at hfail
      split
      · next halloc =>
        exact hc.allocBlocks halloc (Nat.add_le_add_right (roundUp_le hfail.2.1) 12)
      · exact hc
  | delete name =>
    rw [FsShape.step, FsShape.delete]
    split
    · exact hc
    · next i hfind =>
      split
      · exact hc
      · next f hf =>
        -- The data are a used block, which is freed.
        have hmem : f.data ∈ (usedAt L.heap bs).map Prod.fst :=
          h.heap.mem_used.2 (List.mem_append_right _ (mem_dataPtrs.2 ⟨i, f, hf, rfl⟩))
        have := hc.blockStep (L := L.toHeapLayout) (.kfree f.data) (by simp)
        rwa [blockStep, if_pos hmem] at this
  | other c =>
    rw [FsShape.step, FsShape.other]
    split_ifs
    · exact hc
    · exact hc.blockStep c fun n hn => Nat.add_le_add_right (roundUp_le (hsize n (by rw [hn]))) 12
  | write name data => exact hc
  | read name size => exact hc
  | «exists» name => exact hc

namespace ShellInv

variable {L : FsLayout} {s : Heap} {args : List ℕ} {bs : List Block}
  {slots : Fin maxFiles → Option Slot}

/-- There is room for one more token, or one more file, also when something is written out of the
    heap before. -/
theorem kmalloc_ne_null (h : ShellInv L s args bs slots) (hargs : args.length ≤ maxArgs) {m' : Mem}
    (hm : ∀ x, L.heap ≤ x → x < L.heapEnd → m' x = s.mem x) {size : ℕ} (h0 : size ≠ 0)
    (hsize : size ≤ maxFilesize) :
    ∃ p s', kmalloc { s with mem := m' } size = some (p, s') ∧ p ≠ 0 := by
  refine (h.fs.heap.congr hm (List.Perm.refl _)).kmalloc_ne_null h.compact h0 ?_
  have hfiles := length_dataPtrs_le slots
  have hround := roundUp_le hsize
  -- At most 42 pointers are live, and 44 blocks are free.
  have hlive : (args ++ dataPtrs slots).length ≤ 42 := by
    simp only [maxArgs, maxFiles] at hargs hfiles
    rw [List.length_append]
    omega
  simp only [maxPayload, maxFilesize] at hround ⊢
  calc (args ++ dataPtrs slots).length * (12 + (1024 + 12)) +
        ((args ++ dataPtrs slots).length + 2) * (12 + roundUp size)
      ≤ 42 * (12 + (1024 + 12)) + (42 + 2) * (12 + 1024) := by gcongr
    _ < heapSize := by decide

/-- Copying a token keeps the files, and the other tokens. -/
theorem storesWords (L : FsLayout) (slots : Fin maxFiles → Option Slot) :
    StoresWords maxArgs fun s args ws =>
      ∃ bs, ShellInv L s args bs slots ∧ HoldsWords L s.mem bs args ws := by
  rintro t ws ⟨bs, h, hwords⟩ hargs hlen -
  have hsize : t.token.length + 1 ≤ maxFilesize := by
    simp only [maxFilesize, shellBufferSize] at hlen ⊢
    omega
  obtain ⟨p₀, s₀, hk, hp₀⟩ := h.kmalloc_ne_null hargs.le (fun _ _ _ => rfl)
    (Nat.succ_ne_zero t.token.length) hsize
  rcases h.fs.heap.copyWord hlen with
    ⟨s', hs'⟩ | ⟨p, s', bs', n, hs', hn, hinv, hstr, hkeeps, hused, halloc⟩
  · -- There is room for the token.
    simp only [copyWord, hk, Option.bind_eq_bind, Option.bind_some, Option.pure_def,
      Option.some_inj, Prod.mk.injEq] at hs'
    exact absurd hs'.1 hp₀
  have hkeep : ∀ u ∈ usedAt L.heap bs, ∀ x, u.1 ≤ x → x < u.1 + u.2 → s'.mem x = t.heap.mem x :=
    fun u hu x hx hx' => hkeeps x (.inr (.inr ⟨u, hu, hx, hx'⟩))
  obtain ⟨hfs, -⟩ := h.fs.of_keeps ⟨s', t.args ++ [p]⟩
    (hinv.congr (fun _ _ _ => rfl) (by rw [List.append_assoc]; exact List.perm_middle))
    (fun x hx => hkeeps x (hx.imp id .inl))
    fun i f hf k hmem => ⟨(hused _).2 (.inr hmem), hkeep (f.data, k) hmem⟩
  refine ⟨p, s', ?_, bs',
    ⟨hfs, h.compact.allocBlocks halloc (Nat.add_le_add_right (roundUp_le hsize) 12)⟩,
    List.rel_append ?_ (.cons ⟨hstr, n, hn, (hused _).2 (.inl rfl)⟩ .nil)⟩
  · rw [storeToken_eq hlen, hs']
    rfl
  · refine hwords.imp ?_
    rintro q w ⟨hstr, k, hwk, hmem⟩
    refine ⟨hstr.congr fun x hx hx' => ?_, k, hwk, ?_⟩
    · exact hkeep (q, k) hmem x hx (by simp only; omega)
    · exact (hused _).2 (.inr hmem)

/-- There is room for the words of a line. -/
theorem kmallocSucceeds {ws₀ ws : List (List UInt8)} (h : ShellInv L s args bs slots)
    (hwords : HoldsWords L s.mem bs args ws₀) (hargs : args.length + ws.length ≤ maxArgs)
    (hws : ∀ w ∈ ws, w.length < shellBufferSize ∧ ∀ c ∈ w, c ≠ 0) : KmallocSucceeds s ws := by
  induction ws generalizing s args bs ws₀ with
  | nil => trivial
  | cons w ws ih =>
    rw [List.length_cons] at hargs
    obtain ⟨hlen, hne⟩ := hws w List.mem_cons_self
    intro arg s' hs'
    obtain ⟨p, s₁, hstore, bs', h', hwords'⟩ :=
      storesWords L slots ⟨s, args, none, w⟩ ws₀ ⟨bs, h, hwords⟩ (by simp only; omega) hlen hne
    rw [storeToken_eq hlen, hs', Option.map_some, Option.some_inj] at hstore
    simp only [Tokens.mk.injEq, List.append_cancel_left_eq, List.cons.injEq, and_true] at hstore
    obtain ⟨rfl, rfl⟩ := hstore
    refine ⟨h'.fs.heap.ne_zero_of_live (List.mem_append_left _ (by simp)), ih h' hwords' ?_
      fun w' hw' => hws w' (List.mem_cons_of_mem _ hw')⟩
    simp only [List.length_append, List.length_singleton]
    omega

/-- The command that creates a file. -/
theorem cmdCreate (h : ShellInv L s args bs slots) (filename : FileName) (sizeStr : List UInt8)
    (running : Bool) : ∃ s' bs' slots',
      Fru1tOs.cmdCreate L ⟨s, running⟩ filename sizeStr = some ⟨s', running⟩ ∧
      ShellInv L s' args bs' slots' := by
  rw [Fru1tOs.cmdCreate]
  split_ifs with hsize
  · exact ⟨s, bs, slots, rfl, h⟩
  · set size := UInt32.ofNat (strToInt sizeStr).toNat with hdef
    have htoNat : size.toNat = (strToInt sizeStr).toNat := by
      simp only [maxFilesize] at hsize
      exact UInt32.toNat_ofNat_of_lt' (by simp only [UInt32.size]; omega)
    obtain ⟨r, s', hs', h', -⟩ := h.fs.create filename size
    rw [FsRun.call, htoNat] at hs'
    obtain ⟨⟨r₀, heap⟩, hcreate, hret⟩ := Option.bind_eq_some_iff.1 hs'
    obtain ⟨-, rfl⟩ := Prod.mk.inj (Option.some.inj hret)
    refine ⟨heap, _, _, ?_, h', h.fs.compact_step h.compact (by simp)⟩
    simp only at hcreate
    rw [hcreate]
    rfl

/-- The command that deletes a file. -/
theorem cmdDelete (h : ShellInv L s args bs slots) (filename : FileName) (running : Bool) :
    ∃ s' bs' slots', Fru1tOs.cmdDelete L ⟨s, running⟩ filename = some ⟨s', running⟩ ∧
      ShellInv L s' args bs' slots' := by
  obtain ⟨r, s', hs', h', -⟩ := h.fs.delete filename
  obtain ⟨⟨r₀, heap⟩, hdelete, hret⟩ := Option.bind_eq_some_iff.1 hs'
  obtain ⟨-, rfl⟩ := Prod.mk.inj (Option.some.inj hret)
  refine ⟨heap, _, _, ?_, h', h.fs.compact_step h.compact (by simp)⟩
  simp only at hdelete
  rw [Fru1tOs.cmdDelete, hdelete]
  rfl

/-- The freeing of the tokens. -/
theorem foldlM_kfree (h : ShellInv L s args bs slots) :
    ∃ s' bs', args.foldlM kfree s = some s' ∧ ShellInv L s' [] bs' slots := by
  induction args generalizing s bs with
  | nil => exact ⟨s, bs, rfl, h⟩
  | cons p args ih =>
    obtain ⟨r, s', hs', h', -⟩ := h.fs.other (.kfree p)
    obtain ⟨t, ht, hret⟩ := Option.bind_eq_some_iff.1 hs'
    obtain ⟨-, rfl⟩ := Prod.mk.inj (Option.some.inj hret)
    rw [HeapRun.call, if_pos (.inr List.mem_cons_self)] at ht
    obtain ⟨heap, hk, hret⟩ := Option.bind_eq_some_iff.1 ht
    obtain rfl := Option.some.inj hret
    have hcompact := h.fs.compact_step (c := .other (.kfree p)) h.compact (by simp)
    simp only [List.erase_cons_head, FsShape.step_other_slots] at h' hk
    obtain ⟨s', bs', hrun, hinv⟩ := ih ⟨h', hcompact⟩
    refine ⟨s', bs', ?_, hinv⟩
    rw [List.foldlM_cons, hk]
    exact hrun

/-- A command, given the words of the line. -/
theorem shellExecuteCommand {cmd : ℕ} {rest : List ℕ} {ws : List (List UInt8)}
    (h : ShellInv L s (cmd :: rest) bs slots) (hwords : HoldsWords L s.mem bs (cmd :: rest) ws)
    (hws : ∀ w ∈ ws, (∀ c ∈ w, c ≠ 0) ∧ w.length < shellBufferSize)
    (hfile : ∀ filename ∈ fileArg ws, filename.length < maxFilename) (running : Bool) :
    ∃ s' running' bs' slots',
      Fru1tOs.shellExecuteCommand L ⟨s, running⟩ cmd (cmd :: rest) = some ⟨s', running'⟩ ∧
      ShellInv L s' (cmd :: rest) bs' slots' := by
  have hname : ∀ {c : Command},
      (Command.all.find? fun c => strcmp s.mem cmd c.name = 0) = some c → ws.head? = some c.name :=
    fun {c} hfind => by
      obtain ⟨w, ws', hcmd, -, rfl⟩ := List.forall₂_cons_left_iff.1 hwords
      have hcmp := List.find?_some hfind
      rw [decide_eq_true_iff,
        hcmd.1.strcmp_eq_zero (hws w List.mem_cons_self).1 c.name_ne_zero] at hcmp
      rw [hcmp, List.head?_cons]
  unfold Fru1tOs.shellExecuteCommand
  split
  · next hfind =>
    split
    · next cmd' filename sizeStr rest' hargs =>
      obtain ⟨rfl, rfl⟩ := List.cons.inj hargs
      obtain ⟨w, ws₁, -, hwords₁, rfl⟩ := List.forall₂_cons_left_iff.1 hwords
      obtain ⟨name, ws₂, hstr, hwords₂, rfl⟩ := List.forall₂_cons_left_iff.1 hwords₁
      obtain ⟨size, ws₃, -, -, rfl⟩ := List.forall₂_cons_left_iff.1 hwords₂
      have hw : w = Command.create.name := Option.some.inj (hname hfind)
      obtain ⟨hne, hlen⟩ := hws name (by simp)
      rw [loadStr_eq hstr.1 hne hlen]
      obtain ⟨s', bs', slots', hrun, h'⟩ := h.cmdCreate
        ⟨name, hne, hfile name (by simp [fileArg, hw])⟩ (loadStr s.mem sizeStr) running
      exact ⟨s', running, bs', slots', hrun, h'⟩
    · exact ⟨s, running, bs, slots, rfl, h⟩
  · next hfind =>
    split
    · next cmd' filename rest' hargs =>
      obtain ⟨rfl, rfl⟩ := List.cons.inj hargs
      obtain ⟨w, ws₁, -, hwords₁, rfl⟩ := List.forall₂_cons_left_iff.1 hwords
      obtain ⟨name, ws₂, hstr, -, rfl⟩ := List.forall₂_cons_left_iff.1 hwords₁
      have hw : w = Command.delete.name := Option.some.inj (hname hfind)
      obtain ⟨hne, hlen⟩ := hws name (by simp)
      rw [loadStr_eq hstr.1 hne hlen]
      obtain ⟨s', bs', slots', hrun, h'⟩ := h.cmdDelete
        ⟨name, hne, hfile name (by simp [fileArg, hw])⟩ running
      exact ⟨s', running, bs', slots', hrun, h'⟩
    · exact ⟨s, running, bs, slots, rfl, h⟩
  · exact ⟨s, false, bs, slots, rfl, h⟩
  · exact ⟨s, running, bs, slots, rfl, h⟩

/-- The words of a line are copied. -/
theorem shellTokenize (h : ShellInv L s [] bs slots) (line : ShellLine) :
    ∃ args s₁ bs₁, Fru1tOs.shellTokenize s line maxArgs = some (args, s₁) ∧
      ShellInv L s₁ args bs₁ slots ∧
      HoldsWords L s₁.mem bs₁ args ((words line).take maxArgs) ∧ args.length ≤ maxArgs := by
  obtain ⟨args, s₁, hrun, bs₁, h₁, hwords⟩ :=
    shellTokenize_spec (storesWords L slots) ⟨bs, h, .nil⟩ line.2.1 line.2.2.1
  refine ⟨args, s₁, bs₁, hrun, h₁, hwords, ?_⟩
  rw [hwords.length_eq]
  exact List.length_take_le _ _

/-- A line is read and run, and its tokens are freed. -/
theorem shellParseCommand (h : ShellInv L s [] bs slots) (running : Bool) (line : ShellLine) :
    ∃ s' running' bs' slots',
      Fru1tOs.shellParseCommand L ⟨s, running⟩ line = some ⟨s', running'⟩ ∧
      ShellInv L s' [] bs' slots' := by
  obtain ⟨args, s₁, bs₁, htok, h₁, hwords, -⟩ := h.shellTokenize line
  rw [Fru1tOs.shellParseCommand, htok]
  cases args with
  | nil => exact ⟨s₁, running, bs₁, slots, rfl, h₁⟩
  | cons cmd rest =>
    have hws : ∀ w ∈ (words line).take maxArgs, (∀ c ∈ w, c ≠ 0) ∧ w.length < shellBufferSize :=
      fun w hw => by
        obtain ⟨hlen, hmem⟩ := mem_of_mem_wordsFrom (List.mem_of_mem_take hw)
        refine ⟨fun c hc => line.2.1 c ((hmem c hc).resolve_left List.not_mem_nil), ?_⟩
        rw [List.length_nil, Nat.zero_add] at hlen
        exact hlen.trans_lt line.2.2.1
    obtain ⟨s₂, running', bs₂, slots', hexec, h₂⟩ := h₁.shellExecuteCommand hwords hws
      (by rw [fileArg_take]; exact line.2.2.2) running
    obtain ⟨s₃, bs₃, hfree, h₃⟩ := h₂.foldlM_kfree
    refine ⟨s₃, running', bs₃, slots', ?_, h₃⟩
    simp only [Option.bind_eq_bind, Option.bind_some, Option.pure_def, hexec, hfree]

end ShellInv

/-- The invariant after `memory_init`, `fs_init` and `shell_init`. -/
theorem shellInv_init (L : FsLayout) (s₀ : Heap) :
    ShellInv L (Shell.init L s₀).heap [] [⟨heapSize - 12, true⟩] fun _ => none := by
  refine ⟨fsInv_init L s₀, by decide, fun b hb hused => ?_⟩
  rw [List.mem_singleton.1 hb] at hused
  cases hused

/-- In every run of the shell, `kmalloc` does not return `NULL` for any token of a line, nor for
    the data of a file that a command creates. -/
theorem shell_never_out_of_heap (L : FsLayout) (s₀ : Heap) (lines : List ShellLine) :
    ∃ s, run (fun s (line : ShellLine) => shellParseCommand L s line) (Shell.init L s₀) lines =
        some s ∧
      ∀ line : ShellLine, ∃ args s₁, shellTokenize s.heap line maxArgs = some (args, s₁) ∧
        (∀ arg ∈ args, arg ≠ 0) ∧
        ∀ (filename : FileName) (size : ℕ) (i : Fin maxFiles), 0 < size → size ≤ maxFilesize →
          ∃ data s₂, kmalloc { s₁ with mem := strcpy s₁.mem (L.file i) filename } size =
            some (data, s₂) ∧ data ≠ 0 := by
  have hstep : ∀ (s : Shell) (line : ShellLine), (∃ bs slots, ShellInv L s.heap [] bs slots) →
      ∃ s', shellParseCommand L s line = some s' ∧ ∃ bs slots, ShellInv L s'.heap [] bs slots :=
    fun s line ⟨bs, slots, h⟩ => by
      obtain ⟨s', running', bs', slots', hs', h'⟩ := h.shellParseCommand s.running line
      exact ⟨_, hs', bs', slots', h'⟩
  obtain ⟨s, hs, bs, slots, h⟩ := run_of_invariant hstep ⟨_, _, shellInv_init L s₀⟩ lines
  refine ⟨s, hs, fun line => ?_⟩
  obtain ⟨args, s₁, bs₁, htok, h₁, -, hargs⟩ := h.shellTokenize line
  refine ⟨args, s₁, htok, fun arg harg => ?_, fun filename size i hpos hmax => ?_⟩
  · exact h₁.fs.heap.ne_zero_of_live (List.mem_append_left _ harg)
  · -- The name is copied in the table, which is not in the heap.
    exact h₁.kmalloc_ne_null hargs (fun x hx hx' => strcpy_of_heap filename hx hx') hpos.ne' hmax

end Fru1tOs
