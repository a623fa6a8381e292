import Fru1tOs.Common.Scan

/-!
# What is emitted

The text that a format and its arguments stand for (`render`), piece by piece: the numeral of a
number, the eight hexadecimal digits of a word, the characters of a string. A conversion that is not
known emits nothing, and takes no argument. `printf` emits this text for every format that is not
cut off (`printf_render`), the hexadecimal digits standing for the word (`readHex_printHex`).
-/

namespace Fru1tOs

open Lib

/-! ## Hexadecimal digits -/

/-- The number of a hexadecimal digit. -/
def hexValue (c : UInt8) : ℕ := if IsDigit c then digitValue c else c.toNat - 87

/-- The number that a string of hexadecimal digits stands for. -/
def readHex (l : List UInt8) : ℕ := l.foldl (fun n c => n * 16 + hexValue c) 0

theorem hexValue_getD {d : ℕ} (h : d < 16) :
    hexValue ((chars "0123456789abcdef").getD d 0) = d := by
  interval_cases d <;> decide +kernel

/-- The digits of a word stand for it. -/
theorem readHex_printHex (v : BitVec 32) : readHex (printHex v) = v.toNat := by
  have hnibble : ∀ i, hexValue ((chars "0123456789abcdef").getD
      ((v >>> (i * 4)) &&& 0xf).toNat 0) = v.toNat / 2 ^ (i * 4) % 16 := fun i => by
    have hand : ((v >>> (i * 4)) &&& 0xf).toNat = v.toNat / 2 ^ (i * 4) % 16 := by
      rw [BitVec.toNat_and, BitVec.toNat_ushiftRight, Nat.shiftRight_eq_div_pow]
      exact Nat.and_two_pow_sub_one_eq_mod _ 4
    rw [hexValue_getD (by omega), hand]
  have hlt := v.isLt
  simp only [readHex, printHex, List.range_succ, List.range_zero, List.nil_append,
    List.cons_append, List.reverse_cons, List.reverse_nil, List.map_cons, List.map_nil,
    List.foldl_cons, List.foldl_nil, hnibble]
  omega

/-! ## The text of a format -/

/-- What a piece emits that takes no argument. -/
def Piece.plain : Piece → List UInt8
  | .lit c => [c]
  | .conv cs => if cs = [] ∨ cs = [ascii '%'] then [ascii '%'] else []

/-- What a conversion emits for its argument, by its last character. -/
def Piece.text : Piece → VaArg → List UInt8
  | .lit _, _ => []
  | .conv cs, .word v =>
    if cs.getLast? = ascii 'd' then intNumeral v.toInt
    else if cs.getLast? = ascii 'u' then numeral v.toNat
    else if cs.getLast? = ascii 'x' then printHex v
    else chars "0x" ++ printHex v
  | .conv cs, .dword v =>
    if cs.getLast? = ascii 'd' then intNumeral v.toInt else numeral v.toNat
  | .conv _, .str s => s

/-- The text of the pieces with the arguments. -/
def render : List Piece → List VaArg → List UInt8
  | [], _ => []
  | p :: ps, args =>
    match p.kind, args with
    | none, args => p.plain ++ render ps args
    | some _, [] => []
    | some _, a :: args => p.text a ++ render ps args

theorem render_none {p : Piece} (h : p.kind = none) (ps : List Piece) (args : List VaArg) :
    render (p :: ps) args = p.plain ++ render ps args := by
  simp only [render, h]

theorem render_some {p : Piece} {k : ArgKind} (h : p.kind = some k) (ps : List Piece) (a : VaArg)
    (args : List VaArg) : render (p :: ps) (a :: args) = p.text a ++ render ps args := by
  simp only [render, h]

/-! ## Conversions -/

/-- The computation leaves the cursor at `fmt`, emits the text of the first piece, and leaves enough
    arguments for the others. -/
def Renders (x : Option Printf) (fmt : Option (List UInt8)) (out : List UInt8) (args : List VaArg)
    (p : Piece) (ps : List Piece) : Prop :=
  ∃ l args', x = some ⟨fmt, args', out ++ l⟩ ∧ Enough ps args' ∧
    render (p :: ps) args = l ++ render ps args'

section Convert

variable {fuel : ℕ} {fmt : Option (List UInt8)} {rest : List UInt8} {args : List VaArg}
  {out : List UInt8} {p : Piece} {ps : List Piece}

theorem renders_none (h : Enough (p :: ps) args) (hp : p.kind = none) (hplain : p.plain = []) :
    Renders (some ⟨fmt, args, out⟩) fmt out args p ps :=
  ⟨[], args, by rw [List.append_nil], h.of_none hp, by rw [render_none hp, hplain]⟩

theorem renders_word {f : BitVec 32 → Option (List UInt8)} (hf : ∀ v, f v = some (p.text (.word v)))
    (h : Enough (p :: ps) args) (hp : p.kind = some .word) :
    Renders (Printf.word ⟨fmt, args, out⟩ f) fmt out args p ps := by
  obtain ⟨a, args, rfl, ha, hrest⟩ := h.of_some hp
  cases a with
  | word v => exact ⟨_, args, Printf.word_cons (hf v) _ _ _, hrest, render_some hp _ _ _⟩
  | dword v => cases ha
  | str s => cases ha

theorem renders_dword {f : BitVec 64 → Option (List UInt8)}
    (hf : ∀ v, f v = some (p.text (.dword v))) (h : Enough (p :: ps) args)
    (hp : p.kind = some .dword) : Renders (Printf.dword ⟨fmt, args, out⟩ f) fmt out args p ps := by
  obtain ⟨a, args, rfl, ha, hrest⟩ := h.of_some hp
  cases a with
  | dword v => exact ⟨_, args, Printf.dword_cons (hf v) _ _ _, hrest, render_some hp _ _ _⟩
  | word v => cases ha
  | str s => cases ha

/-- A function that writes numerals writes the numeral of an unsigned value, and of a signed one. -/
theorem WritesNumerals.eq {w : ℕ} {digits : ℕ → Option (List UInt8)} (h : WritesNumerals w digits)
    (v : BitVec w) : digits v.toNat = some (numeral v.toNat) ∧
      printSigned digits v = some (intNumeral v.toInt) := by
  obtain ⟨l, hl, hnum⟩ := h _ v.isLt
  obtain ⟨l', hl', hnum'⟩ := h.signed v
  exact ⟨by rw [hl, hnum.eq_numeral], by rw [hl', hnum'.eq_intNumeral]⟩

/-- The numerals of words. -/
theorem printDivisor_eq (hfuel : 33 < fuel) (v : BitVec 32) :
    printDivisor 32 fuel v.toNat = some (numeral v.toNat) ∧
      printSigned (printDivisor 32 fuel) v = some (intNumeral v.toInt) := by
  have hword : WritesNumerals 32 (printDivisor 32 fuel) := fun n hn => printDivisor_spec hn hfuel
  exact hword.eq v

/-- The numerals of double words. -/
theorem printReversed_eq (hfuel : 33 < fuel) (v : BitVec 64) :
    printReversed fuel v.toNat = some (numeral v.toNat) ∧
      printSigned (printReversed fuel) v = some (intNumeral v.toInt) := by
  have hdword : WritesNumerals 64 (printReversed fuel) := fun n hn =>
    printReversed_spec hn (by omega)
  exact hdword.eq v

/-- A conversion of one character. -/
theorem renders_one {c : UInt8} (hfuel : 33 < fuel) (hl : c ≠ ascii 'l')
    (h : Enough (.conv [c] :: ps) args) :
    Renders (Printf.convert fuel ⟨some (c :: rest), args, out⟩) (some (c :: rest)) out args
      (.conv [c]) ps := by
  simp only [Printf.convert, peek_cons, Option.some_inj]
  split_ifs with hpercent hs hd hx hu hp
  · subst hpercent
    exact ⟨[ascii '%'], args, rfl, h.of_none (by decide), render_none (by decide) _ _⟩
  · subst hs
    obtain ⟨a, args, rfl, ha, hrest⟩ := h.of_some (k := .str) (by decide)
    cases a with
    | str l => exact ⟨l, args, rfl, hrest, render_some (k := .str) (by decide) _ _ _⟩
    | word v => cases ha
    | dword v => cases ha
  · subst hd
    exact renders_word (fun v => (printDivisor_eq hfuel v).2) h (by decide)
  · subst hx
    exact renders_word (fun v => rfl) h (by decide)
  · subst hu
    exact renders_word (fun v => (printDivisor_eq hfuel v).1) h (by decide)
  · subst hp
    exact renders_word (fun v => rfl) h (by decide)
  · exact renders_none h (by simp [Piece.kind, hs, hd, hx, hu, hp])
      (by simp [Piece.plain, hpercent])

/-- A conversion of `l` and another character. -/
theorem renders_two {c : UInt8} (hfuel : 33 < fuel) (hl : c ≠ ascii 'l')
    (h : Enough (.conv [ascii 'l', c] :: ps) args) :
    Renders (Printf.convert fuel ⟨some (ascii 'l' :: c :: rest), args, out⟩) (some (c :: rest))
      out args (.conv [ascii 'l', c]) ps := by
  rw [convert_long]
  simp only [Printf.long, Printf.next_mk, advance_cons, peek_cons, Option.some_inj, if_neg hl]
  split_ifs with hu hd
  · subst hu
    exact renders_word (fun v => (printDivisor_eq hfuel v).1) h (by decide)
  · subst hd
    exact renders_word (fun v => (printDivisor_eq hfuel v).2) h (by decide)
  · exact renders_none h (by simp [Piece.kind, hu, hd]) rfl

/-- A conversion of `ll` and another character. -/
theorem renders_three {c : UInt8} (hfuel : 33 < fuel)
    (h : Enough (.conv [ascii 'l', ascii 'l', c] :: ps) args) :
    Renders (Printf.convert fuel ⟨some (ascii 'l' :: ascii 'l' :: c :: rest), args, out⟩)
      (some (c :: rest)) out args (.conv [ascii 'l', ascii 'l', c]) ps := by
  rw [convert_long]
  simp only [Printf.long, Printf.next_mk, advance_cons, peek_cons, Option.some_inj, if_true]
  split_ifs with hu hd
  · subst hu
    exact renders_dword (fun v => (printReversed_eq hfuel v).1) h (by decide)
  · subst hd
    exact renders_dword (fun v => (printReversed_eq hfuel v).2) h (by decide)
  · exact renders_none h (by simp [Piece.kind, hu, hd]) rfl

end Convert

/-! ## The loop -/

section Loop

variable {fuel n : ℕ} {fmt : List UInt8} {args : List VaArg} {out : List UInt8}

/-- A pass at a format that is not cut off emits the text of its first piece, and leaves the others,
    unless that is a percent sign at its end. -/
structure PassRenders (fuel : ℕ) (fmt : List UInt8) (args : List VaArg) (out : List UInt8)
    (rest l : List UInt8) (args' : List VaArg) : Prop where
  pass : Printf.pass fuel ⟨some fmt, args, out⟩ = some (.next ⟨some rest, args', out ++ l⟩)
  shorter : rest.length < fmt.length
  sub : ∀ c ∈ rest, c ∈ fmt
  cut : CutShort rest → CutShort fmt
  enough : Enough (pieces rest) args'
  text : render (pieces fmt) args = l ++ render (pieces rest) args'

theorem CutShort.of_cons {rest : List UInt8} {p : Piece} (h : CutShort rest)
    (hp : pieces fmt = p :: pieces rest) : CutShort fmt := by
  rw [CutShort, hp]
  exact h.imp (List.mem_cons_of_mem p) (List.mem_cons_of_mem p)

/-- A pass at a conversion. -/
theorem Renders.pass {c d : UInt8} {fmt rest cs : List UInt8} (hc : c ≠ 0)
    (hpieces : pieces (ascii '%' :: c :: fmt) = .conv cs :: pieces rest)
    (hrest : rest.length ≤ fmt.length) (hsub : ∀ x ∈ rest, x ∈ fmt)
    (h : Renders (Printf.convert fuel ⟨some (c :: fmt), args, out⟩) (some (d :: rest)) out args
      (.conv cs) (pieces rest)) :
    ∃ l args', PassRenders fuel (ascii '%' :: c :: fmt) args out rest l args' := by
  obtain ⟨l, args', hx, henough, htext⟩ := h
  refine ⟨l, args', ?_, ?_, fun x hx => ?_, fun hcut => hcut.of_cons hpieces, henough, ?_⟩
  · rw [Printf.pass_percent hc, hx]
    rfl
  · simp only [List.length_cons]
    omega
  · simp [hsub x hx]
  · rw [hpieces, htext]

/-- Every pass emits the text of a piece. -/
theorem exists_passRenders (hfuel : 33 < fuel) (hnul : ∀ c ∈ fmt, c ≠ 0)
    (hargs : Enough (pieces fmt) args) (hcut : ¬ CutShort fmt) (hne : fmt ≠ [])
    (hpercent : fmt ≠ [ascii '%']) (out : List UInt8) :
    ∃ rest l args', PassRenders fuel fmt args out rest l args' := by
  rcases fmt with _ | ⟨c, fmt⟩
  · exact absurd rfl hne
  have hc := hnul c List.mem_cons_self
  by_cases hlit : c = ascii '%'
  swap
  · have hpieces : pieces (c :: fmt) = .lit c :: pieces fmt := if_neg hlit
    rw [hpieces] at hargs
    exact ⟨fmt, [c], args, Printf.pass_char hc hlit, by simp,
      fun d hd => List.mem_cons_of_mem _ hd, fun h => h.of_cons hpieces, hargs.of_none rfl,
      by rw [hpieces, render_none rfl]; rfl⟩
  subst hlit
  rcases fmt with _ | ⟨c, fmt⟩
  · exact absurd rfl hpercent
  have hc := hnul c (by simp)
  by_cases hl : c = ascii 'l'
  swap
  · have hpieces : pieces (ascii '%' :: c :: fmt) = .conv [c] :: pieces fmt := by
      simp [pieces, piecesFrom, hl]
    rw [hpieces] at hargs
    exact ⟨fmt, (renders_one hfuel hl hargs).pass hc hpieces le_rfl fun x hx => hx⟩
  subst hl
  rcases fmt with _ | ⟨c₂, fmt⟩
  · exact absurd (by decide) hcut
  by_cases hl₂ : c₂ = ascii 'l'
  swap
  · have hpieces : pieces (ascii '%' :: ascii 'l' :: c₂ :: fmt) =
        .conv [ascii 'l', c₂] :: pieces fmt := by simp [pieces, piecesFrom, hl₂]
    rw [hpieces] at hargs
    exact ⟨fmt, (renders_two hfuel hl₂ hargs).pass hc hpieces (by simp) fun x hx => by simp [hx]⟩
  subst hl₂
  rcases fmt with _ | ⟨c₃, fmt⟩
  · exact absurd (by decide) hcut
  have hpieces : pieces (ascii '%' :: ascii 'l' :: ascii 'l' :: c₃ :: fmt) =
      .conv [ascii 'l', ascii 'l', c₃] :: pieces fmt := by simp [pieces, piecesFrom]
  rw [hpieces] at hargs
  exact ⟨fmt, (renders_three hfuel hargs).pass hc hpieces (by simp; omega) fun x hx => by simp [hx]⟩

/-- The loop emits the text of the pieces. -/
theorem render_loop (hfuel : 33 < fuel) (hnul : ∀ c ∈ fmt, c ≠ 0) (hargs : Enough (pieces fmt) args)
    (hcut : ¬ CutShort fmt) (hn : fmt.length < n) :
    loop (Printf.pass fuel) n ⟨some fmt, args, out⟩ =
      some (.stops (out ++ render (pieces fmt) args)) := by
  obtain ⟨n, rfl⟩ : ∃ m, n = m + 1 := ⟨n - 1, by omega⟩
  induction n generalizing fmt args out with
  | zero =>
    obtain rfl : fmt = [] := List.eq_nil_of_length_eq_zero (by omega)
    rw [show render (pieces []) args = [] from rfl, List.append_nil]
    rfl
  | succ n ih =>
    by_cases hne : fmt = []
    · subst hne
      rw [show render (pieces []) args = [] from rfl, List.append_nil]
      rfl
    by_cases hpercent : fmt = [ascii '%']
    · subst hpercent
      rfl
    obtain ⟨rest, l, args', h⟩ := exists_passRenders hfuel hnul hargs hcut hne hpercent out
    rw [loop_next h.pass, ih (fun c hc => hnul c (h.sub c hc)) h.enough (fun hc => hcut (h.cut hc))
      (by have := h.shorter; omega), h.text, List.append_assoc]

end Loop

/-- `printf` emits the text of the format with its arguments, and the hexadecimal digits in it stand
    for their words. -/
theorem printf_render (fuel : ℕ) {fmt : List UInt8} {args : List VaArg} (hnul : ∀ c ∈ fmt, c ≠ 0)
    (hargs : Enough (pieces fmt) args) (hcut : ¬ CutShort fmt) :
    printf (fmt.length + fuel + 34) fmt args = some (.stops (render (pieces fmt) args)) ∧
      ∀ v, readHex (printHex v) = v.toNat :=
  ⟨render_loop (by omega) hnul hargs hcut (by omega), readHex_printHex⟩

/-- A number, a string and an address. -/
theorem printf_render_address :
    printf ((chars "%d %s%p").length + 0 + 34) (chars "%d %s%p")
        [.word 7, .str (chars "at"), .word 255] =
      some (.stops (render (pieces (chars "%d %s%p")) [.word 7, .str (chars "at"), .word 255])) ∧
      ∀ v, readHex (printHex v) = v.toNat :=
  printf_render 0 (by decide +kernel) (by decide +kernel) (by decide +kernel)

/-! ## The formats of the source -/

/-- The text of a format of the source. -/
def text (fmt : String) (args : List VaArg) : List UInt8 := render (pieces (chars fmt)) args

/-- A call of `printf` with a format of the source, and what it emits. -/
def say (fmt : String) (args : List VaArg) : Option (List UInt8) :=
  match printf ((chars fmt).length + 34) (chars fmt) args with
  | some (.stops out) => some out
  | _ => none

/-- The format is a string that is not cut off, and takes arguments of these sizes. -/
def Takes (fmt : String) (kinds : List ArgKind) : Prop :=
  0 ∉ chars fmt ∧ (pieces (chars fmt)).filterMap Piece.kind <+: kinds ∧ ¬ CutShort (chars fmt)

instance (fmt : String) (kinds : List ArgKind) : Decidable (Takes fmt kinds) :=
  inferInstanceAs (Decidable (_ ∧ _ ∧ _))

/-- What is emitted is the text. -/
theorem say_eq {fmt : String} {args : List VaArg} (h : Takes fmt (args.map VaArg.kind)) :
    say fmt args = some (text fmt args) := by
  have hprintf : printf ((chars fmt).length + 34) (chars fmt) args =
      some (.stops ([] ++ render (pieces (chars fmt)) args)) :=
    render_loop (by omega) (fun _ hc h0 => h.1 (h0 ▸ hc)) h.2.1 h.2.2 (by omega)
  rw [say, hprintf]
  rfl

end Fru1tOs
