import Fru1tOs.Common.Decimal

/-!
# The scan of a format

A format falls into pieces (`pieces`): single characters, and conversions, from a percent sign on up
to a character that is not one of two `l` at most. Every piece is met in turn: a character is
emitted, and a conversion takes its argument, if it has one.

The only way to leave a format other than at its terminator is a conversion that is cut off by it.
After a percent sign, the terminator ends the scan. After `%l` and `%ll` it is taken for the last
character of the conversion, and the cursor goes behind it. So the scan is right exactly for the
formats that are not cut off there (`printf_scan_iff`).
-/

namespace Fru1tOs

open Lib

/-- A piece of a format: a character, or a conversion, without its percent sign. -/
inductive Piece
  | lit (c : UInt8)
  | conv (cs : List UInt8)
  deriving DecidableEq, Repr

/-- The pieces of the rest of a format, in a conversion with the given characters so far, or not in
    one. -/
def piecesFrom : Option (List UInt8) → List UInt8 → List Piece
  | none, [] => []
  | some cs, [] => [.conv cs]
  | none, c :: fmt =>
    if c = ascii '%' then piecesFrom (some []) fmt else .lit c :: piecesFrom none fmt
  | some cs, c :: fmt =>
    if c = ascii 'l' ∧ cs.length < 2 then piecesFrom (some (cs ++ [c])) fmt
    else .conv (cs ++ [c]) :: piecesFrom none fmt

/-- The pieces of a format. -/
def pieces (fmt : List UInt8) : List Piece := piecesFrom none fmt

/-- The format ends in a conversion, after an `l`. -/
def CutShort (fmt : List UInt8) : Prop :=
  .conv [ascii 'l'] ∈ pieces fmt ∨ .conv [ascii 'l', ascii 'l'] ∈ pieces fmt

instance (fmt : List UInt8) : Decidable (CutShort fmt) := inferInstanceAs (Decidable (_ ∨ _))

/-- What is emitted for a piece: a character is emitted as it is. -/
def Piece.Emitted : Piece → List UInt8 → Prop
  | .lit c, out => out = [c]
  | .conv _, _ => True

/-! ## Arguments -/

/-- The sizes of arguments. -/
inductive ArgKind
  | word | dword | str
  deriving DecidableEq, Repr

/-- The size of an argument. -/
def VaArg.kind : VaArg → ArgKind
  | .word _ => .word
  | .dword _ => .dword
  | .str _ => .str

/-- The argument that a conversion takes. -/
def Piece.kind : Piece → Option ArgKind
  | .conv [c] =>
    if c = ascii 's' then some .str
    else if c = ascii 'd' ∨ c = ascii 'x' ∨ c = ascii 'u' ∨ c = ascii 'p' then some .word
    else none
  | .conv [_, c] => if c = ascii 'u' ∨ c = ascii 'd' then some .word else none
  | .conv [_, _, c] => if c = ascii 'u' ∨ c = ascii 'd' then some .dword else none
  | _ => none

/-- The arguments are those that the pieces take, and more. -/
def Enough (ps : List Piece) (args : List VaArg) : Prop :=
  ps.filterMap Piece.kind <+: args.map VaArg.kind

instance (ps : List Piece) (args : List VaArg) : Decidable (Enough ps args) :=
  inferInstanceAs (Decidable (_ <+: _))

/-- The computation leaves the cursor at `fmt`, emits something, and leaves enough arguments. -/
def Converts (x : Option Printf) (fmt : Option (List UInt8)) (out : List UInt8)
    (ps : List Piece) : Prop :=
  ∃ l args, x = some ⟨fmt, args, out ++ l⟩ ∧ Enough ps args

section Convert

variable {fuel : ℕ} {fmt : Option (List UInt8)} {rest : List UInt8} {args : List VaArg}
  {out : List UInt8} {p : Piece} {ps : List Piece}

theorem Enough.of_none (h : Enough (p :: ps) args) (hp : p.kind = none) : Enough ps args := by
  rwa [Enough, List.filterMap_cons_none hp] at h

/-- An argument that a conversion takes is there. -/
theorem Enough.of_some {k : ArgKind} (h : Enough (p :: ps) args) (hp : p.kind = some k) :
    ∃ a args', args = a :: args' ∧ a.kind = k ∧ Enough ps args' := by
  rw [Enough, List.filterMap_cons_some hp] at h
  cases args with
  | nil => exact absurd (List.prefix_nil.1 h) (List.cons_ne_nil _ _)
  | cons a args =>
    obtain ⟨hk, hrest⟩ := List.cons_prefix_cons.1 h
    exact ⟨a, args, rfl, hk.symm, hrest⟩

/-- Nothing is emitted. -/
theorem converts_none (h : Enough (p :: ps) args) (hp : p.kind = none) :
    Converts (some ⟨fmt, args, out⟩) fmt out ps :=
  ⟨[], args, by rw [List.append_nil], h.of_none hp⟩

theorem converts_word {f : BitVec 32 → Option (List UInt8)} (hf : ∀ v, ∃ l, f v = some l)
    (h : Enough (p :: ps) args) (hp : p.kind = some .word) :
    Converts (Printf.word ⟨fmt, args, out⟩ f) fmt out ps := by
  obtain ⟨a, args, rfl, ha, hrest⟩ := h.of_some hp
  cases a with
  | word v =>
    obtain ⟨l, hl⟩ := hf v
    exact ⟨l, args, Printf.word_cons hl _ _ _, hrest⟩
  | dword v => cases ha
  | str s => cases ha

theorem converts_dword {f : BitVec 64 → Option (List UInt8)} (hf : ∀ v, ∃ l, f v = some l)
    (h : Enough (p :: ps) args) (hp : p.kind = some .dword) :
    Converts (Printf.dword ⟨fmt, args, out⟩ f) fmt out ps := by
  obtain ⟨a, args, rfl, ha, hrest⟩ := h.of_some hp
  cases a with
  | dword v =>
    obtain ⟨l, hl⟩ := hf v
    exact ⟨l, args, Printf.dword_cons hl _ _ _, hrest⟩
  | word v => cases ha
  | str s => cases ha

/-- The conversions of words are emitted. -/
theorem exists_printDivisor (hfuel : 33 < fuel) (v : BitVec 32) :
    (∃ l, printDivisor 32 fuel v.toNat = some l) ∧
      ∃ l, printSigned (printDivisor 32 fuel) v = some l := by
  have hword : WritesNumerals 32 (printDivisor 32 fuel) := fun n hn => printDivisor_spec hn hfuel
  exact ⟨(hword.unsigned v).imp fun l hl => hl.1, (hword.signed v).imp fun l hl => hl.1⟩

/-- The conversions of double words are emitted. -/
theorem exists_printReversed (hfuel : 33 < fuel) (v : BitVec 64) :
    (∃ l, printReversed fuel v.toNat = some l) ∧
      ∃ l, printSigned (printReversed fuel) v = some l := by
  have hdword : WritesNumerals 64 (printReversed fuel) := fun n hn =>
    printReversed_spec hn (by omega)
  exact ⟨(hdword.unsigned v).imp fun l hl => hl.1, (hdword.signed v).imp fun l hl => hl.1⟩

/-- A conversion of one character. -/
theorem converts_one {c : UInt8} (hfuel : 33 < fuel) (hl : c ≠ ascii 'l')
    (h : Enough (.conv [c] :: ps) args) :
    Converts (Printf.convert fuel ⟨some (c :: rest), args, out⟩) (some (c :: rest)) out ps := by
  simp only [Printf.convert, peek_cons, Option.some_inj]
  split_ifs with hpercent hs hd hx hu hp
  · subst hpercent
    exact ⟨[ascii '%'], args, rfl, h.of_none (by decide)⟩
  · subst hs
    obtain ⟨a, args, rfl, ha, hrest⟩ := h.of_some (k := .str) (by decide)
    cases a with
    | str l => exact ⟨l, args, rfl, hrest⟩
    | word v => cases ha
    | dword v => cases ha
  · exact converts_word (fun v => (exists_printDivisor hfuel v).2) h (by subst hd; decide)
  · exact converts_word (fun v => ⟨_, rfl⟩) h (by subst hx; decide)
  · exact converts_word (fun v => (exists_printDivisor hfuel v).1) h (by subst hu; decide)
  · exact converts_word (fun v => ⟨_, rfl⟩) h (by subst hp; decide)
  · exact converts_none h (by simp [Piece.kind, hs, hd, hx, hu, hp])

/-- The first `l` of a conversion. -/
theorem convert_long (fuel : ℕ) (rest : List UInt8) (args : List VaArg) (out : List UInt8) :
    Printf.convert fuel ⟨some (ascii 'l' :: rest), args, out⟩ =
      Printf.long fuel ⟨some (ascii 'l' :: rest), args, out⟩ := by
  simp [Printf.convert, ascii]

/-- A conversion of `l` and another character. -/
theorem converts_two {c : UInt8} (hfuel : 33 < fuel) (hl : c ≠ ascii 'l')
    (h : Enough (.conv [ascii 'l', c] :: ps) args) :
    Converts (Printf.convert fuel ⟨some (ascii 'l' :: c :: rest), args, out⟩) (some (c :: rest))
      out ps := by
  rw [convert_long]
  simp only [Printf.long, Printf.next_mk, advance_cons, peek_cons, Option.some_inj, if_neg hl]
  split_ifs with hu hd
  · exact converts_word (fun v => (exists_printDivisor hfuel v).1) h (by subst hu; decide)
  · exact converts_word (fun v => (exists_printDivisor hfuel v).2) h (by subst hd; decide)
  · exact converts_none h (by simp [Piece.kind, hu, hd])

/-- A conversion of `ll` and another character. -/
theorem converts_three {c : UInt8} (hfuel : 33 < fuel)
    (h : Enough (.conv [ascii 'l', ascii 'l', c] :: ps) args) :
    Converts (Printf.convert fuel ⟨some (ascii 'l' :: ascii 'l' :: c :: rest), args, out⟩)
      (some (c :: rest)) out ps := by
  rw [convert_long]
  simp only [Printf.long, Printf.next_mk, advance_cons, peek_cons, Option.some_inj, if_true]
  split_ifs with hu hd
  · exact converts_dword (fun v => (exists_printReversed hfuel v).1) h (by subst hu; decide)
  · exact converts_dword (fun v => (exists_printReversed hfuel v).2) h (by subst hd; decide)
  · exact converts_none h (by simp [Piece.kind, hu, hd])

end Convert

/-! ## The loop -/

/-- What a scan gives from here on: it goes behind the terminator if the pieces are cut off, and
    else emits something for each of them, and stops. -/
def ScansTo (x : Option Scan) (out : List UInt8) (ps : List Piece) : Prop :=
  if .conv [ascii 'l'] ∈ ps ∨ .conv [ascii 'l', ascii 'l'] ∈ ps then
    ∃ out', x = some (.overruns out')
  else ∃ outs, x = some (.stops (out ++ outs.flatten)) ∧ List.Forall₂ Piece.Emitted ps outs

section Loop

variable {fuel n : ℕ} {fmt rest : List UInt8} {args : List VaArg} {out : List UInt8} {p : Piece}
  {ps : List Piece}

/-- The first piece, and the others. -/
theorem ScansTo.cons {x : Option Scan} {l : List UInt8} (h : ScansTo x (out ++ l) ps)
    (hl : p ≠ .conv [ascii 'l']) (hll : p ≠ .conv [ascii 'l', ascii 'l']) (hp : p.Emitted l) :
    ScansTo x out (p :: ps) := by
  rw [ScansTo] at h ⊢
  simp only [List.mem_cons, hl.symm, hll.symm, false_or]
  split_ifs at h ⊢ with hcut
  · exact h
  · obtain ⟨outs, hx, houts⟩ := h
    exact ⟨l :: outs, by rw [hx, List.flatten_cons, List.append_assoc], .cons hp houts⟩

/-- The rest of a scan, after a pass at a conversion that is not cut off. -/
theorem ScansTo.of_converts {c d : UInt8} {cs : List UInt8} (hc : c ≠ 0)
    (hconv : Converts (Printf.convert fuel ⟨some (c :: fmt), args, out⟩) (some (d :: rest)) out
      (pieces rest))
    (hl : Piece.conv cs ≠ .conv [ascii 'l']) (hll : Piece.conv cs ≠ .conv [ascii 'l', ascii 'l'])
    (hrest : ∀ args out, Enough (pieces rest) args →
      ScansTo (loop (Printf.pass fuel) n ⟨some rest, args, out⟩) out (pieces rest)) :
    ScansTo (loop (Printf.pass fuel) (n + 1) ⟨some (ascii '%' :: c :: fmt), args, out⟩) out
      (.conv cs :: pieces rest) := by
  obtain ⟨l, args', hx, hargs⟩ := hconv
  rw [loop_next ((Printf.pass_percent hc).trans (by rw [hx]; rfl))]
  exact (hrest args' (out ++ l) hargs).cons hl hll trivial

/-- A pass at a conversion that is cut off. -/
theorem scansTo_of_cut {c : UInt8} (hc : c ≠ 0) (hn : 0 < n)
    (hx : Printf.convert fuel ⟨some (c :: fmt), args, out⟩ = some ⟨some [], args, out⟩)
    (hcut : .conv [ascii 'l'] ∈ ps ∨ .conv [ascii 'l', ascii 'l'] ∈ ps) :
    ScansTo (loop (Printf.pass fuel) (n + 1) ⟨some (ascii '%' :: c :: fmt), args, out⟩) out ps := by
  obtain ⟨n, rfl⟩ : ∃ m, n = m + 1 := ⟨n - 1, by omega⟩
  rw [loop_next ((Printf.pass_percent hc).trans (by rw [hx]; rfl)), ScansTo, if_pos hcut]
  exact ⟨out, loop_done rfl⟩

/-- The loop makes a pass for each piece. -/
theorem scan_loop (hfuel : 33 < fuel) (hnul : ∀ c ∈ fmt, c ≠ 0) (hargs : Enough (pieces fmt) args)
    (hn : fmt.length < n) :
    ScansTo (loop (Printf.pass fuel) n ⟨some fmt, args, out⟩) out (pieces fmt) := by
  obtain ⟨n, rfl⟩ : ∃ m, n = m + 1 := ⟨n - 1, by omega⟩
  induction hlen : fmt.length using Nat.strong_induction_on generalizing fmt args out n with
  | _ len ih =>
    subst hlen
    -- What is left after a piece is scanned in the same way.
    have hrest : ∀ {rest : List UInt8}, rest.length < fmt.length → (∀ c ∈ rest, c ∈ fmt) →
        ∀ args out, Enough (pieces rest) args →
          ScansTo (loop (Printf.pass fuel) n ⟨some rest, args, out⟩) out (pieces rest) :=
      fun hlt hsub args out hargs => by
        obtain ⟨n, rfl⟩ : ∃ m, n = m + 1 := ⟨n - 1, by omega⟩
        exact ih _ hlt (fun c hc => hnul c (hsub c hc)) hargs n (by omega) rfl
    rcases fmt with _ | ⟨c, fmt⟩
    · rw [loop_done rfl]
      exact ⟨[], by simp, .nil⟩
    have hc := hnul c List.mem_cons_self
    by_cases hpercent : c = ascii '%'
    swap
    · have hpieces : pieces (c :: fmt) = .lit c :: pieces fmt := if_neg hpercent
      rw [hpieces, loop_next (Printf.pass_char hc hpercent)]
      refine (hrest (by simp) (fun d hd => List.mem_cons_of_mem _ hd) _ _ ?_).cons
        (by simp) (by simp) rfl
      rw [hpieces] at hargs
      exact hargs.of_none rfl
    subst hpercent
    rcases fmt with _ | ⟨c, fmt⟩
    · -- The terminator comes after the percent sign.
      rw [loop_done (r := .stops (out ++ [ascii '%'])) rfl]
      exact ⟨[[ascii '%']], rfl, .cons trivial .nil⟩
    have hc := hnul c (by simp)
    by_cases hl : c = ascii 'l'
    swap
    · have hpieces : pieces (ascii '%' :: c :: fmt) = .conv [c] :: pieces fmt := by
        simp [pieces, piecesFrom, hl]
      rw [hpieces] at hargs ⊢
      exact .of_converts hc (converts_one hfuel hl hargs) (by simpa using hl) (by simp)
        (hrest (by simp) fun d hd => by simp [hd])
    subst hl
    rcases fmt with _ | ⟨c₂, fmt⟩
    · -- The terminator comes after the first `l`.
      exact scansTo_of_cut (by decide) (by simp at hn; omega)
        ((convert_long _ _ _ _).trans (by simp [Printf.long, ascii])) (by decide)
    by_cases hl₂ : c₂ = ascii 'l'
    swap
    · have hpieces : pieces (ascii '%' :: ascii 'l' :: c₂ :: fmt) =
          .conv [ascii 'l', c₂] :: pieces fmt := by simp [pieces, piecesFrom, hl₂]
      rw [hpieces] at hargs ⊢
      exact .of_converts hc (converts_two hfuel hl₂ hargs) (by simp) (by simpa using hl₂)
        (hrest (by simp; omega) fun d hd => by simp [hd])
    subst hl₂
    rcases fmt with _ | ⟨c₃, fmt⟩
    · -- The terminator comes after the second `l`.
      exact scansTo_of_cut (by decide) (by simp at hn; omega)
        ((convert_long _ _ _ _).trans (by simp [Printf.long, ascii])) (by decide)
    have hpieces : pieces (ascii '%' :: ascii 'l' :: ascii 'l' :: c₃ :: fmt) =
        .conv [ascii 'l', ascii 'l', c₃] :: pieces fmt := by simp [pieces, piecesFrom]
    rw [hpieces] at hargs ⊢
    exact .of_converts hc (converts_three hfuel hargs) (by simp) (by simp)
      (hrest (by simp; omega) fun d hd => by simp [hd])

end Loop

/-- With enough arguments, the scan stops at the terminator, every character that is in no
    conversion having been emitted once, in order, exactly if the format is not cut off after `%l`
    or `%ll`. -/
theorem printf_scan_iff (fuel : ℕ) (fmt : List UInt8) (args : List VaArg)
    (hnul : ∀ c ∈ fmt, c ≠ 0) (hargs : Enough (pieces fmt) args) :
    (∃ outs, printf (fmt.length + fuel + 34) fmt args = some (.stops outs.flatten) ∧
      List.Forall₂ Piece.Emitted (pieces fmt) outs) ↔ ¬ CutShort fmt := by
  have hscan : ScansTo (printf (fmt.length + fuel + 34) fmt args) [] (pieces fmt) :=
    scan_loop (by omega) hnul hargs (by omega)
  rw [ScansTo] at hscan
  split_ifs at hscan with hcut
  · obtain ⟨out, hover⟩ := hscan
    refine iff_of_false ?_ (not_not.2 hcut)
    rintro ⟨outs, hstops, -⟩
    cases hover.symm.trans hstops
  · exact iff_of_true hscan hcut

/-- The number in `a%ub`. -/
theorem printf_scan_iff_number :
    (∃ outs, printf (4 + 0 + 34) (chars "a%ub") [.word 5] = some (.stops outs.flatten) ∧
      List.Forall₂ Piece.Emitted (pieces (chars "a%ub")) outs) ↔ ¬ CutShort (chars "a%ub") :=
  printf_scan_iff 0 (chars "a%ub") [.word 5] (by decide +kernel) (by decide +kernel)

/-- The terminator of `a%l` is taken for a part of the conversion. -/
theorem printf_overruns : printf 37 (chars "a%l") [] = some (.overruns (chars "a")) ∧
    ¬ ∀ (fuel : ℕ) (fmt : List UInt8) (args : List VaArg), (∀ c ∈ fmt, c ≠ 0) →
      Enough (pieces fmt) args →
        ∃ outs, printf (fmt.length + fuel + 34) fmt args = some (.stops outs.flatten) ∧
          List.Forall₂ Piece.Emitted (pieces fmt) outs := by
  have hover : printf 37 (chars "a%l") [] = some (.overruns (chars "a")) := rfl
  refine ⟨hover, fun h => ?_⟩
  obtain ⟨outs, hstops, -⟩ := h 0 (chars "a%l") [] (by decide +kernel) (by decide +kernel)
  cases hover.symm.trans hstops

end Fru1tOs
