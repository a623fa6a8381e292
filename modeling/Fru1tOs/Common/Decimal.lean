import Fru1tOs.Common.Printf
import Fru1tOs.Lib.Decimal

/-!
# Decimal conversions

Both ways in which `printf` writes a number are exact up to the limits of the words. The first
divisor is the largest power of ten that is not larger than the value, or one, and growing it never
wraps (`divisor_loop`); from there on, each division gives the next digit (`digits_loop`). The
remainders in the buffer are the digits in reverse, twenty at most (`buffer_loop`). The magnitude of
the smallest negative value, which is its own negation, is right as an unsigned one.

So the conversions emit the numeral of the argument, wherever they are in a format
(`printf_decimal`).
-/

namespace Fru1tOs

open Lib

/-! ## From the first digit on -/

/-- The divisors are powers of ten, not larger than the value. -/
def IsDivisor (value d : ℕ) : Prop := ∃ k, d = 10 ^ k ∧ (k = 0 ∨ 10 ^ k ≤ value)

theorem divisorPass_of_isDivisor {w value d : ℕ} (h : IsDivisor value d) :
    divisorPass w value d =
      if value / d > 9 then some (.next (d * 10 % 2 ^ w)) else some (.done d) := by
  obtain ⟨k, rfl, -⟩ := h
  rw [divisorPass, if_neg (by positivity)]

/-- The divisor grows while this does not wrap. -/
theorem mul_ten_le {value d : ℕ} (h : value / d > 9) (hd : IsDivisor value d) :
    d * 10 ≤ value ∧ IsDivisor value (d * 10) := by
  obtain ⟨k, rfl, -⟩ := hd
  have hle : 10 ^ k * 10 ≤ value := by
    rw [Nat.mul_comm]
    exact (Nat.le_div_iff_mul_le (by positivity)).1 h
  exact ⟨hle, k + 1, (pow_succ _ _).symm, .inr ((pow_succ _ _).trans_le hle)⟩

/-- In a pass, the divisor is not zero, and its product is not larger than the value. -/
theorem isDivisor_of_passes {w value d : ℕ} (hv : value < 2 ^ w)
    (h : Passes (divisorPass w value) 1 d) : IsDivisor value d := by
  refine Passes.induction (fun d d' hd hpass => ?_) ⟨0, rfl, .inl rfl⟩ h
  rw [divisorPass_of_isDivisor hd] at hpass
  split_ifs at hpass with hgrow
  · obtain ⟨hle, hd'⟩ := mul_ten_le hgrow hd
    rw [Nat.mod_eq_of_lt (hle.trans_lt hv)] at hpass
    exact Pass.next.inj (Option.some.inj hpass) ▸ hd'
  · cases hpass

/-- The loop ends with the power of ten of the first digit. -/
theorem divisor_loop {w value fuel : ℕ} (hv : value < 2 ^ w) (hfuel : w < fuel) :
    ∃ k ≤ w, loop (divisorPass w value) fuel 1 = some (10 ^ k) ∧ (k = 0 ∨ 10 ^ k ≤ value) ∧
      value < 10 ^ (k + 1) := by
  have hexp : ∀ k, k = 0 ∨ 10 ^ k ≤ value → k ≤ w := by
    rintro k (rfl | hk)
    · exact Nat.zero_le _
    · have hlt : 2 ^ k < 2 ^ w :=
        calc 2 ^ k ≤ 10 ^ k := Nat.pow_le_pow_left (by decide) k
          _ ≤ value := hk
          _ < 2 ^ w := hv
      exact ((Nat.pow_lt_pow_iff_right (by decide)).1 hlt).le
  -- The variant is how far the exponent is from that of the word.
  have hbody : ∀ n d, (∃ k, d = 10 ^ k ∧ (k = 0 ∨ 10 ^ k ≤ value) ∧ n + k = w) →
      (∃ r, divisorPass w value d = some (.done r) ∧
        ∃ k, r = 10 ^ k ∧ (k = 0 ∨ 10 ^ k ≤ value) ∧ value < 10 ^ (k + 1)) ∨
      ∃ d' n', divisorPass w value d = some (.next d') ∧ n' < n ∧
        ∃ k, d' = 10 ^ k ∧ (k = 0 ∨ 10 ^ k ≤ value) ∧ n' + k = w := by
    rintro n d ⟨k, rfl, hk, hn⟩
    rw [divisorPass_of_isDivisor ⟨k, rfl, hk⟩]
    split_ifs with hgrow
    · obtain ⟨hle, -⟩ := mul_ten_le hgrow ⟨k, rfl, hk⟩
      rw [← pow_succ] at hle
      have hnext := hexp (k + 1) (.inr hle)
      refine .inr ⟨10 ^ (k + 1), n - 1, ?_, by omega, k + 1, rfl, .inr hle, by omega⟩
      rw [← pow_succ, Nat.mod_eq_of_lt (hle.trans_lt hv)]
    · refine .inl ⟨10 ^ k, rfl, k, rfl, hk, ?_⟩
      rw [pow_succ, Nat.mul_comm, ← Nat.div_lt_iff_lt_mul (by positivity)]
      omega
  obtain ⟨d, hd, k, rfl, hk, hlast⟩ := loop_of_variant hbody ⟨0, rfl, .inl rfl, rfl⟩ hfuel
  exact ⟨k, hexp k hk, hd, hk, hlast⟩

/-- A pass that emits a digit. -/
theorem digitsPass_pow (value k : ℕ) (out : List UInt8) :
    digitsPass (value, 10 ^ k, out) =
      some (.next (value % 10 ^ k, 10 ^ k / 10, out ++ [digit (value / 10 ^ k)])) :=
  if_pos (by positivity)

/-- From a power of ten on, the digits that are emitted are those of the value, with zeros in front
    when it has fewer. -/
theorem digits_loop {k value n : ℕ} (out : List UInt8) (hv : value < 10 ^ (k + 1))
    (hn : k + 1 < n) :
    ∃ l, loop digitsPass n (value, 10 ^ k, out) = some (out ++ digit (value / 10 ^ k) :: l) ∧
      l.length = k ∧ (∀ c ∈ l, IsDigit c) ∧ readNat l = value % 10 ^ k := by
  induction k generalizing value n out with
  | zero =>
    obtain ⟨n, rfl⟩ : ∃ m, n = m + 2 := ⟨n - 2, by omega⟩
    refine ⟨[], ?_, rfl, fun c hc => (nomatch hc), (Nat.mod_one _).symm⟩
    rw [loop_next (digitsPass_pow value 0 out)]
    rfl
  | succ k ih =>
    obtain ⟨n, rfl⟩ : ∃ m, n = m + 1 := ⟨n - 1, by omega⟩
    have hpow : 10 ^ (k + 1) / 10 = 10 ^ k := by rw [pow_succ, Nat.mul_div_cancel _ (by decide)]
    have hrest : value % 10 ^ (k + 1) < 10 ^ (k + 1) := Nat.mod_lt _ (by positivity)
    obtain ⟨l, hloop, hlen, hdigits, hread⟩ :=
      ih (out ++ [digit (value / 10 ^ (k + 1))]) hrest (n := n) (by omega)
    have hq : value % 10 ^ (k + 1) / 10 ^ k < 10 := by
      rw [Nat.div_lt_iff_lt_mul (by positivity), Nat.mul_comm, ← pow_succ]
      exact hrest
    refine ⟨digit (value % 10 ^ (k + 1) / 10 ^ k) :: l, ?_, ?_, ?_, ?_⟩
    · rw [loop_next (digitsPass_pow value (k + 1) out), hpow]
      refine hloop.trans ?_
      rw [List.append_assoc, List.singleton_append]
    · rw [List.length_cons, hlen]
    · intro c hc
      rcases List.mem_cons.1 hc with rfl | hc
      · exact isDigit_digit hq
      · exact hdigits c hc
    · rw [readNat_cons, digitValue_digit hq, hlen, hread, Nat.mul_comm, Nat.div_add_mod]

/-- The digits of a word are its numeral. -/
theorem printDivisor_spec {w fuel value : ℕ} (hv : value < 2 ^ w) (hfuel : w + 1 < fuel) :
    ∃ l, printDivisor w fuel value = some l ∧ IsNumeral l value := by
  obtain ⟨k, hkw, hdivisor, hk, hlast⟩ := divisor_loop hv (by omega : w < fuel)
  obtain ⟨l, hloop, hlen, hdigits, hread⟩ := digits_loop [] hlast (by omega : k + 1 < fuel)
  have hq : value / 10 ^ k < 10 := by
    rw [Nat.div_lt_iff_lt_mul (by positivity), Nat.mul_comm, ← pow_succ]
    exact hlast
  refine ⟨digit (value / 10 ^ k) :: l, ?_, List.cons_ne_nil _ _, ?_, fun hzero => ?_, ?_⟩
  · rw [printDivisor, hdivisor]
    exact hloop
  · intro c hc
    rcases List.mem_cons.1 hc with rfl | hc
    · exact isDigit_digit hq
    · exact hdigits c hc
  · -- The first digit is zero only if it is the only one.
    rw [List.head?_cons, Option.some_inj, digit_eq_zero_iff hq] at hzero
    have hlt := (Nat.div_eq_zero_iff_lt (by positivity)).1 hzero
    obtain rfl : k = 0 := hk.resolve_right (not_le.2 hlt)
    rw [hzero, List.length_eq_zero_iff.1 hlen]
  · rw [readNat_cons, digitValue_digit hq, hlen, hread, Nat.mul_comm, Nat.div_add_mod]

/-! ## From the last digit on -/

/-- The digits in the buffer, after those that are there: as many as the value has, the last one
    first. -/
theorem buffer_loop {m value n : ℕ} (buf : List UInt8) (hv : value < 10 ^ m)
    (hm : buf.length + m ≤ 31) (hn : m < n) :
    ∃ l, loop bufferPass n (value, buf) = some (buf ++ l) ∧ (∀ c ∈ l, IsDigit c) ∧
      readNat l.reverse = value ∧ (l = [] ↔ value = 0) ∧ l.getLast? ≠ some (digit 0) := by
  obtain ⟨n, rfl⟩ : ∃ k, n = k + 1 := ⟨n - 1, by omega⟩
  induction m generalizing value n buf with
  | zero =>
    obtain rfl : value = 0 := by simpa using hv
    exact ⟨[], by rw [List.append_nil]; rfl, fun c hc => (nomatch hc), rfl, by simp, by simp⟩
  | succ m ih =>
    rcases Nat.eq_zero_or_pos value with rfl | hpos
    · exact ⟨[], by rw [List.append_nil]; rfl, fun c hc => (nomatch hc), rfl, by simp, by simp⟩
    obtain ⟨n, rfl⟩ : ∃ k, n = k + 1 := ⟨n - 1, by omega⟩
    have hdigit : value % 10 < 10 := Nat.mod_lt _ (by decide)
    have hpass : bufferPass (value, buf) =
        some (.next (value / 10, buf ++ [digit (value % 10)])) := by
      rw [bufferPass, if_pos ⟨hpos, by omega⟩, if_pos (by simp only [digitBufferSize]; omega)]
      rfl
    have hrest : value / 10 < 10 ^ m := by
      rw [Nat.div_lt_iff_lt_mul (by decide), ← pow_succ]
      exact hv
    obtain ⟨l, hloop, hdigits, hread, hnil, hlast⟩ := ih (buf ++ [digit (value % 10)]) hrest
      (by rw [List.length_append, List.length_singleton]; omega) n (by omega)
    refine ⟨digit (value % 10) :: l, ?_, ?_, ?_, ?_, ?_⟩
    · rw [loop_next hpass, hloop, List.append_assoc, List.singleton_append]
    · intro c hc
      rcases List.mem_cons.1 hc with rfl | hc
      · exact isDigit_digit hdigit
      · exact hdigits c hc
    · rw [List.reverse_cons, readNat_concat, hread, digitValue_digit hdigit, Nat.mul_comm,
        Nat.div_add_mod]
    · simp [hpos.ne']
    · rcases eq_or_ne l [] with rfl | hne
      · -- The first digit of the value is not zero.
        have hzero := hnil.1 rfl
        rw [List.getLast?_singleton, Ne, Option.some_inj, digit_eq_zero_iff hdigit]
        omega
      · rwa [List.getLast?_cons_of_ne_nil hne]

/-- The digits of a double word are its numeral. -/
theorem printReversed_spec {fuel value : ℕ} (hv : value < 2 ^ 64) (hfuel : 20 < fuel) :
    ∃ l, printReversed fuel value = some l ∧ IsNumeral l value := by
  rw [printReversed]
  split_ifs with hzero
  · subst hzero
    exact ⟨[ascii '0'], rfl, List.cons_ne_nil _ _, by decide +kernel, fun _ => rfl, rfl⟩
  · have hlt : value < 10 ^ 20 := hv.trans (by decide)
    obtain ⟨l, hloop, hdigits, hread, hnil, hlast⟩ := buffer_loop [] hlt (by decide) hfuel
    rw [List.nil_append] at hloop
    refine ⟨l.reverse, ?_, ?_, fun c hc => hdigits c (List.mem_reverse.1 hc), fun hhead => ?_,
      hread⟩
    · rw [hloop]
      rfl
    · exact fun hrev => hzero (hnil.1 (List.reverse_eq_nil_iff.1 hrev))
    · rw [List.head?_reverse] at hhead
      exact absurd hhead hlast

/-- What is left of the value has no more digits than there is room for up to the twentieth. -/
def DigitsLeft : ℕ × List UInt8 → Prop
  | (value, buf) => ∃ m, value < 10 ^ m ∧ buf.length + m ≤ 20

theorem DigitsLeft.next {s s' : ℕ × List UInt8} (h : DigitsLeft s)
    (hpass : bufferPass s = some (.next s')) : DigitsLeft s' := by
  obtain ⟨value, buf⟩ := s
  obtain ⟨m, hm, hlen⟩ := h
  rw [bufferPass] at hpass
  split_ifs at hpass with hloop hstore
  · obtain rfl := Pass.next.inj (Option.some.inj hpass)
    obtain ⟨m, rfl⟩ : ∃ k, m = k + 1 := by
      refine Nat.exists_eq_succ_of_ne_zero ?_
      rintro rfl
      omega
    refine ⟨m, ?_, ?_⟩
    · rw [Nat.div_lt_iff_lt_mul (by decide), ← pow_succ]
      exact hm
    · rw [List.length_append, List.length_singleton]
      omega
  · cases hpass

/-- In a pass, there are at most twenty digits in the buffer. -/
theorem length_buffer_of_passes {v : BitVec 64} {s : ℕ × List UInt8}
    (h : Passes bufferPass (v.toNat, []) s) : s.2.length ≤ 20 := by
  have hstart : DigitsLeft (v.toNat, []) := ⟨20, v.isLt.trans (by decide), le_rfl⟩
  obtain ⟨m, -, hm⟩ := Passes.induction (fun _ _ => DigitsLeft.next) hstart h
  omega

/-! ## Arguments -/

/-- The function writes the numerals of the numbers of `w` bits. -/
def WritesNumerals (w : ℕ) (digits : ℕ → Option (List UInt8)) : Prop :=
  ∀ n < 2 ^ w, ∃ l, digits n = some l ∧ IsNumeral l n

section Arguments

variable {w : ℕ} {digits : ℕ → Option (List UInt8)}

/-- An unsigned value is written as it is. -/
theorem WritesNumerals.unsigned (h : WritesNumerals w digits) (value : BitVec w) :
    ∃ l, digits value.toNat = some l ∧ IsIntNumeral l value.toNat := by
  obtain ⟨l, hl, hnum⟩ := h _ value.isLt
  exact ⟨l, hl, hnum.int⟩

/-- A negative value is written as its magnitude with a sign, and another one as it is. -/
theorem WritesNumerals.signed (h : WritesNumerals w digits) (value : BitVec w) :
    ∃ l, printSigned digits value = some l ∧ IsIntNumeral l value.toInt := by
  rw [printSigned]
  split_ifs with hneg
  · obtain ⟨l, hl, hnum⟩ := h _ (-value).isLt
    -- The negation does not change the smallest value, which is its magnitude as an unsigned one.
    have habs : (-value).toNat = value.toInt.natAbs := by
      rw [BitVec.toInt_eq_toNat_cond] at hneg ⊢
      rw [BitVec.toNat_neg]
      split_ifs at hneg ⊢ with hhalf
      · omega
      · rw [Nat.mod_eq_of_lt (by omega)]
        omega
    rw [habs] at hnum hl
    refine ⟨ascii '-' :: l, by rw [habs, hl]; rfl, ?_⟩
    rw [IsIntNumeral, if_pos hneg]
    exact ⟨l, rfl, hnum⟩
  · have habs : value.toInt = value.toNat := by
      rw [BitVec.toInt_eq_toNat_cond] at hneg ⊢
      split_ifs at hneg ⊢ with hhalf
      · rfl
      · omega
    rw [habs]
    exact h.unsigned value

end Arguments

/-! ## Conversions -/

/-- Wherever the conversion is in a format, the characters emitted for the argument are the numeral
    of `z`. -/
def Emits (fuel : ℕ) (conversion : String) (arg : VaArg) (z : ℤ) : Prop :=
  ∀ rest args out, ∃ l, IsIntNumeral l z ∧
    Printf.pass fuel ⟨some (chars conversion ++ rest), arg :: args, out⟩ =
      some (.next ⟨some rest, args, out ++ l⟩)

/-- A conversion that emits what `digits` gives for the argument, and leaves the cursor on its last
    character, `d`. -/
theorem emits_of {fuel : ℕ} {conversion : String} {arg : VaArg} {z : ℤ}
    {digits : Option (List UInt8)} (c : UInt8) (cs : List UInt8) (d : UInt8)
    (hchars : chars conversion = ascii '%' :: c :: cs) (hc : c ≠ 0)
    (h : ∃ l, digits = some l ∧ IsIntNumeral l z)
    (hconvert : ∀ l, digits = some l → ∀ rest args out,
      Printf.convert fuel ⟨some (c :: (cs ++ rest)), arg :: args, out⟩ =
        some ⟨some (d :: rest), args, out ++ l⟩) : Emits fuel conversion arg z := by
  intro rest args out
  obtain ⟨l, hl, hnum⟩ := h
  refine ⟨l, hnum, ?_⟩
  rw [hchars, List.cons_append, List.cons_append, Printf.pass_percent hc,
    hconvert l hl rest args out]
  rfl

/-- `printf` emits the decimal numerals of its arguments for `%u`, `%d`, `%lu`, `%ld`, `%llu` and
    `%lld`; no divisor of the one loop is zero or wraps, and there are fewer than 31 digits in the
    buffer of the other one. -/
theorem printf_decimal (fuel : ℕ) :
    (∀ v : BitVec 32, Emits (fuel + 34) "%u" (.word v) v.toNat ∧
      Emits (fuel + 34) "%lu" (.word v) v.toNat ∧ Emits (fuel + 34) "%d" (.word v) v.toInt ∧
      Emits (fuel + 34) "%ld" (.word v) v.toInt) ∧
    (∀ v : BitVec 64, Emits (fuel + 34) "%llu" (.dword v) v.toNat ∧
      Emits (fuel + 34) "%lld" (.dword v) v.toInt) ∧
    (∀ v : BitVec 32, ∀ d, Passes (divisorPass 32 v.toNat) 1 d →
      d ≠ 0 ∧ (v.toNat / d > 9 → d * 10 < 2 ^ 32)) ∧
    ∀ v : BitVec 64, ∀ s, Passes bufferPass (v.toNat, []) s → s.2.length < 31 := by
  have hword : WritesNumerals 32 (printDivisor 32 (fuel + 34)) :=
    fun n hn => printDivisor_spec hn (by omega)
  have hdword : WritesNumerals 64 (printReversed (fuel + 34)) :=
    fun n hn => printReversed_spec hn (by omega)
  refine ⟨fun v => ⟨?_, ?_, ?_, ?_⟩, fun v => ⟨?_, ?_⟩, fun v d hd => ?_, fun v s hs => ?_⟩
  · refine emits_of (ascii 'u') [] (ascii 'u') rfl (by decide) (hword.unsigned v) ?_
    intro l hl rest args out
    simp [Printf.convert, ascii, Printf.word_cons (f := fun v => printDivisor 32 _ v.toNat) hl]
  · refine emits_of (ascii 'l') [ascii 'u'] (ascii 'u') rfl (by decide) (hword.unsigned v) ?_
    intro l hl rest args out
    simp [Printf.convert, Printf.long, ascii,
      Printf.word_cons (f := fun v => printDivisor 32 _ v.toNat) hl]
  · refine emits_of (ascii 'd') [] (ascii 'd') rfl (by decide) (hword.signed v) ?_
    intro l hl rest args out
    simp [Printf.convert, ascii, Printf.word_cons hl]
  · refine emits_of (ascii 'l') [ascii 'd'] (ascii 'd') rfl (by decide) (hword.signed v) ?_
    intro l hl rest args out
    simp [Printf.convert, Printf.long, ascii, Printf.word_cons hl]
  · refine emits_of (ascii 'l') [ascii 'l', ascii 'u'] (ascii 'u') rfl (by decide)
      (hdword.unsigned v) ?_
    intro l hl rest args out
    simp [Printf.convert, Printf.long, ascii,
      Printf.dword_cons (f := fun v => printReversed _ v.toNat) hl]
  · refine emits_of (ascii 'l') [ascii 'l', ascii 'd'] (ascii 'd') rfl (by decide)
      (hdword.signed v) ?_
    intro l hl rest args out
    simp [Printf.convert, Printf.long, ascii, Printf.dword_cons hl]
  · have hdivisor := isDivisor_of_passes v.isLt hd
    refine ⟨?_, fun hgrow => (mul_ten_le hgrow hdivisor).1.trans_lt v.isLt⟩
    obtain ⟨k, rfl, -⟩ := hdivisor
    positivity
  · exact (length_buffer_of_passes hs).trans_lt (by decide)

end Fru1tOs
