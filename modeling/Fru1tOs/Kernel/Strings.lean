import Fru1tOs.Files.Slots

/-!
# Strings

The functions on strings of `kernel.c`, on pointers. Only some bytes can be read (`Readable`), and a
function that reads another one has no result. Of the strings that it is given each function reads
the characters and the terminating zero, and nothing else, and it returns what its name says:
`strstr` the first occurrence, and `strcmp` the order of the strings (`cstrings_right`).

The file system is modelled with `strcmp` and `strcpy` on a memory and a list of characters; these
are the functions here (`strcmp_eq_files`, `strcpy_eq_files`).
-/

namespace Fru1tOs

open Lib

/-- The bytes that can be read, by their address. -/
abbrev Readable := ℕ → Option UInt8

namespace CString

/-! ## Functions -/

/-- A pass of the loop of `strlen`. -/
def strlenPass (m : Readable) : ℕ × ℕ → Option (Pass (ℕ × ℕ) ℕ)
  | (s, len) => do
    if (← m s) ≠ 0 then return .next (s + 1, len + 1)
    else return .done len

/-- `strlen`. -/
def strlen (fuel : ℕ) (m : Readable) (s : ℕ) : Option ℕ := loop (strlenPass m) fuel (s, 0)

/-- A pass of the loop of `strcmp`, with what is returned after it. -/
def strcmpPass (m : Readable) : ℕ × ℕ → Option (Pass (ℕ × ℕ) ℤ)
  | (s1, s2) => do
    let c ← m s1
    let d ← m s2
    if c ≠ 0 ∧ c = d then return .next (s1 + 1, s2 + 1)
    else return .done (c.toNat - d.toNat)

/-- `strcmp`. -/
def strcmp (fuel : ℕ) (m : Readable) (s1 s2 : ℕ) : Option ℤ := loop (strcmpPass m) fuel (s1, s2)

/-- A pass of the loop of `strchr`, with what is returned after it. -/
def strchrPass (m : Readable) (c : ℤ) (s : ℕ) : Option (Pass ℕ ℕ) := do
  let d ← m s
  if d ≠ 0 then
    if (d.toNat : ℤ) = c then return .done s
    else return .next (s + 1)
  else return .done (if c = 0 then s else 0)

/-- `strchr`. -/
def strchr (fuel : ℕ) (m : Readable) (s : ℕ) (c : ℤ) : Option ℕ := loop (strchrPass m c) fuel s

/-- A pass of the inner loop of `strstr`: `h2` and `n`, of which `n` is used after it. -/
def matchPass (m : Readable) : ℕ × ℕ → Option (Pass (ℕ × ℕ) ℕ)
  | (h2, n) => do
    let c ← m h2
    if c = 0 then return .done n
    let d ← m n
    if d ≠ 0 ∧ c = d then return .next (h2 + 1, n + 1)
    else return .done n

/-- A pass of the outer loop of `strstr`. -/
def strstrPass (fuel : ℕ) (m : Readable) (needle h : ℕ) : Option (Pass ℕ ℕ) := do
  if (← m h) ≠ 0 then
    let n ← loop (matchPass m) fuel (h, needle)
    if (← m n) = 0 then return .done h
    else return .next (h + 1)
  else return .done 0

/-- `strstr`. -/
def strstr (fuel : ℕ) (m : Readable) (haystack needle : ℕ) : Option ℕ := do
  if (← m needle) = 0 then return haystack
  loop (strstrPass fuel m needle) fuel haystack

/-- Write a byte, at an address that there is. -/
def store (m : Readable) (a : ℕ) (c : UInt8) : Option Readable :=
  if (m a).isSome then some (Function.update m a (some c)) else none

/-- A pass of the loop of `strcpy`, with what is done after it. -/
def strcpyPass : Readable × ℕ × ℕ → Option (Pass (Readable × ℕ × ℕ) Readable)
  | (m, dest, src) => do
    let c ← m src
    if c ≠ 0 then return .next (← store m dest c, dest + 1, src + 1)
    else return .done (← store m dest 0)

/-- `strcpy`. -/
def strcpy (fuel : ℕ) (m : Readable) (dest src : ℕ) : Option Readable :=
  loop strcpyPass fuel (m, dest, src)

/-! ## Strings in memory -/

/-- The string at `a` is `l`, with its terminating zero. -/
def HoldsStr (m : Readable) : ℕ → List UInt8 → Prop
  | a, [] => m a = some 0
  | a, c :: l => m a = some c ∧ c ≠ 0 ∧ HoldsStr m (a + 1) l

/-- The string `k` occurs in `l` at `i`, and not before. -/
def FirstAt (k l : List UInt8) (i : ℕ) : Prop := k <+: l.drop i ∧ ∀ j < i, ¬ k <+: l.drop j

variable {m : Readable} {a b : ℕ} {l k : List UInt8} {fuel : ℕ}

theorem strlen_eq (h : HoldsStr m a l) (hfuel : l.length < fuel) :
    strlen fuel m a = some l.length := by
  suffices hloop : ∀ len, loop (strlenPass m) fuel (a, len) = some (len + l.length) by
    rw [strlen, hloop, Nat.zero_add]
  induction l generalizing a fuel with
  | nil =>
    intro len
    obtain ⟨fuel, rfl⟩ := Nat.exists_eq_add_one_of_ne_zero (Nat.ne_zero_of_lt hfuel)
    refine loop_done ?_
    rw [strlenPass, show m a = some 0 from h]
    rfl
  | cons c l ih =>
    intro len
    obtain ⟨ha, hc, hl⟩ := h
    obtain ⟨fuel, rfl⟩ := Nat.exists_eq_add_one_of_ne_zero (Nat.ne_zero_of_lt hfuel)
    have hpass : strlenPass m (a, len) = some (.next (a + 1, len + 1)) := by
      rw [strlenPass, ha]
      exact if_pos hc
    rw [loop_next hpass, ih hl (Nat.lt_of_succ_lt_succ hfuel), List.length_cons, add_assoc,
      add_comm 1]

/-- The loop of `strcmp` goes on. -/
theorem strcmpPass_next {c : UInt8} (ha : m a = some c) (hb : m b = some c) (hc : c ≠ 0) :
    strcmpPass m (a, b) = some (.next (a + 1, b + 1)) := by
  rw [strcmpPass, ha, hb]
  exact if_pos ⟨hc, rfl⟩

/-- It ends where the strings differ, or both end. -/
theorem strcmpPass_done {c d : UInt8} (ha : m a = some c) (hb : m b = some d)
    (hcd : c = 0 ∨ c ≠ d) : strcmpPass m (a, b) = some (.done (c.toNat - d.toNat)) := by
  rw [strcmpPass, ha, hb]
  exact if_neg (by tauto)

theorem toNat_pos {c : UInt8} (hc : c ≠ 0) : 0 < c.toNat :=
  Nat.pos_of_ne_zero fun h => hc (UInt8.toNat_inj.1 h)

/-- `strcmp` is the order of the strings. -/
theorem strcmp_eq (h : HoldsStr m a l) (hk : HoldsStr m b k) (hfuel : l.length < fuel) :
    ∃ r, strcmp fuel m a b = some r ∧ (r = 0 ↔ l = k) ∧ (r < 0 ↔ l < k) := by
  induction l generalizing a b k fuel with
  | nil =>
    obtain ⟨fuel, rfl⟩ := Nat.exists_eq_add_one_of_ne_zero (Nat.ne_zero_of_lt hfuel)
    cases k with
    | nil =>
      exact ⟨_, loop_done (strcmpPass_done h hk (.inl rfl)), by simp, by simp⟩
    | cons d k =>
      have hd := toNat_pos hk.2.1
      refine ⟨_, loop_done (strcmpPass_done h hk.1 (.inl rfl)), ?_, ?_⟩
      · simp only [UInt8.toNat_zero, reduceCtorEq, iff_false]
        omega
      · simp only [UInt8.toNat_zero, List.nil_lt_cons, iff_true]
        omega
  | cons c l ih =>
    obtain ⟨fuel, rfl⟩ := Nat.exists_eq_add_one_of_ne_zero (Nat.ne_zero_of_lt hfuel)
    obtain ⟨ha, hc, hl⟩ := h
    have hpos := toNat_pos hc
    cases k with
    | nil =>
      refine ⟨_, loop_done (strcmpPass_done ha hk (.inr hc)), ?_, ?_⟩
      · simp only [UInt8.toNat_zero, reduceCtorEq, iff_false]
        omega
      · simp only [UInt8.toNat_zero, List.not_lt_nil, iff_false]
        omega
    | cons d k =>
      obtain ⟨hb, hd, hk⟩ := hk
      by_cases hcd : c = d
      · subst hcd
        obtain ⟨r, hr, hzero, hneg⟩ := ih hl hk (Nat.lt_of_succ_lt_succ hfuel)
        refine ⟨r, ?_, by rw [hzero]; simp, by rw [hneg]; simp⟩
        rw [strcmp, loop_next (strcmpPass_next ha hb hc)]
        exact hr
      · refine ⟨_, loop_done (strcmpPass_done ha hb (.inr hcd)), ?_, ?_⟩
        · have hne : c.toNat ≠ d.toNat := fun h => hcd (UInt8.toNat_inj.1 h)
          simp only [List.cons.injEq, hcd, false_and, iff_false]
          omega
        · rw [List.cons_lt_cons_iff, UInt8.lt_iff_toNat_lt]
          simp only [hcd, false_and, or_false]
          omega

/-- `strchr` finds the first one. -/
theorem strchr_eq (h : HoldsStr m a l) (hfuel : l.length < fuel) (c : ℤ) :
    strchr fuel m a c = some (if c = 0 then a + l.length
      else ((l.findIdx? fun d => (d.toNat : ℤ) = c).map (a + ·)).getD 0) := by
  induction l generalizing a fuel with
  | nil =>
    obtain ⟨fuel, rfl⟩ := Nat.exists_eq_add_one_of_ne_zero (Nat.ne_zero_of_lt hfuel)
    have ha : m a = some 0 := h
    refine loop_done ?_
    rw [strchrPass, ha]
    rfl
  | cons d l ih =>
    obtain ⟨fuel, rfl⟩ := Nat.exists_eq_add_one_of_ne_zero (Nat.ne_zero_of_lt hfuel)
    obtain ⟨ha, hd, hl⟩ := h
    have hpos := toNat_pos hd
    by_cases hdc : (d.toNat : ℤ) = c
    · have hpass : strchrPass m c a = some (.done a) := by
        rw [strchrPass, ha]
        exact (if_pos hd).trans (if_pos hdc)
      rw [strchr, loop_done hpass, if_neg (by omega), List.findIdx?_cons,
        if_pos (by simpa using hdc)]
      rfl
    · have hpass : strchrPass m c a = some (.next (a + 1)) := by
        rw [strchrPass, ha]
        exact (if_pos hd).trans (if_neg hdc)
      rw [strchr, loop_next hpass, ← strchr, ih hl (Nat.lt_of_succ_lt_succ hfuel)]
      by_cases hc : c = 0
      · rw [if_pos hc, if_pos hc, List.length_cons, add_assoc, add_comm 1]
      · rw [if_neg hc, if_neg hc, List.findIdx?_cons, if_neg (by simpa using hdc), Option.map_map]
        congr 3
        funext i
        simp only [Function.comp_apply]
        omega

/-! ## Searching -/

/-- The first character of a string, or its zero. -/
theorem HoldsStr.exists_first (h : HoldsStr m a l) : ∃ c, m a = some c ∧ (c = 0 ↔ l = []) := by
  cases l with
  | nil => exact ⟨0, h, by simp⟩
  | cons c l => exact ⟨c, h.1, by simp [h.2.1]⟩

/-- The inner loop of `strstr` ends with `n` at the end of the needle if that is a prefix. -/
theorem loop_matchPass (h : HoldsStr m a l) (hk : HoldsStr m b k) (hfuel : l.length < fuel) :
    ∃ n d, loop (matchPass m) fuel (a, b) = some n ∧ m n = some d ∧ (d = 0 ↔ k <+: l) := by
  induction l generalizing a b k fuel with
  | nil =>
    obtain ⟨fuel, rfl⟩ := Nat.exists_eq_add_one_of_ne_zero (Nat.ne_zero_of_lt hfuel)
    obtain ⟨d, hb, hd⟩ := hk.exists_first
    have hpass : matchPass m (a, b) = some (.done b) := by
      rw [matchPass, show m a = some 0 from h]
      rfl
    exact ⟨b, d, loop_done hpass, hb, by rw [hd, List.prefix_nil]⟩
  | cons c l ih =>
    obtain ⟨fuel, rfl⟩ := Nat.exists_eq_add_one_of_ne_zero (Nat.ne_zero_of_lt hfuel)
    obtain ⟨ha, hc, hl⟩ := h
    obtain ⟨d, hb, hd⟩ := hk.exists_first
    by_cases hgo : d ≠ 0 ∧ c = d
    · obtain ⟨hd0, rfl⟩ := hgo
      have hpass : matchPass m (a, b) = some (.next (a + 1, b + 1)) := by
        rw [matchPass, ha, hb]
        exact (if_neg hc).trans (if_pos ⟨hd0, rfl⟩)
      rw [loop_next hpass]
      cases k with
      | nil => exact absurd (hd.2 rfl) hd0
      | cons e k =>
        obtain rfl : e = c := Option.some_inj.1 (hk.1.symm.trans hb)
        obtain ⟨n, d, hloop, hn, hpre⟩ := ih hl hk.2.2 (Nat.lt_of_succ_lt_succ hfuel)
        exact ⟨n, d, hloop, hn, by rw [hpre, List.cons_prefix_cons, and_iff_right rfl]⟩
    · have hpass : matchPass m (a, b) = some (.done b) := by
        rw [matchPass, ha, hb]
        exact (if_neg hc).trans (if_neg hgo)
      refine ⟨b, d, loop_done hpass, hb, ?_⟩
      cases k with
      | nil => simp [hd]
      | cons e k =>
        obtain rfl : e = d := Option.some_inj.1 (hk.1.symm.trans hb)
        refine iff_of_false hk.2.1 fun hpre => hgo ⟨hk.2.1, ?_⟩
        exact (List.cons_prefix_cons.1 hpre).1.symm

/-- A match at the start is the first one. -/
theorem firstAt_zero : FirstAt k l 0 ↔ k <+: l := by
  simp [FirstAt]

/-- Without a match at the start, the first one is in the tail. -/
theorem firstAt_succ {c : UInt8} {i : ℕ} (hno : ¬ k <+: c :: l) (h : FirstAt k l i) :
    FirstAt k (c :: l) (i + 1) := by
  refine ⟨h.1, ?_⟩
  rintro (_ | j) hj
  · exact hno
  · exact h.2 j (Nat.lt_of_succ_lt_succ hj)

/-- The outer loop of `strstr`. -/
theorem loop_strstrPass {fuel' : ℕ} (h : HoldsStr m a l) (hk : HoldsStr m b k) (hne : k ≠ [])
    (hfuel : l.length < fuel) (hfuel' : l.length < fuel') :
    ∃ r, loop (strstrPass fuel m b) fuel' a = some r ∧
      ((∃ i, r = a + i ∧ FirstAt k l i) ∨ (r = 0 ∧ ¬ k <:+: l)) := by
  induction l generalizing a fuel' with
  | nil =>
    obtain ⟨fuel', rfl⟩ := Nat.exists_eq_add_one_of_ne_zero (Nat.ne_zero_of_lt hfuel')
    refine ⟨0, loop_done ?_, .inr ⟨rfl, by rwa [List.infix_nil]⟩⟩
    rw [strstrPass, show m a = some 0 from h]
    rfl
  | cons c l ih =>
    obtain ⟨fuel', rfl⟩ := Nat.exists_eq_add_one_of_ne_zero (Nat.ne_zero_of_lt hfuel')
    obtain ⟨n, d, hloop, hn, hpre⟩ := loop_matchPass h hk hfuel
    obtain ⟨ha, hc, hl⟩ := h
    have hpass : strstrPass fuel m b a = some (if d = 0 then .done a else .next (a + 1)) := by
      rw [strstrPass, ha]
      simp only [Option.bind_eq_bind, Option.bind_some, if_pos hc, hloop, hn, Option.pure_def]
      split_ifs <;> rfl
    by_cases hd : d = 0
    · rw [if_pos hd] at hpass
      exact ⟨a, loop_done hpass, .inl ⟨0, rfl, firstAt_zero.2 (hpre.1 hd)⟩⟩
    · rw [if_neg hd] at hpass
      have hno : ¬ k <+: c :: l := fun hk => hd (hpre.2 hk)
      obtain ⟨r, hr, hcases⟩ := ih hl (Nat.lt_of_succ_lt hfuel) (Nat.lt_of_succ_lt_succ hfuel')
      refine ⟨r, (loop_next hpass).trans hr, hcases.imp ?_ ?_⟩
      · rintro ⟨i, rfl, hi⟩
        exact ⟨i + 1, by omega, firstAt_succ hno hi⟩
      · rintro ⟨rfl, hinfix⟩
        exact ⟨rfl, fun hk => (List.infix_cons_iff.1 hk).elim hno hinfix⟩

/-- `strstr` finds the first occurrence. -/
theorem strstr_eq (h : HoldsStr m a l) (hk : HoldsStr m b k) (hfuel : l.length < fuel) :
    ∃ r, strstr fuel m a b = some r ∧
      ((∃ i, r = a + i ∧ FirstAt k l i) ∨ (r = 0 ∧ ¬ k <:+: l)) := by
  obtain ⟨d, hb, hd⟩ := hk.exists_first
  by_cases hd0 : d = 0
  · obtain rfl := hd.1 hd0
    refine ⟨a, ?_, .inl ⟨0, rfl, firstAt_zero.2 List.nil_prefix⟩⟩
    rw [strstr, hb]
    exact if_pos hd0
  · obtain ⟨r, hr, hcases⟩ := loop_strstrPass h hk (fun hnil => hd0 (hd.2 hnil)) hfuel hfuel
    refine ⟨r, ?_, hcases⟩
    rw [strstr, hb]
    exact (if_neg hd0).trans hr

/-- The functions on strings, given any strings, read nothing but these, and return the length, the
    order, the place of a character, and the first occurrence. -/
theorem cstrings_right (h : HoldsStr m a l) (hk : HoldsStr m b k) (hfuel : l.length < fuel) :
    strlen fuel m a = some l.length ∧
      (∃ r, strcmp fuel m a b = some r ∧ (r = 0 ↔ l = k) ∧ (r < 0 ↔ l < k)) ∧
      (∀ c, strchr fuel m a c = some (if c = 0 then a + l.length
        else ((l.findIdx? fun d => (d.toNat : ℤ) = c).map (a + ·)).getD 0)) ∧
      ∃ r, strstr fuel m a b = some r ∧
        ((∃ i, r = a + i ∧ FirstAt k l i) ∨ (r = 0 ∧ ¬ k <:+: l)) :=
  ⟨strlen_eq h hfuel, strcmp_eq h hk hfuel, strchr_eq h hfuel, strstr_eq h hk hfuel⟩

/-- The string "aab" and, after it, "ab". -/
def twoStrings : Readable := fun x => [97, 97, 98, 0, 97, 98, 0][x - 16]?

/-- The second occurs in the first, not at its start. -/
theorem cstrings_right_two : HoldsStr twoStrings 16 [97, 97, 98] ∧ HoldsStr twoStrings 20 [97, 98] ∧
    strlen 4 twoStrings 16 = some 3 ∧
    ∃ r, strstr 4 twoStrings 16 20 = some r ∧
      ((∃ i, r = 16 + i ∧ FirstAt [97, 98] [97, 97, 98] i) ∨
        (r = 0 ∧ ¬ [97, 98] <:+: ([97, 97, 98] : List UInt8))) := by
  have h : HoldsStr twoStrings 16 [97, 97, 98] :=
    ⟨rfl, by decide, rfl, by decide, rfl, by decide, rfl⟩
  have hk : HoldsStr twoStrings 20 [97, 98] := ⟨rfl, by decide, rfl, by decide, rfl⟩
  obtain ⟨hlen, -, -, hstr⟩ := cstrings_right h hk (show _ < 4 by decide)
  exact ⟨h, hk, hlen, hstr⟩

/-! ## The file system -/

/-- All bytes of a memory. -/
def all (M : Mem) : Readable := fun x => some (M x)

/-- The `strcmp` of the file system, which has a list of characters for the second string. -/
theorem strcmp_eq_files {M : Mem} (hk : HoldsStr (all M) b k) (hfuel : k.length < fuel) :
    strcmp fuel (all M) a b = some (Fru1tOs.strcmp M a k) := by
  have ha (a : ℕ) : all M a = some (M a) := rfl
  induction k generalizing a b fuel with
  | nil =>
    obtain ⟨fuel, rfl⟩ := Nat.exists_eq_add_one_of_ne_zero (Nat.ne_zero_of_lt hfuel)
    have hdone := strcmpPass_done (ha a) (show all M b = some 0 from hk)
      (Decidable.em (M a = 0))
    rw [strcmp, loop_done hdone, Fru1tOs.strcmp, UInt8.toNat_zero, Nat.cast_zero, sub_zero]
  | cons d k ih =>
    obtain ⟨fuel, rfl⟩ := Nat.exists_eq_add_one_of_ne_zero (Nat.ne_zero_of_lt hfuel)
    obtain ⟨hb, -, hk⟩ := hk
    rw [Fru1tOs.strcmp]
    by_cases hgo : M a ≠ 0 ∧ M a = d
    · rw [if_pos hgo, strcmp, loop_next (strcmpPass_next (ha a) (hb.trans (hgo.2 ▸ rfl)) hgo.1)]
      exact ih hk (Nat.lt_of_succ_lt_succ hfuel)
    · rw [if_neg hgo, strcmp, loop_done (strcmpPass_done (ha a) hb (by tauto))]

theorem HoldsStr.congr {m' : Readable} (h : HoldsStr m a l)
    (hm : ∀ x, a ≤ x → x ≤ a + l.length → m' x = m x) : HoldsStr m' a l := by
  induction l generalizing a with
  | nil => exact (hm a le_rfl le_rfl).trans h
  | cons c l ih =>
    rw [List.length_cons] at hm
    exact ⟨(hm a le_rfl (by omega)).trans h.1, h.2.1, ih h.2.2 fun x hx hx' =>
      hm x (by omega) (by omega)⟩

theorem store_all (M : Mem) (c : UInt8) :
    store (all M) a c = some (all (Function.update M a c)) := by
  refine (if_pos rfl).trans (congrArg some (funext fun x => ?_))
  rw [all, Function.update_apply, Function.update_apply]
  split_ifs <;> rfl

/-- The `strcpy` of the file system, where the strings do not overlap. -/
theorem strcpy_eq_files {M : Mem} (h : HoldsStr (all M) b l) (hfuel : l.length < fuel)
    (hdisj : b + l.length < a ∨ a + l.length < b) :
    strcpy fuel (all M) a b = some (all (Fru1tOs.strcpy M a l)) := by
  induction l generalizing M a b fuel with
  | nil =>
    obtain ⟨fuel, rfl⟩ := Nat.exists_eq_add_one_of_ne_zero (Nat.ne_zero_of_lt hfuel)
    refine loop_done ?_
    rw [strcpyPass, show all M b = some 0 from h]
    simp only [Option.bind_eq_bind, Option.bind_some, store_all]
    rfl
  | cons c l ih =>
    obtain ⟨fuel, rfl⟩ := Nat.exists_eq_add_one_of_ne_zero (Nat.ne_zero_of_lt hfuel)
    obtain ⟨hb, hc, hl⟩ := h
    rw [List.length_cons] at hdisj
    have hpass : strcpyPass (all M, a, b) =
        some (.next (all (Function.update M a c), a + 1, b + 1)) := by
      rw [strcpyPass, hb]
      simp only [Option.bind_eq_bind, Option.bind_some, if_pos hc, store_all, Option.pure_def]
    -- What is written is not what is still to be read.
    have hl' : HoldsStr (all (Function.update M a c)) (b + 1) l := hl.congr fun x hx hx' => by
      rw [all, Function.update_of_ne (by omega)]
      rfl
    rw [strcpy, loop_next hpass]
    exact ih hl' (Nat.lt_of_succ_lt_succ hfuel) (by omega)

end CString

end Fru1tOs
