import Fru1tOs.Heap.Image

/-!
# Pages

`alloc_pages` of `kernel.c` gives out the memory between `__free_ram` and `__free_ram_end`, of which
a static variable is the part that is left. The kernel panics when that ends past the limit, which
is compared with a sum and a product of 32 bits: a count whose bytes, or whose end, do not fit in
32 bits comes out small, and passes.

As long as no end wraps (`PageRun.Fits`), the ranges that were returned lie one after the other
below the variable (`PageInv`), and are zero. The first one that wraps reaches past every address.
So a run without panic is right exactly if no call of it wraps (`allocPages_right_iff`).

The addresses are those of a flat space of 32 bits, also for `memset`, and the free memory is within
it.
-/

namespace Fru1tOs

open Lib

/-- `PAGE_SIZE`. -/
abbrev pageSize : ℕ := 4096

/-- An image with its free memory. -/
structure PagedImage extends Image where
  ram_fits : (toSections.bssEnd + 4095) / 4096 * 4096 + 128 * 1024 * 1024 < 2 ^ 32

/-- `__free_ram`: the end of the image, aligned. -/
def PagedImage.freeRam (I : PagedImage) : ℕ := (I.bssEnd + 4095) / 4096 * 4096

/-- `__free_ram_end`. -/
def PagedImage.freeRamEnd (I : PagedImage) : ℕ := I.freeRam + 128 * 1024 * 1024

theorem PagedImage.dvd_freeRam (I : PagedImage) : pageSize ∣ I.freeRam := Dvd.intro_left _ rfl

theorem PagedImage.freeRamEnd_lt (I : PagedImage) : I.freeRamEnd < 2 ^ 32 := I.ram_fits

/-- `memset`. -/
def memset (m : Mem) (s : ℕ) (c : UInt8) : ℕ → Mem
  | 0 => m
  | n + 1 => memset (Function.update m s c) ((s + 1) % 2 ^ 32) c n

/-- The memory, and `next_paddr`. -/
structure PageState where
  mem : Mem
  nextPaddr : ℕ

/-- `alloc_pages`, if it does not panic. -/
def allocPages (I : PagedImage) (s : PageState) (n : UInt32) : Option (ℕ × PageState) :=
  let paddr := s.nextPaddr
  let next := (s.nextPaddr + n.toNat * pageSize % 2 ^ 32) % 2 ^ 32
  if next > I.freeRamEnd then none
  else some (paddr, ⟨memset s.mem paddr 0 (n.toNat * pageSize % 2 ^ 32), next⟩)

/-! ## Runs -/

/-- Pages that were returned: their address, and how many were asked for. -/
structure Pages where
  paddr : ℕ
  count : ℕ

/-- The addresses in the pages. -/
def Pages.range (p : Pages) : Set ℕ := Set.Ico p.paddr (p.paddr + p.count * pageSize)

/-- The state, and the pages that were returned, the last ones first. -/
structure PageRun where
  state : PageState
  given : List Pages

/-- The effect of a call. -/
def PageRun.call (I : PagedImage) (s : PageRun) (n : UInt32) : Option PageRun :=
  (allocPages I s.state n).map fun (paddr, state) => ⟨state, ⟨paddr, n.toNat⟩ :: s.given⟩

/-- The state before the first call. -/
def PageRun.init (I : PagedImage) (m : Mem) : PageRun := ⟨⟨m, I.freeRam⟩, []⟩

/-- The ranges are disjoint, aligned and inside the free memory. -/
structure PagesRight (I : PagedImage) (given : List Pages) : Prop where
  disjoint : given.Pairwise fun p q => Disjoint p.range q.range
  aligned : ∀ p ∈ given, pageSize ∣ p.paddr
  inside : ∀ p ∈ given, p.range ⊆ Set.Ico I.freeRam I.freeRamEnd

/-- The end of what the call asks for is an address. -/
def PageRun.Fits (s : PageRun) (n : UInt32) : Prop :=
  s.state.nextPaddr + n.toNat * pageSize < 2 ^ 32

/-- The invariant of the runs in which no end wraps. -/
structure PageInv (I : PagedImage) (s : PageRun) : Prop where
  aligned : pageSize ∣ s.state.nextPaddr
  ge : I.freeRam ≤ s.state.nextPaddr
  le : s.state.nextPaddr ≤ I.freeRamEnd
  given : ∀ p ∈ s.given, pageSize ∣ p.paddr ∧ I.freeRam ≤ p.paddr ∧
    p.paddr + p.count * pageSize ≤ s.state.nextPaddr
  disjoint : s.given.Pairwise fun p q => Disjoint p.range q.range

variable {I : PagedImage} {s s' : PageRun} {n : UInt32}

/-- A call that ends, in 32 bits, within the free memory. -/
theorem PageRun.call_eq
    (h : (s.state.nextPaddr + n.toNat * pageSize % 2 ^ 32) % 2 ^ 32 ≤ I.freeRamEnd) :
    s.call I n = some ⟨⟨memset s.state.mem s.state.nextPaddr 0 (n.toNat * pageSize % 2 ^ 32),
      (s.state.nextPaddr + n.toNat * pageSize % 2 ^ 32) % 2 ^ 32⟩,
      ⟨s.state.nextPaddr, n.toNat⟩ :: s.given⟩ := by
  rw [PageRun.call, allocPages, if_neg (not_lt.2 h)]
  rfl

/-- What a call does that does not panic. -/
theorem PageRun.call_cases (h : s.call I n = some s') :
    s'.given = ⟨s.state.nextPaddr, n.toNat⟩ :: s.given ∧ s'.state.nextPaddr ≤ I.freeRamEnd ∧
      (s.Fits n → s'.state.nextPaddr = s.state.nextPaddr + n.toNat * pageSize) := by
  obtain ⟨⟨paddr, state⟩, halloc, rfl⟩ := Option.map_eq_some_iff.1 h
  rw [allocPages] at halloc
  split_ifs at halloc with hpanic
  obtain ⟨rfl, rfl⟩ := Prod.mk.inj (Option.some.inj halloc)
  refine ⟨rfl, not_lt.1 hpanic, fun hfits => ?_⟩
  rw [PageRun.Fits] at hfits
  rw [Nat.mod_eq_of_lt (by omega : n.toNat * pageSize < 2 ^ 32), Nat.mod_eq_of_lt hfits]

namespace PageInv

/-- Under the invariant, the ranges are right. -/
theorem right (h : PageInv I s) : PagesRight I s.given := by
  refine ⟨h.disjoint, fun p hp => (h.given p hp).1, fun p hp => ?_⟩
  obtain ⟨-, hge, hle⟩ := h.given p hp
  exact Set.Ico_subset_Ico hge (hle.trans h.le)

/-- A call whose end does not wrap returns the next range. -/
theorem call (h : PageInv I s) (hcall : s.call I n = some s') (hfits : s.Fits n) :
    PageInv I s' := by
  obtain ⟨hgiven, hle, hnext⟩ := PageRun.call_cases hcall
  have hnext := hnext hfits
  refine ⟨?_, ?_, hle, ?_, ?_⟩
  · rw [hnext]
    exact h.aligned.add (Dvd.intro_left _ rfl)
  · rw [hnext]
    exact h.ge.trans (Nat.le_add_right _ _)
  · rw [hgiven, hnext]
    intro p hp
    rcases List.mem_cons.1 hp with rfl | hp
    · exact ⟨h.aligned, h.ge, le_rfl⟩
    · obtain ⟨hdvd, hge, hlast⟩ := h.given p hp
      exact ⟨hdvd, hge, hlast.trans (Nat.le_add_right _ _)⟩
  · rw [hgiven]
    refine List.pairwise_cons.2 ⟨fun p hp => ?_, h.disjoint⟩
    -- What was returned before ends where the new range starts.
    have hlast := (h.given p hp).2.2
    exact Set.disjoint_left.2 fun x hx hx' => absurd (hx'.2.trans_le hlast) (not_lt.2 hx.1)

/-- A call whose end wraps returns a range that is not inside. -/
theorem fits (h : PageInv I s) (hcall : s.call I n = some s') (hright : PagesRight I s'.given) :
    s.Fits n := by
  rw [(PageRun.call_cases hcall).1] at hright
  by_contra hwrap
  rw [PageRun.Fits, not_lt] at hwrap
  have hend := I.freeRamEnd_lt
  have hle := h.le
  have hmem := hright.inside _ List.mem_cons_self
    (a := s.state.nextPaddr + n.toNat * pageSize - 1) ⟨by simp only; omega, by simp only; omega⟩
  have := hmem.2
  omega

end PageInv

/-- The invariant holds at first. -/
theorem pageInv_init (I : PagedImage) (m : Mem) : PageInv I (.init I m) :=
  ⟨I.dvd_freeRam, le_rfl, Nat.le_add_right _ _, fun _ hp => (nomatch hp), List.Pairwise.nil⟩

theorem PagesRight.tail {p : Pages} {given : List Pages} (h : PagesRight I (p :: given)) :
    PagesRight I given :=
  ⟨(List.pairwise_cons.1 h.disjoint).2, fun q hq => h.aligned q (List.mem_cons_of_mem _ hq),
    fun q hq => h.inside q (List.mem_cons_of_mem _ hq)⟩

/-- A run in which no end wraps keeps the invariant. -/
theorem pageInv_run {m : Mem} {calls : List UInt32}
    (hs : run (PageRun.call I) (.init I m) calls = some s)
    (hfits : ∀ s₁ n, Makes (PageRun.call I) (.init I m) calls s₁ n → s₁.Fits n) : PageInv I s := by
  induction calls using List.reverseRecOn generalizing s with
  | nil => exact Option.some.inj hs ▸ pageInv_init I m
  | append_singleton calls n ih =>
    rw [run_concat, Option.bind_eq_some_iff] at hs
    obtain ⟨s₁, hs₁, hs⟩ := hs
    have h := ih hs₁ fun s₂ n₂ h₂ => hfits s₂ n₂ ((makes_concat hs₁).2 (.inl h₂))
    exact h.call hs (hfits s₁ n ((makes_concat hs₁).2 (.inr ⟨rfl, rfl⟩)))

/-- In every run of `alloc_pages` that does not panic, the ranges that were returned are disjoint,
    aligned and inside the free memory exactly if the end of each, in exact arithmetic, is an
    address of 32 bits. -/
theorem allocPages_right_iff (I : PagedImage) (m : Mem) (calls : List UInt32) (s : PageRun)
    (hs : run (PageRun.call I) (.init I m) calls = some s) :
    PagesRight I s.given ↔
      ∀ s₁ n, Makes (PageRun.call I) (.init I m) calls s₁ n → s₁.Fits n := by
  refine ⟨fun hright => ?_, fun hfits => (pageInv_run hs hfits).right⟩
  induction calls using List.reverseRecOn generalizing s with
  | nil => exact fun s₁ n h => absurd h not_makes_nil
  | append_singleton calls n ih =>
    rw [run_concat, Option.bind_eq_some_iff] at hs
    obtain ⟨s₁, hs₁, hs⟩ := hs
    have hgiven := (PageRun.call_cases hs).1
    have hfits := ih s₁ hs₁ (hgiven ▸ hright).tail
    intro s₂ n₂ h₂
    rcases (makes_concat hs₁).1 h₂ with h₂ | ⟨rfl, rfl⟩
    · exact hfits s₂ n₂ h₂
    · exact (pageInv_run hs₁ hfits).fits hs hright

/-- The small image, with its free memory from `0x80620000` on. -/
def smallPagedImage : PagedImage := { smallImage with ram_fits := by decide }

theorem allocPages_right_iff_three : ∃ s,
    run (PageRun.call smallPagedImage) (.init smallPagedImage fun _ => 0) [1, 2] = some s ∧
      (PagesRight smallPagedImage s.given ↔ ∀ s₁ n,
        Makes (PageRun.call smallPagedImage) (.init smallPagedImage fun _ => 0) [1, 2] s₁ n →
          s₁.Fits n) := by
  obtain ⟨s, hs⟩ : ∃ s,
      run (PageRun.call smallPagedImage) (.init smallPagedImage fun _ => 0) [1, 2] = some s := by
    rw [run_cons, PageRun.call_eq (by decide), Option.bind_some, run_cons,
      PageRun.call_eq (by decide), Option.bind_some]
    exact ⟨_, run_nil _⟩
  exact ⟨s, hs, allocPages_right_iff smallPagedImage _ _ s hs⟩

/-- `2 ^ 20` pages have `2 ^ 32` bytes: none are taken, and the call returns. -/
theorem allocPages_wraps : smallPagedImage.freeRam = 0x80620000 ∧
    ¬ ∀ (I : PagedImage) (m : Mem) (calls : List UInt32) (s : PageRun),
      run (PageRun.call I) (.init I m) calls = some s → PagesRight I s.given := by
  refine ⟨by decide, fun h => ?_⟩
  have hright := h smallPagedImage (fun _ => 0) [0x100000] _
    (by rw [run_cons, PageRun.call_eq (by decide), Option.bind_some, run_nil])
  have hmem := hright.inside _ List.mem_cons_self (a := 0x90000000) ⟨by decide, by decide⟩
  exact absurd hmem.2 (by decide)

/-! ## The memory -/

/-- `memset` in a range that does not wrap. -/
theorem memset_apply {m : Mem} {a k : ℕ} (h : a + k ≤ 2 ^ 32) (c : UInt8) (x : ℕ) :
    memset m a c k x = if a ≤ x ∧ x < a + k then c else m x := by
  induction k generalizing m a with
  | zero => rw [memset, if_neg (by omega)]
  | succ k ih =>
    rw [memset]
    rcases Nat.eq_zero_or_pos k with rfl | hk
    · rw [memset, Function.update_apply]
      exact if_congr (by omega) rfl rfl
    · rw [Nat.mod_eq_of_lt (by omega), ih (by omega), Function.update_apply]
      split_ifs <;> first | rfl | omega

/-- The pages of a call whose end does not wrap are zero, and the rest of the memory is kept. -/
theorem PageRun.call_mem (h : s.call I n = some s') (hfits : s.Fits n) (x : ℕ) :
    s'.state.mem x = if s.state.nextPaddr ≤ x ∧ x < s.state.nextPaddr + n.toNat * pageSize then 0
      else s.state.mem x := by
  obtain ⟨⟨paddr, state⟩, halloc, rfl⟩ := Option.map_eq_some_iff.1 h
  rw [allocPages] at halloc
  split_ifs at halloc with hpanic
  obtain ⟨rfl, rfl⟩ := Prod.mk.inj (Option.some.inj halloc)
  rw [PageRun.Fits] at hfits
  rw [Nat.mod_eq_of_lt (by omega : n.toNat * pageSize < 2 ^ 32)]
  exact memset_apply hfits.le 0 x

end Fru1tOs
