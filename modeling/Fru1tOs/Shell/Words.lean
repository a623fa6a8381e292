import Fru1tOs.Shell.Tokens

/-!
# Words in the heap

Copying a word takes a block for it, in which it is then a string, and changes no other block that
is in use (`HeapInv.copyWord`). So the copies of several words are different blocks, each with its
word, as long as `kmalloc` does not return `NULL` (`HeapInv.copyWords`).
-/

namespace Fru1tOs

open Lib

variable {L : HeapLayout} {s : Heap} {live : List ℕ} {bs : List Block}

/-- A word is copied in a new block, unless `kmalloc` returns `NULL`. -/
theorem HeapInv.copyWord (h : HeapInv L ⟨s, live⟩ bs) {w : List UInt8}
    (hw : w.length < shellBufferSize) :
    (∃ s', Fru1tOs.copyWord s w = some (0, s')) ∨
    ∃ p s' bs' n, Fru1tOs.copyWord s w = some (p, s') ∧ w.length + 1 ≤ n ∧
      HeapInv L ⟨s', p :: live⟩ bs' ∧ StoresStr s'.mem p w ∧
      Keeps L (usedAt L.heap bs) s.mem s'.mem ∧
      (∀ u, u ∈ usedAt L.heap bs' ↔ u = (p, n) ∨ u ∈ usedAt L.heap bs) ∧
      allocBlocks L.heap (roundUp (w.length + 1)) bs = some (p, bs') := by
  rcases h.kmalloc (w.length + 1) with
    ⟨hk, -⟩ | ⟨p, h', bs', n, -, -, hk, -, hround, hinv, hkeeps, hused, halloc, -⟩
  · simp only at hk
    exact .inl ⟨_, by rw [Fru1tOs.copyWord, hk]; rfl⟩
  simp only at hk hinv hkeeps
  have hn : w.length + 1 ≤ n := by
    simp only [shellBufferSize] at hw
    rw [roundUp] at hround
    omega
  have hp : (p, n) ∈ usedAt L.heap bs' := (hused _).2 (.inl rfl)
  have hframe : ∀ x, x < p ∨ p + n ≤ x → strcpy h'.mem p w x = h'.mem x := fun x hx =>
    storeBytes_of_disjoint (by rw [List.length_append, List.length_singleton]; omega)
  -- The block is not one of those that were in use.
  have hnew : p ∉ live := (List.nodup_cons.1 (hinv.live.nodup_iff.2 (nodup_usedAt L.heap bs'))).1
  have hbounds := hinv.used_bounds hp
  refine .inr ⟨p, { h' with mem := strcpy h'.mem p w }, bs', n,
    by rw [Fru1tOs.copyWord, hk]; rfl, hn, hinv.of_payload hp hframe, storesStr_strcpy _ _ _,
    fun x hx => ?_, hused, halloc⟩
  refine (hframe x ?_).trans (hkeeps x hx)
  rcases hx with hx | hx | ⟨u, hu, hx, hx'⟩
  · omega
  · omega
  · have hne : u.1 ≠ p := fun heq => hnew (heq ▸ h.mem_used.1 (List.mem_map_of_mem hu))
    have hdisj := usedAt_disjoint ((hused u).2 (.inr hu)) hp hne
    simp only at hdisj
    omega

/-- `kmalloc` does not return `NULL` for any of the words, copied one after another. -/
def KmallocSucceeds : Heap → List (List UInt8) → Prop
  | _, [] => True
  | s, w :: ws => ∀ arg s', copyWord s w = some (arg, s') → arg ≠ 0 ∧ KmallocSucceeds s' ws

/-- Words are copied in new blocks, which are different. -/
theorem HeapInv.copyWords {ws : List (List UInt8)} (h : HeapInv L ⟨s, live⟩ bs)
    (hws : ∀ w ∈ ws, w.length < shellBufferSize) (hk : KmallocSucceeds s ws) :
    ∃ args s' bs', Fru1tOs.copyWords s ws = some (args, s') ∧
      HeapInv L ⟨s', args ++ live⟩ bs' ∧ List.Forall₂ (StoresStr s'.mem) args ws ∧
      Keeps L (usedAt L.heap bs) s.mem s'.mem := by
  induction ws generalizing s live bs with
  | nil => exact ⟨[], s, bs, rfl, h, .nil, fun _ _ => rfl⟩
  | cons w ws ih =>
    rcases h.copyWord (hws w List.mem_cons_self) with
      ⟨s', hs'⟩ | ⟨p, s₁, bs₁, n, hs₁, hn, h₁, hstr, hkeeps, hused, -⟩
    · exact absurd rfl (hk 0 s' hs').1
    obtain ⟨args, s', bs', hs', h', hwords, hkeeps'⟩ := ih h₁
      (fun w' hw' => hws w' (List.mem_cons_of_mem _ hw')) (hk p s₁ hs₁).2
    refine ⟨p :: args, s', bs', ?_, h'.congr (fun _ _ _ => rfl) List.perm_middle.symm,
      .cons (hstr.congr fun x hx hx' => ?_) hwords, fun x hx => ?_⟩
    · rw [copyWords_cons, hs₁, Option.bind_some, hs']
      rfl
    · -- The first word is in a block that the other copies keep.
      exact hkeeps' x (.inr (.inr ⟨(p, n), (hused _).2 (.inl rfl), hx, by simp only; omega⟩))
    · rw [hkeeps' x, hkeeps x hx]
      rcases hx with hx | hx | ⟨u, hu, hx⟩
      · exact .inl hx
      · exact .inr (.inl hx)
      · exact .inr (.inr ⟨u, (hused u).2 (.inr hu), hx⟩)

end Fru1tOs
