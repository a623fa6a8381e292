import Fru1tOs.Cfs.Sched
import Fru1tOs.Epoll.Run
import Fru1tOs.Rbtree.WellFormed

/-!
# How far the loops on the trees go

What the trees are red-black for: no loop on a tree of `n` nodes makes more than `rbPasses n`
passes, which is twice the logarithm of `n + 1`, and one. A loop that ends under this bound makes
no more passes.

* `rb_logarithmic`: the loops of `rbtree.c`, on any well-formed tree.
* `epoll_descents_logarithmic`, `cfs_descents_logarithmic`: the descents of the callers, in every
  state that they reach.
-/

namespace Fru1tOs

open Lib RBTree

/-- The bound of the loops on a tree of `n` nodes. -/
def rbPasses (n : ℕ) : ℕ := 2 * Nat.log 2 (n + 1) + 1

theorem height_lt_rbPasses {P : Type*} {t : RBTree P} (h : t.IsRB) :
    t.height < rbPasses t.toList.length := by
  have := h.height_le
  rw [rbPasses, length_toList]
  omega

section Rbtree

variable {P : Type*} [DecidableEq P] {s : RbState P} {l : List P}

/-- Under the bound, the walk from a node to the next one, and the insertion and the removal of a
    node, do on a well-formed tree what they have to. -/
theorem rb_logarithmic (h : RbWellFormed s l) :
    rbFirst (rbPasses l.length) s = some l.head? ∧
    (∀ l₁ a l₂, l = l₁ ++ a :: l₂ → rbNext (rbPasses l.length) s a = some l₂.head?) ∧
    (∀ a parent d, a ∉ l → EmptyPlace s l parent d → ∃ s',
      rbInsertColor (rbPasses l.length) (rbLink s a parent d) a = some s' ∧
      RbWellFormed s' (insertBeside a parent d l)) ∧
    ∀ a ∈ l, ∃ s', rbErase (rbPasses l.length) s a = some s' ∧ RbWellFormed s' (l.erase a) := by
  obtain ⟨t, hr, hrb, rfl⟩ := h
  have hlt := height_lt_rbPasses hrb
  refine ⟨rbFirst_of_height _ hr hlt.le, fun l₁ a l₂ hl => rbNext_of_height _ hr hl hlt.le,
    fun a parent d ha hplace => ?_, fun a ha => ?_⟩
  · obtain ⟨p, hp, hlink, hlist⟩ := hplace.exists_plug hr a
    rw [hp] at hr hrb ha hlt
    obtain ⟨s', t', hs', hr', hrb', hl', -⟩ := rbInsert_of_height _ hr hrb ha hlt
    rw [← hp, hlink] at hs'
    exact ⟨s', hs', t', hr', hrb', hl'.trans hlist⟩
  · obtain ⟨s', t', hs', hr', hrb', hl', -⟩ := rbErase_of_height _ hr hrb ha hlt
    exact ⟨s', hs', t', hr', hrb', hl'⟩

theorem rb_logarithmic_three : rbPasses 3 = 5 ∧ rbNext 5 threeNodes 1 = some (some 2) ∧
    ∃ s', rbErase 5 threeNodes 2 = some s' ∧ RbWellFormed s' [1, 3] := by
  have hpasses : rbPasses 3 = 5 := by decide +kernel
  obtain ⟨-, hnext, -, herase⟩ := rb_logarithmic threeNodes_wellFormed
  have hnext := hnext [] 1 [2, 3] rfl
  have herase := herase 2 (by decide)
  rw [show [1, 2, 3].length = 3 from rfl, hpasses] at hnext herase
  exact ⟨hpasses, hnext, herase⟩

end Rbtree

/-! ## The callers -/

/-- In every state of a run of calls on descriptors and epoll instances, the descents to an item
    and to the place for a new one end under the bound, with the result of the calls. -/
theorem epoll_descents_logarithmic (s₀ : Epoll) (calls : List EpollCall) :
    ∃ s, run (fun s c => (epollCall s c).map Prod.snd) (fdInit (epollInit s₀)) calls = some s ∧
      ∀ i, (s.instances i).inUse = true → ∃ l, RbWellFormed (s.tree i) l ∧
        (s.instances i).numItems = l.length ∧ ∀ fd,
        (∃ r, epollFindItem s i fd = some r ∧
          loop (epollFindPass s fd) (rbPasses l.length) (s.instances i).itemsTree = some r) ∧
        (epollFindItem s i fd = some none → ∃ place,
          loop (epollInsertPass s fd) epollFuel ((s.instances i).itemsTree, none, .left) =
            some (some place) ∧
          loop (epollInsertPass s fd) (rbPasses l.length)
            ((s.instances i).itemsTree, none, .left) = some (some place)) := by
  obtain ⟨s, hs, ts, h⟩ := run_epollInv s₀ calls
  refine ⟨s, hs, fun i hi => ?_⟩
  obtain ⟨ht, -⟩ := h.tree i hi
  generalize ts i = t at ht
  have hlt := height_lt_rbPasses ht.rb
  refine ⟨t.toList, ⟨t, ht.repr, ht.rb, rfl⟩, ht.numItems, fun fd => ⟨?_, fun hnone => ?_⟩⟩
  · refine ⟨_, epollFindItem_spec ht fd, ?_⟩
    obtain ⟨r, hr, rfl⟩ := loop_of_variant (epollFindPass_spec ht fd)
      ⟨[], t, rfl, rfl, ht.repr.root, by simp [Between]⟩ hlt
    exact hr
  · have hfd : ∀ a ∈ t.toList, (s.items a).fd ≠ fd := fun a ha heq => by
      rw [epollFindItem_spec ht, Option.some_inj, List.find?_eq_none] at hnone
      exact hnone a ha (decide_eq_true heq)
    obtain ⟨p, hp, -, hdescent⟩ := epollInsertDescent_spec ht hfd
    have hroot : (s.instances i).itemsTree = t.root := ht.repr.root
    obtain ⟨r, hr, -⟩ := loop_of_variant (epollInsertPass_spec ht hfd)
      (s := ((s.instances i).itemsTree, none, .left))
      ⟨[], t, rfl, rfl, by rw [hroot]; rfl, by simp [Between]⟩ hlt
    exact ⟨_, hdescent, loop_unique hr hdescent ▸ hr⟩

/-- In every state of a run of creations and ticks, the descent to the place of a task ends under
    the bound, whatever its virtual runtime. -/
theorem cfs_descents_logarithmic (s₀ : Cfs) (calls : List CfsCall) :
    ∃ s, run cfsCall (cfsInit s₀) calls = some s ∧ ∃ l, RbWellFormed s.timeline l ∧
      s.nrRunning = l.length ∧ ∀ v, ∃ place,
        loop (cfsDescentPass s v) cfsFuel (s.timeline.root, none, .left, true) = some place ∧
        loop (cfsDescentPass s v) (rbPasses l.length) (s.timeline.root, none, .left, true) =
          some place := by
  obtain ⟨s, hs, t, h⟩ := run_sched s₀ calls
  have hq := h.queue
  refine ⟨s, hs, t.toList, ⟨t, hq.repr, hq.rb, rfl⟩, hq.nrRunning, fun v => ?_⟩
  have hinv : DescentInv s t v t.height (s.timeline.root, none, .left, true) :=
    ⟨[], t, rfl, rfl, hq.repr.root, rfl, rfl, by simp, by simp, by simp⟩
  obtain ⟨p, -, hdescent, -⟩ := cfsDescent_spec hq v
  obtain ⟨r, hr, -⟩ := loop_of_variant (cfsDescentPass_spec hq v) hinv (height_lt_rbPasses hq.rb)
  exact ⟨_, hdescent, loop_unique hr hdescent ▸ hr⟩

end Fru1tOs
