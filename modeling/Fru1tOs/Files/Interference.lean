import Fru1tOs.Files.Origin

/-!
# Interference between files

What a read of a file returns, in two runs of the same calls with other data in the other files.

* `Records`: in a run, the byte at an address is the one that its origin has stored;
* `eq_of_origin_none`: where there is no origin, the two runs have the same byte;
* `fs_read_same_iff`: so a read is the same in all such runs exactly if every byte it returns that
  has an origin was written to the file since it was last deleted.
-/

namespace Fru1tOs

open Lib

/-! ## Runs -/

/-- What the memory holds after the calls. -/
structure Records (L : FsLayout) (s : FsRun) (calls : List FileCall) : Prop where
  inv : FsInv L s (history L calls).shape.blocks (history L calls).shape.slots
  place : ∀ a, (history L calls).origin a ≠ none →
    L.heap ≤ a ∧ a < L.heapEnd ∧ ¬ InHeader L.heap (history L calls).shape.blocks a
  bytes : ∀ a j o, (history L calls).origin a = some (j, o) →
    ∃ name data, calls[j]? = some (.write name data) ∧ data[o]? = some (s.heap.mem a)

theorem records_init (L : FsLayout) (s₀ : Heap) : Records L (FsRun.init L s₀) [] where
  inv := fsInv_init L s₀
  place _ ha := absurd rfl ha
  bytes _ _ _ ha := nomatch ha

section Step

variable {L : FsLayout} {s s' : FsRun} {calls : List FileCall} {c : FileCall}

/-- A call of a later one is still there. -/
theorem getElem?_concat_of_some {j : ℕ} {d : FileCall} (h : calls[j]? = some d) (c : FileCall) :
    (calls ++ [c])[j]? = some d := by
  obtain ⟨hj, -⟩ := List.getElem?_eq_some_iff.1 h
  rw [List.getElem?_append_left hj, h]

/-- A call, in a run. -/
theorem Records.call (h : Records L s calls) (c : FileCall) :
    ∃ r s', s.call L c.toFsCall = some (r, s') ∧ Records L s' (calls ++ [c]) := by
  obtain ⟨r, s', hs', h', -⟩ := h.inv.call c.toFsCall
  refine ⟨r, s', hs', ?_⟩
  cases htarget : (history L calls).shape.target c with
  | none =>
    have horigin : ∀ a, (history L (calls ++ [c])).origin a =
        if InHeader L.heap ((history L calls).shape.step L c.toFsCall).blocks a then none
        else (history L calls).origin a := fun a => by
      rw [history_concat, FsHistory.step]
      simp only [htarget]
    have hshape : (history L (calls ++ [c])).shape = (history L calls).shape.step L c.toFsCall := by
      rw [history_concat]
      rfl
    refine ⟨by rwa [hshape], fun a ha => ?_, fun a j o ha => ?_⟩
    · rw [horigin] at ha
      split_ifs at ha with hin
      · exact absurd rfl ha
      · obtain ⟨hlo, hhi, -⟩ := h.place a ha
        exact ⟨hlo, hhi, by rwa [hshape]⟩
    · rw [horigin] at ha
      split_ifs at ha with hin
      obtain ⟨hlo, hhi, hold⟩ := h.place a (by rw [ha]; exact Option.some_ne_none _)
      obtain ⟨name, data, hj, hbyte⟩ := h.bytes a j o ha
      refine ⟨name, data, getElem?_concat_of_some hj c, ?_⟩
      rw [h.inv.frame hs' htarget hlo hhi hold hin, hbyte]
  | some p =>
    cases c with
    | create name size => cases htarget
    | read name size => cases htarget
    | delete name => cases htarget
    | write name data =>
      have hm := h.inv.write_mem hs'
      rw [htarget] at hm
      have horigin : ∀ a, (history L (calls ++ [.write name data])).origin a =
          if p ≤ a ∧ a < p + data.length then some (calls.length, a - p)
          else (history L calls).origin a := fun a => by
        rw [history_concat, FsHistory.step, count_history]
        simp only [htarget, FileCall.length]
        exact if_congr Iff.rfl rfl rfl
      have hshape : (history L (calls ++ [.write name data])).shape = (history L calls).shape := by
        rw [history_concat]
        rfl
      refine ⟨by rwa [hshape], fun a ha => ?_, fun a j o ha => ?_⟩
      · rw [horigin] at ha
        rw [hshape]
        split_ifs at ha with hin
        · exact h.inv.target_bounds htarget hin.1 hin.2
        · exact h.place a ha
      · rw [horigin] at ha
        rw [hm]
        split_ifs at ha with hin
        · -- A byte of this call.
          obtain ⟨rfl, rfl⟩ := Prod.mk.inj (Option.some.inj ha)
          have hlt : a - p < data.length := by omega
          refine ⟨name, data, List.getElem?_concat_length, ?_⟩
          have hat := storeBytes_at (m := s.heap.mem) (a := p) hlt
          rw [show p + (a - p) = a by omega] at hat
          simp only
          rw [hat, List.getElem?_eq_getElem hlt]
        · obtain ⟨name', data', hj, hbyte⟩ := h.bytes a j o ha
          refine ⟨name', data', getElem?_concat_of_some hj _, ?_⟩
          simp only
          rw [storeBytes_of_disjoint (by omega), hbyte]

end Step

theorem fsRun_concat {L : FsLayout} {s₀ : Heap} {calls : List FileCall} {c : FileCall}
    {s s' : FsRun} {r : ℤ × List UInt8} (hs : fsRun L s₀ calls = some s)
    (hs' : s.call L c.toFsCall = some (r, s')) : fsRun L s₀ (calls ++ [c]) = some s' := by
  rw [fsRun] at hs ⊢
  rw [run_concat, hs, Option.bind_some, hs', Option.map_some]

/-- Every run is recorded. -/
theorem exists_records (L : FsLayout) (s₀ : Heap) (calls : List FileCall) :
    ∃ s, fsRun L s₀ calls = some s ∧ Records L s calls := by
  induction calls using List.reverseRecOn with
  | nil => exact ⟨_, rfl, records_init L s₀⟩
  | append_singleton calls c ih =>
    obtain ⟨s, hs, h⟩ := ih
    obtain ⟨r, s', hs', h'⟩ := h.call c
    exact ⟨s', fsRun_concat hs hs', h'⟩

/-- An address without origin after a call, other than in a header, had none before, and the call
    has not stored its data there. -/
theorem FsHistory.of_origin_none {L : FsLayout} {x : FsHistory} {c : FileCall} {a : ℕ}
    (ha : (x.step L c).origin a = none) (hin : ¬ InHeader L.heap (x.step L c).shape.blocks a) :
    x.origin a = none ∧ ∀ p, x.shape.target c = some p → a < p ∨ p + c.length ≤ a := by
  have hin' : ¬ InHeader L.heap (x.shape.step L c.toFsCall).blocks a := hin
  simp only [FsHistory.step] at ha
  cases htarget : x.shape.target c with
  | none =>
    rw [htarget] at ha
    simp only [if_neg hin'] at ha
    exact ⟨ha, by simp⟩
  | some q =>
    rw [htarget] at ha
    simp only at ha
    split_ifs at ha with hrange
    refine ⟨ha, fun p hp => ?_⟩
    obtain rfl := Option.some.inj hp
    omega

/-- The last calls of two runs. -/
theorem forall₂_concat {calls calls' : List FileCall} {c' : FileCall}
    (h : List.Forall₂ FileCall.Same calls (calls' ++ [c'])) :
    ∃ init c, calls = init ++ [c] ∧ List.Forall₂ FileCall.Same init calls' ∧ c.Same c' := by
  obtain ⟨c, l, hc, hl, hdrop⟩ := List.forall₂_cons_right_iff.1 (List.forall₂_drop_append _ _ _ h)
  obtain rfl := List.forall₂_nil_right_iff.1 hl
  refine ⟨calls.take calls'.length, c, ?_, List.forall₂_take_append _ _ _ h, hc⟩
  rw [← hdrop, List.take_append_drop]

/-- Where there is no origin, two runs of the same calls with other data have the same byte. -/
theorem eq_of_origin_none {L : FsLayout} {s₀ : Heap} {calls calls' : List FileCall}
    (hsame : List.Forall₂ FileCall.Same calls calls') {s s' : FsRun}
    (hs : fsRun L s₀ calls = some s) (hs' : fsRun L s₀ calls' = some s') {a : ℕ}
    (ha : (history L calls).origin a = none) : s.heap.mem a = s'.heap.mem a := by
  induction calls' using List.reverseRecOn generalizing calls s s' a with
  | nil =>
    obtain rfl := List.forall₂_nil_right_iff.1 hsame
    rw [Option.some.inj (hs.symm.trans hs')]
  | append_singleton calls' c' ih =>
    obtain ⟨calls, c, rfl, hcalls, hc⟩ := forall₂_concat hsame
    obtain ⟨t, ht, h⟩ := exists_records L s₀ calls
    obtain ⟨t', ht', h'⟩ := exists_records L s₀ calls'
    obtain ⟨r, u, hu, hrec⟩ := h.call c
    obtain ⟨r', u', hu', hrec'⟩ := h'.call c'
    obtain rfl := Option.some.inj ((fsRun_concat ht hu).symm.trans hs)
    obtain rfl := Option.some.inj ((fsRun_concat ht' hu').symm.trans hs')
    have hinv' := hrec'.inv
    rw [← history_congr hsame] at hinv'
    by_cases hin : InHeader L.heap (history L (calls ++ [c])).shape.blocks a
    · exact hinv'.heap.tiled.eq_of_inHeader hrec.inv.heap.tiled hin
    · have hold := h'.inv
      rw [← history_congr hcalls] at hold
      rw [history_concat] at hin ha
      obtain ⟨hnone, hout⟩ := FsHistory.of_origin_none ha hin
      exact h.inv.congr_call hold hc hu hu' hout (ih hcalls ht ht' hnone)

/-! ## Reads -/

/-- The call `j` is one of `fs_write` to the file, which has not been deleted since. -/
def OwnWrite (f : FileName) (calls : List FileCall) (j : ℕ) : Prop :=
  (∃ data, calls[j]? = some (.write f data)) ∧ .delete f ∉ calls.drop j

/-- The same calls, but for the data that are not those of the file: what is written to other
    files, or to it before it was last deleted. -/
structure SameBut (f : FileName) (calls calls' : List FileCall) : Prop where
  same : List.Forall₂ FileCall.Same calls calls'
  own : ∀ j, OwnWrite f calls j → calls'[j]? = calls[j]?

/-- Of the bytes that a read returns, those that have an origin were written to the file since it
    was last deleted. -/
def ReadsOwn (L : FsLayout) (calls : List FileCall) (f : FileName) (size : ℕ) : Prop :=
  ∀ slot ∈ slotOf (history L calls).shape.slots f, ∀ k < min size slot.size, ∀ j o,
    (history L calls).origin (slot.data + k) = some (j, o) → OwnWrite f calls j

/-- What `fs_read` returns. -/
theorem Table.fsRead_eq {L : FsLayout} {s : Heap} {slots : Fin maxFiles → Option Slot}
    (h : Table L s.mem slots) (name : FileName) (size : ℕ) :
    fsRead L s name size = match slotOf slots name with
      | none => (-1, [])
      | some f => (((min size f.size : ℕ) : ℤ), loadBytes s.mem f.data (min size f.size)) := by
  rw [fsRead, slotOf, h.fsFind_eq_findSlot]
  cases hfind : findSlot slots name with
  | none => rfl
  | some i =>
    obtain ⟨f, hf, -⟩ := h.fsFind_eq_some.1 ((h.fsFind_eq_findSlot name).trans hfind)
    have hholds := h.holds i
    rw [hf] at hholds
    have hmin : (if size < f.size then size else f.size) = min size f.size := by
      split_ifs <;> omega
    simp only [Option.bind_some, hf, hholds.2.2.1, hholds.2.2.2, hmin]

/-- Two reads, with the same slots. -/
theorem Table.fsRead_eq_iff {L : FsLayout} {s s' : Heap} {slots : Fin maxFiles → Option Slot}
    (h : Table L s.mem slots) (h' : Table L s'.mem slots) (name : FileName) (size : ℕ) :
    fsRead L s name size = fsRead L s' name size ↔ ∀ f ∈ slotOf slots name,
      ∀ k < min size f.size, s.mem (f.data + k) = s'.mem (f.data + k) := by
  rw [h.fsRead_eq, h'.fsRead_eq]
  cases slotOf slots name with
  | none => simp
  | some f =>
    simp only [Prod.mk.injEq, true_and, Option.mem_def, Option.some.injEq, forall_eq', loadBytes,
      List.map_inj_left, List.mem_range]

/-- A call is replaced by one with other data. -/
theorem forall₂_set {calls : List FileCall} {j : ℕ} {c c' : FileCall} (hj : calls[j]? = some c)
    (hc : c.Same c') : List.Forall₂ FileCall.Same calls (calls.set j c') := by
  refine List.forall₂_iff_get.2 ⟨(List.length_set).symm, fun i h₁ h₂ => ?_⟩
  rw [List.get_eq_getElem, List.get_eq_getElem, List.getElem_set]
  split_ifs with hij
  · subst hij
    rw [List.getElem?_eq_getElem h₁, Option.some_inj] at hj
    rwa [hj]
  · exact FileCall.Same.refl _

/-- A read returns the same in all runs that differ in the data of other files, exactly if no byte
    that it returns comes from them. -/
theorem fs_read_same_iff (L : FsLayout) (s₀ : Heap) (calls : List FileCall) (f : FileName)
    (size : UInt32) :
    (∀ calls', SameBut f calls calls' → ∃ s s', fsRun L s₀ calls = some s ∧
      fsRun L s₀ calls' = some s' ∧
      fsRead L s.heap f size.toNat = fsRead L s'.heap f size.toNat) ↔
    ReadsOwn L calls f size.toNat := by
  obtain ⟨s, hs, h⟩ := exists_records L s₀ calls
  constructor
  · intro hall slot hslot k hk j o horigin
    by_contra hown
    -- The byte is replaced in the call that it comes from.
    obtain ⟨name, data, hj, hbyte⟩ := h.bytes _ j o horigin
    obtain ⟨b, hb⟩ : ∃ b, b ≠ s.heap.mem (slot.data + k) := by
      by_cases h0 : s.heap.mem (slot.data + k) = 0
      · exact ⟨1, by rw [h0]; decide⟩
      · exact ⟨0, Ne.symm h0⟩
    have hsame : List.Forall₂ FileCall.Same calls (calls.set j (.write name (data.set o b))) :=
      forall₂_set hj ⟨rfl, List.length_set.symm⟩
    have hbut : SameBut f calls (calls.set j (.write name (data.set o b))) := by
      refine ⟨hsame, fun i hi => List.getElem?_set_ne ?_⟩
      rintro rfl
      exact hown hi
    obtain ⟨t, t', ht, ht', hread⟩ := hall _ hbut
    obtain ⟨s', hs', h'⟩ := exists_records L s₀ (calls.set j (.write name (data.set o b)))
    obtain rfl := Option.some.inj (ht.symm.trans hs)
    obtain rfl := Option.some.inj (ht'.symm.trans hs')
    have hinv' := h'.inv
    rw [← history_congr hsame] at hinv'
    rw [h.inv.table.fsRead_eq_iff hinv'.table] at hread
    obtain ⟨name', data', hj', hbyte'⟩ := h'.bytes _ j o (by rw [← history_congr hsame, horigin])
    rw [List.getElem?_set_self (List.getElem?_eq_some_iff.1 hj).1, Option.some_inj,
      FileCall.write.injEq] at hj'
    rw [← hj'.2, List.getElem?_set_self (List.getElem?_eq_some_iff.1 hbyte).1, Option.some_inj,
      ← hread slot hslot k hk] at hbyte'
    exact hb hbyte'
  · intro hown calls' hbut
    obtain ⟨s', hs', h'⟩ := exists_records L s₀ calls'
    refine ⟨s, s', hs, hs', ?_⟩
    have hinv' := h'.inv
    rw [← history_congr hbut.same] at hinv'
    rw [h.inv.table.fsRead_eq_iff hinv'.table]
    intro slot hslot k hk
    cases horigin : (history L calls).origin (slot.data + k) with
    | none => exact eq_of_origin_none hbut.same hs hs' horigin
    | some jo =>
      obtain ⟨j, o⟩ := jo
      -- The same call has stored the byte in both runs.
      obtain ⟨name, data, hj, hbyte⟩ := h.bytes _ j o horigin
      obtain ⟨name', data', hj', hbyte'⟩ :=
        h'.bytes _ j o (by rw [← history_congr hbut.same, horigin])
      rw [hbut.own j (hown slot hslot k hk j o horigin), hj, Option.some_inj,
        FileCall.write.injEq] at hj'
      rw [← hj'.2, hbyte, Option.some_inj] at hbyte'
      exact hbyte'

/-! ## What is left of a deleted file -/

/-- The file `f`. -/
def fileF : FileName := ⟨[102], by simp⟩

/-- The file `g`. -/
def fileG : FileName := ⟨[103], by simp⟩

/-- The file `g` is written and deleted, and `f` is created. -/
def leakCalls (byte : UInt8) : List FileCall :=
  [.create fileG 8, .write fileG [byte], .delete fileG, .create fileF 8]

/-- The first byte of `f` is the one that was written to `g`. -/
theorem fsRead_leakCalls (byte : UInt8) : ∃ s,
    fsRun default ⟨fun _ => 0, 0⟩ (leakCalls byte) = some s ∧
      fsRead default s.heap fileF 1 = (1, [byte]) := by
  obtain ⟨s, hs, h⟩ := exists_records default ⟨fun _ => 0, 0⟩ (leakCalls byte)
  refine ⟨s, hs, ?_⟩
  have hslot : slotOf (history default (leakCalls byte)).shape.slots fileF =
      some ⟨fileF, 0x8021000c, 8⟩ := rfl
  obtain ⟨name, data, hj, hbyte⟩ := h.bytes 0x8021000c 1 0 rfl
  obtain ⟨-, rfl⟩ := FileCall.write.inj (Option.some.inj hj)
  rw [h.inv.table.fsRead_eq, hslot]
  have hmem : s.heap.mem 0x8021000c = byte := (Option.some.inj hbyte).symm
  simp [loadBytes, hmem]

/-- A byte of a deleted file is read in a new one. -/
theorem fs_read_leaks : SameBut fileF (leakCalls 1) (leakCalls 2) ∧ ∃ s s',
    fsRun default ⟨fun _ => 0, 0⟩ (leakCalls 1) = some s ∧
    fsRun default ⟨fun _ => 0, 0⟩ (leakCalls 2) = some s' ∧
    fsRead default s.heap fileF 1 = (1, [1]) ∧ fsRead default s'.heap fileF 1 = (1, [2]) := by
  refine ⟨⟨.cons rfl (.cons ⟨rfl, rfl⟩ (.cons rfl (.cons rfl .nil))), ?_⟩, ?_⟩
  · -- Nothing is written to `f`.
    rintro j ⟨⟨data, hj⟩, -⟩
    have hmem := List.mem_of_getElem? hj
    have hne : fileF ≠ fileG := by decide
    simp [leakCalls, hne] at hmem
  · obtain ⟨s, hs, hread⟩ := fsRead_leakCalls 1
    obtain ⟨s', hs', hread'⟩ := fsRead_leakCalls 2
    exact ⟨s, s', hs, hs', hread, hread'⟩

end Fru1tOs
