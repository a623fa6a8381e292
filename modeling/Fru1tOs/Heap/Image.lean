import Fru1tOs.Heap.Coalesce

/-!
# The kernel image

Where `kernel.ld` puts the heap and the stack that `boot` starts `kernel_main` on. The output
sections come one after the other from `0x80200000` on, each aligned as its contents ask for; the
array `heap` is somewhere in `.bss`, the last of them. The top of the stack is fixed, and is not
after what the sections take: the heap, which is larger than what is between the start of the image
and `__stack_top`, ends after it in every image.

* `exists_payload_bootStack`: one call of `kmalloc` can hand out the memory of the stack;
* `payload_disjoint_bootStack_iff`: no payload overlaps the stack, in all runs, when the heap
  starts at the top of the stack, up to a header, and only then.
-/

namespace Fru1tOs

open Lib

/-- An output section: its size, and the alignment its contents ask for. -/
structure OutputSection where
  size : ℕ
  align : ℕ

/-- Where a section starts, at the location counter `dot`. -/
def OutputSection.start (o : OutputSection) (dot : ℕ) : ℕ :=
  dot + (o.align - dot % o.align) % o.align

/-- The location counter after a section. -/
def OutputSection.after (o : OutputSection) (dot : ℕ) : ℕ := o.start dot + o.size

theorem OutputSection.le_start (o : OutputSection) (dot : ℕ) : dot ≤ o.start dot :=
  Nat.le_add_right _ _

theorem OutputSection.le_after (o : OutputSection) (dot : ℕ) : dot ≤ o.after dot :=
  (o.le_start dot).trans (Nat.le_add_right _ _)

/-- The address the sections start from. -/
def imageBase : ℕ := 0x80200000

/-- `__stack_top`. -/
def stackTop : ℕ := 0x80400000

/-- The output sections. -/
structure Sections where
  textBoot : OutputSection
  text : OutputSection
  rodata : OutputSection
  data : OutputSection
  bss : OutputSection

namespace Sections

/-- The symbol `bss`. -/
def bssDot (S : Sections) : ℕ :=
  S.data.after (S.rodata.after (S.text.after (S.textBoot.after imageBase)))

/-- The symbol `bss_end`. -/
def bssEnd (S : Sections) : ℕ := S.bss.after S.bssDot

theorem imageBase_le_bssDot (S : Sections) : imageBase ≤ S.bssDot :=
  calc imageBase
      _ ≤ S.textBoot.after imageBase := S.textBoot.le_after _
      _ ≤ S.text.after _ := S.text.le_after _
      _ ≤ S.rodata.after _ := S.rodata.le_after _
      _ ≤ S.data.after _ := S.data.le_after _

end Sections

/-- An image: the array `heap` is in `.bss`, and the image is within the address space. -/
structure Image extends Sections where
  heapOffset : ℕ
  heap_in_bss : heapOffset + heapSize ≤ bss.size
  image_fits : toSections.bssEnd ≤ 2 ^ 32

namespace Image

/-- The address of the array `heap`. -/
def heap (I : Image) : ℕ := I.bss.start I.bssDot + I.heapOffset

theorem imageBase_le_heap (I : Image) : imageBase ≤ I.heap :=
  (I.imageBase_le_bssDot.trans (I.bss.le_start _)).trans (Nat.le_add_right _ _)

/-- The array as the allocator has it. -/
def heapLayout (I : Image) : HeapLayout where
  heap := I.heap
  heap_pos := Nat.lt_of_lt_of_le (by decide) I.imageBase_le_heap
  heap_fits := by
    have hbss := I.heap_in_bss
    have hfits := I.image_fits
    rw [Sections.bssEnd, OutputSection.after] at hfits
    rw [heap]
    omega

end Image

/-- The memory of the frames of `kernel_main` and of what it calls, when they take `depth` bytes:
    `boot` sets `sp` to `__stack_top`, and the stack grows downwards. -/
def bootStack (depth : ℕ) : Set ℕ := Set.Ico (stackTop - depth) stackTop

/-- The payload of a pointer. -/
def HeapRun.payloadAt (s : HeapRun) (p : ℕ) : Set ℕ := Set.Ico p (p + s.payload p)

/-- The first `kmalloc` after `memory_init`, of a size the heap has room for, returns the payload
    of the first block. -/
theorem kmalloc_first (L : HeapLayout) (s₀ : Heap) {size : UInt32} (h0 : 0 < size.toNat)
    (hroom : size.toNat ≤ heapSize - 16) :
    ∃ s, run HeapRun.call (HeapRun.init L s₀) [.kmalloc size] = some s ∧ L.heap + 12 ∈ s.live ∧
      size.toNat ≤ s.payload (L.heap + 12) := by
  have hinit := heapInv_init L s₀
  have hround : size.toNat ≤ roundUp size.toNat ∧ roundUp size.toNat ≤ heapSize - 12 := by
    have hlt : size.toNat + 7 < 2 ^ 32 := by
      simp only [heapSize] at hroom
      omega
    rw [roundUp, Nat.mod_eq_of_lt hlt]
    simp only [heapSize] at *
    omega
  rcases hinit.kmalloc size.toNat with
    ⟨-, hno⟩ | ⟨p, h', bs', n, -, -, hk, hp0, hn, hinv, -, hused, halloc, -⟩
  · exact absurd (hno.resolve_left h0.ne' _ List.mem_cons_self rfl) (not_lt.2 hround.2)
  · have hfirst : allocBlocks L.heap (roundUp size.toNat) [⟨heapSize - 12, true⟩] =
        some (L.heap + 12, cut ⟨heapSize - 12, true⟩ (roundUp size.toNat) ++ []) := by
      rw [allocBlocks, if_pos ⟨rfl, hround.2⟩]
    obtain ⟨rfl, -⟩ := Prod.mk.inj (Option.some.inj (hfirst.symm.trans halloc))
    have hpayload := (hused _).1 (hinv.mem_usedAt_of_live List.mem_cons_self)
    refine ⟨⟨h', [L.heap + 12]⟩, ?_, List.mem_singleton.2 rfl, ?_⟩
    · simp only [run_cons, run_nil, HeapRun.call, hk, Option.bind_eq_bind, Option.bind_some,
        Option.pure_def, if_neg hp0]
      rfl
    · rw [usedAt_cons] at hpayload
      simp only [if_true, List.nil_append, usedAt_nil, List.not_mem_nil, or_false,
        Prod.mk.injEq] at hpayload
      exact hround.1.trans (hn.trans hpayload.2.ge)

/-- When the heap starts further below the top of the stack, a `kmalloc` of what is between them
    takes the memory just below it. -/
theorem exists_payload_bootStack (I : Image) {depth : ℕ} (hd : 0 < depth) (s₀ : Heap)
    (size : UInt32) (hroom : size.toNat ≤ heapSize - 16) (hlow : I.heap + 12 < stackTop)
    (hhigh : stackTop ≤ I.heap + 12 + size.toNat) :
    ∃ s, run HeapRun.call (HeapRun.init I.heapLayout s₀) [.kmalloc size] = some s ∧
      ∃ p ∈ s.live, ¬ Disjoint (s.payloadAt p) (bootStack depth) := by
  obtain ⟨s, hs, hlive, hsize⟩ := kmalloc_first I.heapLayout s₀ (by omega) hroom
  have hheap : I.heapLayout.heap = I.heap := rfl
  refine ⟨s, hs, _, hlive, Set.not_disjoint_iff.2 ⟨stackTop - 1, ⟨?_, ?_⟩, ⟨?_, ?_⟩⟩⟩ <;> omega

/-- No payload overlaps the boot stack, in every run, if and only if the heap starts at the top of
    the stack, or not more than a header below it. -/
theorem payload_disjoint_bootStack_iff (I : Image) {depth : ℕ} (hd : 0 < depth) (s₀ : Heap) :
    (∀ calls, ∃ s, run HeapRun.call (HeapRun.init I.heapLayout s₀) calls = some s ∧
      ∀ p ∈ s.live, Disjoint (s.payloadAt p) (bootStack depth)) ↔ stackTop ≤ I.heap + 12 := by
  constructor
  · intro h
    by_contra hlow
    -- The largest size there is room for reaches the top of the stack in every image.
    have hhigh : stackTop ≤ I.heap + 12 + (4194288 : UInt32).toNat :=
      calc stackTop
          _ ≤ imageBase + (4194288 : UInt32).toNat := by decide
          _ ≤ I.heap + 12 + (4194288 : UInt32).toNat :=
            Nat.add_le_add_right (I.imageBase_le_heap.trans (Nat.le_add_right _ _)) _
    obtain ⟨s, hs, p, hp, hover⟩ :=
      exists_payload_bootStack I hd s₀ 4194288 (by decide) (not_le.1 hlow) hhigh
    obtain ⟨s', hs', hdisj⟩ := h [.kmalloc 4194288]
    obtain rfl := Option.some.inj (hs.symm.trans hs')
    exact hover (hdisj p hp)
  · intro h calls
    obtain ⟨s, hs, hinv⟩ := heapInv_run I.heapLayout s₀ calls
    refine ⟨s, hs, fun p hp => Set.disjoint_left.2 ?_⟩
    have hinside : I.heap + 12 ≤ p := (hinv.used_bounds (hinv.mem_usedAt_of_live hp)).1
    rintro x ⟨hx, -⟩ ⟨-, hx'⟩
    omega

/-- An image of 64 KiB of code and data, the heap being the first thing in `.bss`. -/
def smallImage : Image where
  textBoot := ⟨0x100, 4⟩
  text := ⟨0xc000, 4⟩
  rodata := ⟨0x3000, 8⟩
  data := ⟨0xf00, 8⟩
  bss := ⟨0x410000, 4096⟩
  heapOffset := 0
  heap_in_bss := by decide
  image_fits := by decide

/-- An image with 2 MiB of data. -/
def largeImage : Image where
  toSections := { smallImage.toSections with data := ⟨0x200000, 8⟩ }
  heapOffset := 0
  heap_in_bss := by decide
  image_fits := by decide

theorem payload_disjoint_bootStack_iff_large :
    0 < 4096 ∧ stackTop ≤ largeImage.heap + 12 ∧
      ∀ calls, ∃ s, run HeapRun.call (HeapRun.init largeImage.heapLayout ⟨fun _ => 0, 0⟩) calls =
        some s ∧ ∀ p ∈ s.live, Disjoint (s.payloadAt p) (bootStack 4096) :=
  ⟨by decide, by decide, (payload_disjoint_bootStack_iff largeImage (by decide) _).2 (by decide)⟩

/-- In the small image, where the heap starts at `0x80210000`, a `kmalloc` of 2 MiB takes the memory
    of the boot stack. -/
theorem kmalloc_overlaps_bootStack :
    smallImage.heap = 0x80210000 ∧
    ¬ ∀ (I : Image) (depth : ℕ), 0 < depth → ∀ (s₀ : Heap) (calls : List HeapCall),
      ∃ s, run HeapRun.call (HeapRun.init I.heapLayout s₀) calls = some s ∧
        ∀ p ∈ s.live, Disjoint (s.payloadAt p) (bootStack depth) := by
  refine ⟨by decide, fun h => ?_⟩
  obtain ⟨s, hs, p, hp, hover⟩ := exists_payload_bootStack smallImage (by decide : 0 < 16)
    ⟨fun _ => 0, 0⟩ 0x200000 (by decide) (by decide) (by decide)
  obtain ⟨s', hs', hdisj⟩ := h smallImage 16 (by decide) ⟨fun _ => 0, 0⟩ [.kmalloc 0x200000]
  obtain rfl := Option.some.inj (hs.symm.trans hs')
  exact hover (hdisj p hp)

end Fru1tOs
