/-
# Frames and the kernel's own image (`kernel/linker.ld`, `kernel/memory/pmm.c`)

`linker.ld` starts the image at 1 MB and ends it at `__bss_end`, which is whatever the sizes of
the kernel's objects add up to.  `pmm_init` does not ask: it reserves up to 2 MB, "to be safe".
The two meet in one number.  A frame the allocator hands out lies outside the image exactly when
the image ends at or below 2 MB (`frames_avoid_image_iff`), and it does not: `msgqueues` alone is
larger than the megabyte in between (`static_objects_pass_kernelEnd`).
-/
import JarvOs.Memory.Pmm

namespace JarvOs.Memory

open JarvOs.Lib

/-! ## 1. Sizes, with 4-byte `int` and `long` -/

/-- `. = 0x100000` in `linker.ld` -/
def linkStart : Nat := 0x100000

/-- `MSGQUEUE_MAX` of `msg.h`: the number of queues, and of messages in a queue. -/
def msgqueueMax : Nat := 16

/-- `MSG_SIZE_MAX` of `msg.h` -/
def msgSizeMax : Nat := 4096

/-- `sizeof(struct msg)`: `long mtype` and the text. -/
def sizeofMsg : Nat := 4 + msgSizeMax

/-- `sizeof(struct msg_queue)`: `key`, `id`, the messages, `head`, `tail`, `count`, `pid_list`,
`pid_count`.  Every member is a multiple of 4 bytes, so there is no padding. -/
def sizeofMsgQueue : Nat := 4 + 4 + msgqueueMax * sizeofMsg + 4 + 4 + 4 + 16 * 4 + 4

/-- `msgqueues[MSGQUEUE_MAX]` -/
def sizeofMsgqueues : Nat := msgqueueMax * sizeofMsgQueue

/-- `kernel_page_table[20][1024]` -/
def sizeofKernelPageTable : Nat := 20 * 1024 * 4

/-- `kernel_page_directory[1024]` -/
def sizeofKernelPageDirectory : Nat := 1024 * 4

/-- A lower bound on the length of the image: these three objects are part of it. -/
def staticBytes : Nat := sizeofMsgqueues + sizeofKernelPageTable + sizeofKernelPageDirectory

/-- The end of the kernel that `pmm_init` assumes. -/
def kernelEnd : Nat := 0x200000

/-- **The assumption of `pmm_init` is false**: the static objects alone reach past 2 MB. -/
theorem static_objects_pass_kernelEnd : kernelEnd < linkStart + staticBytes := by
  decide

/-! ## 2. Histories that free only what they were given -/

/-- The frames the allocations of a history return, in order. -/
def returned : Bitmap → List PmmOp → List Nat
  | _, [] => []
  | bm, .alloc :: ops =>
    match pmmAllocPage bm with
    | some (a, bm') => if a = 0 then returned bm' ops else a :: returned bm' ops
    | none => []
  | bm, .free a :: ops =>
    match pmmFreePage bm a with
    | some bm' => returned bm' ops
    | none => []
  | bm, .reserve start stop :: ops =>
    match pmmMarkReserved bm start stop with
    | some bm' => returned bm' ops
    | none => []

/-- A history of `pmm_alloc_page` and `pmm_free_page` calls in which every freed address is a
frame that was returned before (`seen`). -/
def FreesOwn : List Nat → Bitmap → List PmmOp → Prop
  | _, _, [] => True
  | seen, bm, .alloc :: ops =>
    ∀ a bm', pmmAllocPage bm = some (a, bm') → FreesOwn (a :: seen) bm' ops
  | seen, bm, .free a :: ops =>
    a ∈ seen ∧ a ≠ 0 ∧ ∀ bm', pmmFreePage bm a = some bm' → FreesOwn seen bm' ops
  | _, _, .reserve _ _ :: _ => False

/-- The frame at `a` does not meet the image `[linkStart, bssEnd)`. -/
def AvoidsImage (bssEnd a : Nat) : Prop := a + pageSize ≤ linkStart ∨ bssEnd ≤ a

/-- Such a history never makes a page below 2 MB free, so it never gets one back. -/
theorem returned_ge_kernelEnd (ops : List PmmOp) {seen : List Nat} {bm : Bitmap}
    (hfree : ∀ p ∈ freePages bm, 256 ≤ p) (hseen : ∀ a ∈ seen, a ≠ 0 → kernelEnd ≤ a)
    (hown : FreesOwn seen bm ops) : ∀ a ∈ returned bm ops, kernelEnd ≤ a := by
  induction ops generalizing seen bm with
  | nil => simp [returned]
  | cons o ops ih =>
    cases o with
    | alloc =>
      rcases pmmAllocPage_spec bm with ⟨-, he⟩ | ⟨h, bm', he, hf⟩
      · simp only [returned, he, if_true]
        refine ih hfree (fun a ha h0 => ?_) (hown 0 bm he)
        rcases List.mem_cons.mp ha with rfl | ha
        · exact absurd rfl h0
        · exact hseen a ha h0
      · have hge : kernelEnd ≤ frameAddr ((freePages bm).min' h) := by
          have := hfree _ (Finset.min'_mem _ h)
          simp only [kernelEnd, frameAddr, memoryStartAddr, pageSize]
          omega
        have hne : frameAddr ((freePages bm).min' h) ≠ 0 := by
          simp only [kernelEnd] at hge
          omega
        simp only [returned, he, if_neg hne]
        intro a ha
        rcases List.mem_cons.mp ha with ha | ha
        · rw [ha]; exact hge
        · refine ih (fun p hp => ?_) (fun b hb h0 => ?_) (hown _ bm' he) a ha
          · rw [hf] at hp
            exact hfree p (Finset.mem_of_mem_erase hp)
          · rcases List.mem_cons.mp hb with hb | hb
            · rw [hb]; exact hge
            · exact hseen b hb h0
    | free a =>
      obtain ⟨hmem, h0, hrest⟩ := hown
      obtain ⟨bm', he, hcase⟩ := pmmFreePage_spec bm a
      simp only [returned, he]
      refine ih (fun p hp => ?_) hseen (hrest bm' he)
      rcases hcase with ⟨hm, hf⟩ | ⟨-, rfl⟩
      · rw [hf] at hp
        rcases Finset.mem_insert.mp hp with rfl | hp
        · have := hseen a hmem h0
          simp only [pageOf, kernelEnd, memoryStartAddr, pageSize] at *
          omega
        · exact hfree p hp
      · exact hfree p hp
    | reserve start stop => exact absurd hown id

/-! ## 3. When the frames stay clear of the image -/

/-- The first allocation of a fresh manager returns the frame at 2 MB. -/
theorem pmmInit_first_frame {bm : Bitmap} (hf : freePages bm = Finset.Ico 256 numberOfPages) :
    ∃ bm', pmmAllocPage bm = some (kernelEnd, bm') := by
  have hmem : 256 ∈ freePages bm := by
    rw [hf, numberOfPages_eq]
    simp
  obtain ⟨bm', he, -⟩ := pmmAllocPage_least ⟨256, hmem⟩
  have hmin : (freePages bm).min' ⟨256, hmem⟩ = 256 := by
    refine le_antisymm (Finset.min'_le _ _ hmem) (Finset.le_min' _ _ _ (fun q hq => ?_))
    rw [hf] at hq
    exact (Finset.mem_Ico.mp hq).1
  refine ⟨bm', ?_⟩
  rw [he, hmin]
  rfl

/-- **Exactly when the frames avoid the kernel image.**  Over every history from `pmm_init` that
frees only frames it was given: all frames returned lie outside `[linkStart, bssEnd)` if and only
if the image ends at or below the 2 MB `pmm_init` assumes, or nothing is ever allocated. -/
theorem frames_avoid_image_iff (bssEnd : Nat) (ops : List PmmOp) :
    ∃ bm₀, pmmInit = some bm₀ ∧ (FreesOwn [] bm₀ ops →
      ((∀ a ∈ returned bm₀ ops, AvoidsImage bssEnd a) ↔
        bssEnd ≤ kernelEnd ∨ PmmOp.alloc ∉ ops)) := by
  obtain ⟨bm₀, hinit, hf⟩ := pmmInit_spec
  refine ⟨bm₀, hinit, fun hown => ?_⟩
  constructor
  · intro hsafe
    cases ops with
    | nil => exact Or.inr (by simp)
    | cons o ops =>
      -- nothing has been returned yet, so the first call cannot be a free
      cases o with
      | alloc =>
        obtain ⟨bm', he⟩ := pmmInit_first_frame hf
        have hmem : kernelEnd ∈ returned bm₀ (.alloc :: ops) := by
          simp [returned, he, kernelEnd]
        rcases hsafe _ hmem with h | h
        · exact absurd h (by decide)
        · exact Or.inl h
      | free a => exact absurd hown.1 (by simp)
      | reserve start stop => exact absurd hown id
  · rintro (hle | hnone)
    · intro a ha
      have hlow : ∀ p ∈ freePages bm₀, 256 ≤ p := fun p hp => by
        rw [hf] at hp; exact (Finset.mem_Ico.mp hp).1
      have hge := returned_ge_kernelEnd ops hlow (by simp) hown a ha
      exact Or.inr (hle.trans hge)
    · cases ops with
      | nil => simp [returned]
      | cons o ops =>
        cases o with
        | alloc => exact absurd List.mem_cons_self hnone
        | free a => exact absurd hown.1 (by simp)
        | reserve start stop => exact absurd hown id

/-- One allocation after `pmm_init`, with the image no longer than its static objects force it to
be: the frame returned lies inside the image. -/
theorem first_frame_meets_image :
    ∃ bm₀, pmmInit = some bm₀ ∧ FreesOwn [] bm₀ [.alloc] ∧
      ¬ ∀ a ∈ returned bm₀ [.alloc], AvoidsImage (linkStart + staticBytes) a := by
  obtain ⟨bm₀, hinit, hf⟩ := pmmInit_spec
  obtain ⟨bm', he⟩ := pmmInit_first_frame hf
  refine ⟨bm₀, hinit, fun _ _ _ => trivial, fun hsafe => ?_⟩
  have hmem : kernelEnd ∈ returned bm₀ [.alloc] := by simp [returned, he, kernelEnd]
  rcases hsafe _ hmem with h | h
  · exact absurd h (by decide)
  · exact absurd h (by decide)

end JarvOs.Memory
