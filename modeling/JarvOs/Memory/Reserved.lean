/-
# Reserved memory (`pmm_mark_reserved` in `kernel/memory/pmm.c`)

`pmm_mark_reserved` divides both ends of its byte range by the page size and takes the pages
`[start_page, end_page)`.  Rounding the start DOWN is right, a page that the range only begins in is
taken.  Rounding the end down is not: the page in which the range ends stays as it was.

So whether a reservation keeps its bytes out of the allocator's hands depends on that one page
(`LastPageKept`), and once it does, it does so for good: no later call makes a page free that was not
handed out after the reservation (`not_returned`).
-/
import JarvOs.Memory.Image

namespace JarvOs.Memory

open JarvOs.Lib

variable {bm bm' : Bitmap} {start stop p : Nat} {seen : List Nat}

/-! ## 1. Histories after a reservation -/

/-- A history of calls in which every freed address is a frame returned before (`seen`); anything may
be reserved. -/
def FreesReturned : List Nat → Bitmap → List PmmOp → Prop
  | _, _, [] => True
  | seen, bm, .alloc :: ops =>
    ∀ a bm', pmmAllocPage bm = some (a, bm') → FreesReturned (a :: seen) bm' ops
  | seen, bm, .free a :: ops =>
    a ∈ seen ∧ ∀ bm', pmmFreePage bm a = some bm' → FreesReturned seen bm' ops
  | seen, bm, .reserve start stop :: ops =>
    ∀ bm', pmmMarkReserved bm start stop = some bm' → FreesReturned seen bm' ops

/-- The frame at `a` meets the bytes `[start, stop)`. -/
def Meets (start stop a : Nat) : Prop := a < stop ∧ start < a + pageSize

/-- **What a reservation is for**: no frame that meets the range is returned later. -/
def StaysReserved (bm : Bitmap) (start stop : Nat) : Prop :=
  ∃ bm', pmmMarkReserved bm start stop = some bm' ∧
    ∀ ops, FreesReturned [] bm' ops → ∀ a ∈ returned bm' ops, ¬ Meets start stop a

/-- A page is out of reach: it is not free, and no address in it has been handed out. -/
structure OutOfReach (p : Nat) (seen : List Nat) (bm : Bitmap) : Prop where
  taken : p ∉ freePages bm
  unseen : ∀ a ∈ seen, Managed a → pageOf a ≠ p

/-- **A page that is out of reach is never returned**, and stays out of reach. -/
theorem not_returned (ops : List PmmOp) (h : OutOfReach p seen bm)
    (hops : FreesReturned seen bm ops) : frameAddr p ∉ returned bm ops := by
  induction ops generalizing seen bm with
  | nil => simp [returned]
  | cons o ops ih =>
    cases o with
    | alloc =>
      rcases pmmAllocPage_spec bm with ⟨-, he⟩ | ⟨hne, bm', he, hf⟩
      · simp only [returned, he, if_true]
        refine ih ⟨h.taken, ?_⟩ (hops 0 bm he)
        intro a ha hm
        rcases List.mem_cons.mp ha with rfl | ha
        · exact absurd hm (by decide)
        · exact h.unseen a ha hm
      · have hmin : (freePages bm).min' hne ≠ p := by
          rintro rfl
          exact h.taken (Finset.min'_mem _ hne)
        have hnext : OutOfReach p (frameAddr ((freePages bm).min' hne) :: seen) bm' := by
          refine ⟨fun hp => h.taken (Finset.mem_of_mem_erase (hf ▸ hp)), ?_⟩
          intro a ha hm
          rcases List.mem_cons.mp ha with ha | ha
          · rwa [ha, pageOf_frameAddr]
          · exact h.unseen a ha hm
        simp only [returned, he, if_neg (frameAddr_ne_zero _), List.mem_cons, not_or]
        refine ⟨fun heq => hmin ?_, ih hnext (hops _ bm' he)⟩
        rw [← pageOf_frameAddr p, heq, pageOf_frameAddr]
    | free a =>
      obtain ⟨hmem, hrest⟩ := hops
      obtain ⟨bm', he, hcase⟩ := pmmFreePage_spec bm a
      simp only [returned, he]
      refine ih ⟨?_, h.unseen⟩ (hrest bm' he)
      rcases hcase with ⟨hm, hf⟩ | ⟨-, rfl⟩
      · rw [hf, Finset.mem_insert, not_or]
        exact ⟨(h.unseen a hmem hm).symm, h.taken⟩
      · exact h.taken
    | reserve start stop =>
      obtain ⟨bm', he, hf⟩ := pmmMarkReserved_spec bm start stop
      simp only [returned, he]
      refine ih ⟨?_, h.unseen⟩ (hops bm' he)
      rw [hf]
      exact fun hp => h.taken (Finset.mem_sdiff.mp hp).1

/-- What is returned is a frame. -/
theorem returned_frame (ops : List PmmOp) :
    ∀ {bm : Bitmap}, ∀ a ∈ returned bm ops, ∃ p < numberOfPages, a = frameAddr p := by
  induction ops with
  | nil => simp [returned]
  | cons o ops ih =>
    intro bm a ha
    cases o with
    | alloc =>
      rcases pmmAllocPage_spec bm with ⟨-, he⟩ | ⟨hne, bm', he, -⟩
      · simp only [returned, he, if_true] at ha
        exact ih a ha
      · simp only [returned, he, if_neg (frameAddr_ne_zero _), List.mem_cons] at ha
        rcases ha with ha | ha
        · exact ⟨_, lt_of_mem_freePages (Finset.min'_mem _ hne), ha⟩
        · exact ih a ha
    | free b =>
      obtain ⟨bm', he, -⟩ := pmmFreePage_spec bm b
      simp only [returned, he] at ha
      exact ih a ha
    | reserve start stop =>
      obtain ⟨bm', he, -⟩ := pmmMarkReserved_spec bm start stop
      simp only [returned, he] at ha
      exact ih a ha

/-- **A free page is returned** by some run of allocations. -/
theorem exists_returned (n : Nat) :
    ∀ {bm : Bitmap} {seen : List Nat}, (freePages bm).card ≤ n → p ∈ freePages bm →
      ∃ ops, FreesReturned seen bm ops ∧ frameAddr p ∈ returned bm ops := by
  induction n with
  | zero =>
    intro bm seen hcard hp
    rw [Finset.card_eq_zero.mp (Nat.le_zero.mp hcard)] at hp
    exact absurd hp (Finset.notMem_empty p)
  | succ n ih =>
    intro bm seen hcard hp
    rcases pmmAllocPage_spec bm with ⟨hempty, -⟩ | ⟨hne, bm', he, hf⟩
    · rw [hempty] at hp
      exact absurd hp (Finset.notMem_empty p)
    · have hmem : (freePages bm).min' hne ∈ freePages bm := Finset.min'_mem _ hne
      by_cases hpm : p = (freePages bm).min' hne
      · refine ⟨[.alloc], fun _ _ _ => trivial, ?_⟩
        simp only [returned, he, if_neg (frameAddr_ne_zero _)]
        rw [hpm]
        exact List.mem_cons_self
      · have hp' : p ∈ freePages bm' := by
          rw [hf]
          exact Finset.mem_erase.mpr ⟨hpm, hp⟩
        have hcard' : (freePages bm').card ≤ n := by
          rw [hf, Finset.card_erase_of_mem hmem]
          omega
        obtain ⟨ops, hops, hret⟩ : ∃ ops,
            FreesReturned (frameAddr ((freePages bm).min' hne) :: seen) bm' ops ∧
              frameAddr p ∈ returned bm' ops := ih hcard' hp'
        refine ⟨.alloc :: ops, ?_, ?_⟩
        · intro a bm₁ he₁
          obtain ⟨rfl, rfl⟩ := Prod.mk.inj (Option.some.inj (he.symm.trans he₁))
          exact hops
        · simp only [returned, he, if_neg (frameAddr_ne_zero _)]
          exact List.mem_cons_of_mem _ hret

/-! ## 2. Which pages are taken -/

/-- The page the range ends in is not left to the allocator: the range ends on a page boundary or
outside of the managed memory, or that page was not free anyway. -/
def LastPageKept (bm : Bitmap) (stop : Nat) : Prop :=
  stop % pageSize = 0 ∨ stop ≤ memoryStartAddr ∨ memoryEndAddr ≤ stop ∨ pageOf stop ∉ freePages bm

/-- Of the managed pages that meet the range, all but the one it ends in are taken. -/
theorem meets_iff (hp : p < numberOfPages) (hlt : start < stop) :
    Meets start stop (frameAddr p) ↔ p ∈ reservedPages start stop ∨
      (¬ (stop % pageSize = 0 ∨ stop ≤ memoryStartAddr ∨ memoryEndAddr ≤ stop) ∧ p = pageOf stop) := by
  rw [numberOfPages_eq] at hp
  unfold Meets reservedPages
  split
  · simp only [frameAddr, pageOf, memoryStartAddr, memoryEndAddr, pageSize, Finset.notMem_empty,
      false_or] at *
    omega
  · simp only [frameAddr, pageOf, memoryStartAddr, memoryEndAddr, pageSize, Finset.mem_Ico] at *
    omega

theorem pageOf_not_reserved (h : ¬ memoryEndAddr ≤ stop) : pageOf stop ∉ reservedPages start stop := by
  unfold reservedPages
  split
  · exact Finset.notMem_empty _
  · rw [Nat.min_eq_left (by omega)]
    simp

/-- **When reserved memory stays reserved.**  For every state of the allocator and every range, no
frame that meets the range is returned by any later history, which may allocate, reserve and free what
it was given in any order, if and only if the page the range ends in was not left free. -/
theorem stays_reserved_iff (bm : Bitmap) (hlt : start < stop) :
    StaysReserved bm start stop ↔ LastPageKept bm stop := by
  obtain ⟨bm', he, hf⟩ := pmmMarkReserved_spec bm start stop
  constructor
  · rintro ⟨bm₁, he₁, hsafe⟩
    obtain rfl := Option.some.inj (he.symm.trans he₁)
    by_contra hkept
    simp only [LastPageKept, not_or, not_not] at hkept
    obtain ⟨hal, hlo, hhi, hfree⟩ := hkept
    have hfree' : pageOf stop ∈ freePages bm' := by
      rw [hf]
      exact Finset.mem_sdiff.mpr ⟨hfree, pageOf_not_reserved hhi⟩
    obtain ⟨ops, hops, hret⟩ := exists_returned _ (le_refl _) hfree'
    refine hsafe ops hops _ hret ((meets_iff (lt_of_mem_freePages hfree) hlt).mpr (Or.inr ?_))
    exact ⟨by simp only [not_or]; exact ⟨hal, hlo, hhi⟩, rfl⟩
  · intro hkept
    refine ⟨bm', he, ?_⟩
    intro ops hops a ha hmeets
    obtain ⟨p, hp, rfl⟩ := returned_frame ops a ha
    refine not_returned ops ⟨?_, by simp⟩ hops ha
    rw [hf, Finset.mem_sdiff, not_and, not_not]
    intro hpfree
    rcases (meets_iff hp hlt).mp hmeets with hres | ⟨hopen, rfl⟩
    · exact hres
    · simp only [not_or] at hopen
      rcases hkept with h | h | h | h
      · exact absurd h hopen.1
      · exact absurd h hopen.2.1
      · exact absurd h hopen.2.2
      · exact absurd hpfree h

theorem stays_reserved_one_page :
    StaysReserved (Vector.replicate bitmapSize 0xFF) 0x200010 0x201000 :=
  (stays_reserved_iff _ (by norm_num)).mpr (Or.inl rfl)

/-- **A reserved byte in a frame.**  One byte at 2 MB is reserved in a fresh allocator, and the next
allocation returns the frame it lies in. -/
theorem reserved_byte_returned : ∃ bm₀ bm', pmmInit = some bm₀ ∧
    pmmMarkReserved bm₀ 0x200000 0x200001 = some bm' ∧ FreesReturned [] bm' [.alloc] ∧
    0x200000 ∈ returned bm' [.alloc] ∧ Meets 0x200000 0x200001 0x200000 := by
  obtain ⟨bm₀, hinit, hf₀⟩ := pmmInit_spec
  obtain ⟨bm', he, hf⟩ := pmmMarkReserved_spec bm₀ 0x200000 0x200001
  have hnone : reservedPages 0x200000 0x200001 = ∅ := rfl
  rw [hnone, Finset.sdiff_empty, hf₀] at hf
  obtain ⟨bm₁, halloc⟩ := pmmInit_first_frame hf
  refine ⟨bm₀, bm', hinit, he, fun _ _ _ => trivial, ?_, by decide, by decide⟩
  simp [returned, halloc, kernelEnd]

end JarvOs.Memory
