/-
# Mappings that fail (`vmm_map_page` and `vmm_alloc_map_page` in `kernel/memory/vmm.c`)

`vmm_alloc_map_page` takes the frame of the page before it knows whether there is one for the table, and
hands it back if there is not.  `pmm_free_page` sets exactly the bit that `pmm_alloc_page` has cleared,
so the bitmap is the SAME bitmap afterwards (`bitmap_ext`), and no table has been written to.

That much needs nothing of the state of the tables.  What goes wrong is the answer: the function returns
`virt_addr` on success and NULL on failure, and for the page at address 0 these are the same.
-/
import JarvOs.Memory.EntryWords

namespace JarvOs.Memory

open JarvOs.Lib
open JarvOs.Syscall (pteAt)

variable {m m' : Machine} {va p flags : Nat}

/-! ## 1. The bitmap as a set -/

/-- The set of free pages determines the bitmap. -/
theorem bitmap_ext {bm bm' : Bitmap} (h : freePages bm = freePages bm') : bm = bm' := by
  have hbit : ∀ q < numberOfPages, isFree bm q = isFree bm' q := by
    intro q hq
    have hmem : q ∈ freePages bm ↔ q ∈ freePages bm' := by rw [h]
    simpa [hq, ← Bool.eq_iff_iff] using hmem
  refine Vector.ext ?_
  intro i hi
  refine UInt8.toNat_inj.mp (Nat.eq_of_testBit_eq ?_)
  intro k
  rcases Nat.lt_or_ge k 8 with hk | hk
  · have hdiv : (8 * i + k) / 8 = i := by omega
    have hmod : (8 * i + k) % 8 = k := by omega
    have hq := hbit (8 * i + k) (by rw [bitmapSize_eq] at hi; rw [numberOfPages_eq]; omega)
    rw [isFree_eq (by omega), isFree_eq (by omega)] at hq
    simpa only [hdiv, hmod] using hq
  · have hbyte : ∀ b : UInt8, b.toNat.testBit k = false := fun b =>
      Nat.testBit_eq_false_of_lt (lt_of_lt_of_le b.toNat_lt (Nat.pow_le_pow_right (by norm_num) hk))
    rw [hbyte, hbyte]

theorem bitmap_eq_of_freeFrames {bm bm' : Bitmap} (h : freeFrames bm = freeFrames bm') : bm = bm' := by
  refine bitmap_ext (Finset.ext ?_)
  intro q
  have hmem : q + 256 ∈ freeFrames bm ↔ q + 256 ∈ freeFrames bm' := by rw [h]
  simpa only [mem_freeFrames, Nat.add_sub_cancel, Nat.le_add_left, true_and] using hmem

/-! ## 2. One call -/

/-- The directory entry `vmm_map_page` reads. -/
def dirEntry (m : Machine) (va : Nat) : Option Nat :=
  m.load32 (add32 (vmmGetCurrentDirectory m) (4 * (va >>> 22)))

/-- Fewer frames than are needed: one, or two if the directory entry is absent. -/
def TooFewFrames (m : Machine) (va : Nat) : Prop :=
  (freeFrames m.bitmap).card < 1 ∨
    ((freeFrames m.bitmap).card < 2 ∧ ∃ pde, dirEntry m va = some pde ∧ ¬ present pde)

/-- **A failed call changes nothing, and fails for want of frames**, whichever of the two it is. -/
structure FailsCleanly (m : Machine) (va flags : Nat) : Prop where
  map : ∀ p m', vmmMapPage m va p flags = some (-1, m') → m' = m
  alloc : ∀ m', vmmAllocMapPage m va flags = some (0, m') → m' = m ∧ TooFewFrames m va

/-- No table is made if and only if one is needed and there is no frame for it. -/
theorem vmmEnsureTable_cases {entry : Option Nat}
    (h : vmmEnsureTable m (vmmGetCurrentDirectory m) (va >>> 22) = some (entry, m')) :
    ∃ pde, dirEntry m va = some pde ∧
      ((entry = none ∧ m' = m ∧ freeFrames m.bitmap = ∅ ∧ ¬ present pde) ∨
        (entry ≠ none ∧ (present pde ∨ freeFrames m.bitmap ≠ ∅))) := by
  simp only [vmmEnsureTable, Option.bind_eq_bind, Option.bind_eq_some_iff] at h
  obtain ⟨pde, hload, h⟩ := h
  refine ⟨pde, hload, ?_⟩
  split at h
  · rename_i habs
    rcases allocPage_spec m with ⟨halloc, hempty⟩ | ⟨t, ht, bm, halloc, -⟩
    · simp only [halloc, Option.bind_some, if_true, Option.some.injEq, Prod.mk.injEq] at h
      exact Or.inl ⟨h.1.symm, h.2.symm, hempty, not_not.mpr habs⟩
    · simp only [halloc, Option.bind_some, if_neg (isFrame_of_free ht).addr_ne_zero,
        Option.bind_eq_some_iff, Option.some.injEq, Prod.mk.injEq] at h
      obtain ⟨_, -, _, -, rfl, -⟩ := h
      exact Or.inr ⟨by simp, Or.inr (Finset.ne_empty_of_mem ht)⟩
  · rename_i hpres
    simp only [Option.some.injEq, Prod.mk.injEq] at h
    obtain ⟨rfl, -⟩ := h
    exact Or.inr ⟨by simp, Or.inl hpres⟩

/-- What `vmm_map_page` answers: 0, or -1 when it has no frame for a table and has done nothing. -/
theorem vmmMapPage_answer {r : Int} (h : vmmMapPage m va p flags = some (r, m')) :
    ∃ pde, dirEntry m va = some pde ∧
      ((r = -1 ∧ m' = m ∧ freeFrames m.bitmap = ∅ ∧ ¬ present pde) ∨
        (r = 0 ∧ (present pde ∨ freeFrames m.bitmap ≠ ∅))) := by
  simp only [vmmMapPage, Option.bind_eq_bind, Option.bind_eq_some_iff] at h
  obtain ⟨⟨entry, m₁⟩, hensure, h⟩ := h
  obtain ⟨pde, hload, ⟨rfl, hsame⟩ | ⟨hentry, henough⟩⟩ := vmmEnsureTable_cases hensure
  · simp only [Option.some.injEq, Prod.mk.injEq] at h
    obtain ⟨rfl, rfl⟩ := h
    exact ⟨pde, hload, Or.inl ⟨rfl, hsame⟩⟩
  · obtain ⟨e, rfl⟩ := Option.ne_none_iff_exists'.mp hentry
    simp only [Option.bind_eq_some_iff, Option.some.injEq, Prod.mk.injEq] at h
    obtain ⟨m₂, -, hr, -⟩ := h
    exact ⟨pde, hload, Or.inr ⟨hr.symm, henough⟩⟩

/-- **What `vmm_alloc_map_page` answers**: the address, or NULL for want of frames and with nothing
changed. -/
theorem vmmAllocMapPage_answer {r : Nat} (h : vmmAllocMapPage m va flags = some (r, m')) :
    (r = va ∧ ¬ TooFewFrames m va) ∨ (r = 0 ∧ m' = m ∧ TooFewFrames m va) := by
  simp only [vmmAllocMapPage, Option.bind_eq_bind] at h
  rcases allocPage_spec m with ⟨halloc, hempty⟩ | ⟨q, hq, bm, halloc, hbm⟩
  · simp only [halloc, Option.bind_some, if_true, Option.some.injEq, Prod.mk.injEq] at h
    refine Or.inr ⟨h.1.symm, h.2.symm, Or.inl ?_⟩
    rw [hempty, Finset.card_empty]
    norm_num
  · have hcard : (freeFrames m.bitmap).card = (freeFrames bm).card + 1 := by
      rw [hbm, Finset.card_erase_add_one hq]
    simp only [halloc, Option.bind_some, if_neg (isFrame_of_free hq).addr_ne_zero,
      Option.bind_eq_some_iff] at h
    obtain ⟨⟨r₁, m₁⟩, hmap, h⟩ := h
    obtain ⟨pde, hload, ⟨rfl, rfl, hempty, habs⟩ | ⟨rfl, henough⟩⟩ := vmmMapPage_answer hmap
    · -- the frame taken first goes back
      obtain ⟨bm', hfree, hcase⟩ := freePage_spec { m with bitmap := bm } (4096 * q)
      rw [Nat.mul_div_cancel_left q (by norm_num)] at hcase
      simp only [ne_eq, Int.reduceNeg, neg_eq_zero, one_ne_zero, not_false_eq_true, if_true, hfree,
        Option.bind_some, Option.some.injEq, Prod.mk.injEq] at h
      obtain ⟨rfl, rfl⟩ := h
      have hback : bm' = m.bitmap := by
        rcases hcase with ⟨-, hbm'⟩ | ⟨hnot, -⟩
        · refine bitmap_eq_of_freeFrames ?_
          rw [hbm', hbm, Finset.insert_erase hq]
        · exact absurd (isFrame_of_free hq) hnot
      refine Or.inr ⟨rfl, by rw [hback], Or.inr ⟨?_, pde, hload, habs⟩⟩
      have hnone : (freeFrames bm).card = 0 := Finset.card_eq_zero.mpr hempty
      omega
    · simp only [ne_eq, not_true_eq_false, if_false, Option.some.injEq, Prod.mk.injEq] at h
      refine Or.inl ⟨h.1.symm, ?_⟩
      rintro (hfew | ⟨hfew, pde', hload', habs⟩)
      · omega
      · obtain rfl : pde = pde' := Option.some.inj (hload.symm.trans hload')
        have hpos := Finset.card_pos.mpr (Finset.nonempty_iff_ne_empty.mpr (henough.resolve_left habs))
        simp only at hpos
        omega

/-- **When a failed mapping changes nothing.**  In every state of the machine, for every address and
flags: a `vmm_map_page` that returns -1 and a `vmm_alloc_map_page` that returns NULL leave memory and
bitmap exactly as they were, and the latter does so only if there are fewer frames than it needs -- if
and only if the address is not 0, or there really are too few frames (or the call faults and returns
nothing). -/
theorem map_failure_clean_iff (m : Machine) (va flags : Nat) :
    FailsCleanly m va flags ↔
      ((vmmAllocMapPage m va flags).isSome → va ≠ 0 ∨ TooFewFrames m va) := by
  constructor
  · intro hclean hruns
    obtain ⟨⟨r, m'⟩, hrun⟩ := Option.isSome_iff_exists.mp hruns
    rcases vmmAllocMapPage_answer hrun with ⟨rfl, henough⟩ | ⟨-, -, hfew⟩
    · refine Or.inl ?_
      rintro rfl
      exact henough (hclean.alloc m' hrun).2
    · exact Or.inr hfew
  · intro hcond
    refine ⟨?_, ?_⟩
    · intro p m' hmap
      obtain ⟨-, -, ⟨-, hsame, -⟩ | ⟨hr, -⟩⟩ := vmmMapPage_answer hmap
      · exact hsame
      · exact absurd hr (by norm_num)
    · intro m' hrun
      rcases vmmAllocMapPage_answer hrun with ⟨rfl, henough⟩ | ⟨-, hsame, hfew⟩
      · exact absurd (hcond (Option.isSome_of_eq_some hrun)) (by simp [henough])
      · exact ⟨hsame, hfew⟩

/-- **A success that looks like a failure.**  After `vmm_init` a fresh frame is mapped at address 0: the
answer is NULL although there were 15872 frames, and the entry of that page has changed. -/
theorem map_null_succeeds : ∃ m₁ m₂, vmmInit sampleLayout blankMachine = some m₁ ∧
    vmmAllocMapPage m₁ 0 pageWritable = some (0, m₂) ∧ pteAt m₂ 0 ≠ pteAt m₁ 0 ∧
    (freeFrames m₁.bitmap).card = 15872 := by
  obtain ⟨m₁, hinit, hM, -, hfree, -⟩ := vmmInit_spec (L := sampleLayout) (m := blankMachine) rfl
  have hcard : (freeFrames m₁.bitmap).card = 15872 := by rw [hfree, Nat.card_Ico]
  rcases allocPage_spec m₁ with ⟨-, hempty⟩ | ⟨q, hq, bm, halloc, hbm⟩
  · rw [hempty] at hcard
    cases hcard
  · have hframe := isFrame_of_free hq
    obtain ⟨⟨r, m₂⟩, hmap, hwords⟩ := (vmmMapPage_words identity_spec (hM.take hbm)
      (show 0 < 2 ^ 32 by norm_num) hframe.addr_lt pageWritable).total trivial
    have hleft : (freeFrames bm).card = 15871 := by
      rw [hbm, Finset.card_erase_of_mem hq, hcard]
    obtain ⟨-, -, ⟨-, -, hempty, -⟩ | ⟨rfl, -⟩⟩ := vmmMapPage_answer hmap
    · simp only at hempty
      rw [hempty] at hleft
      cases hleft
    · rcases hwords with hfail | ⟨-, hentered⟩
      · exact absurd (Prod.mk.inj hfail).1 (by norm_num)
      · refine ⟨m₁, m₂, hinit, ?_, ?_, hcard⟩
        · simp only [vmmAllocMapPage, halloc, Option.bind_eq_bind, Option.bind_some,
            if_neg hframe.addr_ne_zero, hmap, ne_eq, not_true_eq_false, if_false]
        · -- the new entry leads to the frame, the old one to page 0
          intro heq
          have hold : pteAt m₁ 0 = lowEntry sampleLayout (tables m₁.mem) 0 :=
            (hM.vm.low_entry hM.dir (show 0 < 20480 * 4096 by norm_num)).2
          have hpfn := (hM.vm.lowPte 0 (by norm_num)).2.2
          rw [← hold, ← heq, hentered.pte, hframe.pteOf_pfn] at hpfn
          have := hframe.1
          omega

end JarvOs.Memory
