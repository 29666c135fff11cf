/-
# The physical memory manager (`kernel/memory/pmm.c`)

`pmm.c` keeps one bit per 4 KB frame between 1 MB and 64 MB in a byte array.  The functions
below are its functions: they search, clear and set bits by byte and bit index, and every access
to `page_bitmap` is CHECKED -- an index past `BITMAP_SIZE` makes the whole call `none`.  So "the
call is `some`" says that every index it used was in bounds.

What the array is FOR is a finite set: the page numbers whose bit is 1 (`freePages`).  Section 3
gives each function's effect on that set and nothing else, and everything above this module
(page tables, heap, scheduler) speaks about `freePages` only.  `pmm_refines_free_set` puts the
pieces together over arbitrary histories.
-/
import JarvOs.Lib.Word
import JarvOs.Lib.Trace

namespace JarvOs.Memory

open JarvOs.Lib

/-! ## 1. The bitmap and its functions -/

/-- `MEMORY_START_ADDR`: the first managed address, 1 MB. -/
abbrev memoryStartAddr : Nat := 0x100000

/-- `MEMORY_END_ADDR`: the end of the managed memory, 64 MB. -/
abbrev memoryEndAddr : Nat := 0x4000000

/-- `PAGE_SIZE` -/
abbrev pageSize : Nat := 0x1000

/-- `NUMBER_OF_PAGES` -/
abbrev numberOfPages : Nat := (memoryEndAddr - memoryStartAddr) / pageSize

/-- `BITMAP_SIZE`: the number of pages is a multiple of 8, so the first arm of the `#if`. -/
abbrev bitmapSize : Nat := numberOfPages / 8

theorem numberOfPages_eq : numberOfPages = 16128 := rfl

theorem bitmapSize_eq : bitmapSize = 2016 := rfl

/-- `page_bitmap`: one bit per page, 1 = free. -/
abbrev Bitmap := Vector UInt8 bitmapSize

namespace Bitmap

/-- `page_bitmap[i] = b`, refused when `i` is out of bounds. -/
def store (bm : Bitmap) (i : Nat) (b : UInt8) : Option Bitmap :=
  if h : i < bitmapSize then some (bm.set i b h) else none

/-- `page_bitmap[i / 8] &= ~(1 << (i % 8))` -/
def clearPage (bm : Bitmap) (i : Nat) : Option Bitmap := do
  let b ← bm[i / 8]?
  bm.store (i / 8) (b &&& ~~~bit8 (i % 8))

/-- `page_bitmap[i / 8] |= 1 << (i % 8)` -/
def setPage (bm : Bitmap) (i : Nat) : Option Bitmap := do
  let b ← bm[i / 8]?
  bm.store (i / 8) (b ||| bit8 (i % 8))

/-- `for (i = start; ...; i++)` clearing `n` pages from `i` on. -/
def clearPages (bm : Bitmap) : Nat → Nat → Option Bitmap
  | 0, _ => some bm
  | n + 1, i => (bm.clearPage i).bind (fun bm => clearPages bm n (i + 1))

end Bitmap

/-- `pmm_init`: all pages free, then the first megabyte (the kernel, by assumption) reserved.
The guard on `kernel_end` and the clipping of `end_page` are on constants. -/
def pmmInit : Option Bitmap :=
  let kernelEnd := 0x200000
  let endPage := min ((kernelEnd - memoryStartAddr) / pageSize) numberOfPages
  Bitmap.clearPages (Vector.replicate bitmapSize 0xFF) endPage 0

/-- The inner loop of `pmm_alloc_page`: `n` bits of byte `i` left to look at, the next one `j`.
The result is the page number taken and the new bitmap, or `none` inside when no bit is set. -/
def allocBit (bm : Bitmap) (i : Nat) : Nat → Nat → Option (Option (Nat × Bitmap))
  | 0, _ => some none
  | n + 1, j => do
    let b ← bm[i]?
    if b &&& bit8 j ≠ 0 then
      let bm' ← bm.store i (b &&& ~~~bit8 j)
      some (some (i * 8 + j, bm'))
    else allocBit bm i n (j + 1)

/-- The outer loop of `pmm_alloc_page`, with its byte-level skip: `n` bytes left, the next `i`. -/
def allocByte (bm : Bitmap) : Nat → Nat → Option (Nat × Bitmap)
  | 0, _ => some (0, bm)
  | n + 1, i => do
    let b ← bm[i]?
    if b ≠ 0 then
      match ← allocBit bm i 8 0 with
      | some (pageNum, bm') => some (memoryStartAddr + pageNum * pageSize, bm')
      | none => allocByte bm n (i + 1)
    else allocByte bm n (i + 1)

/-- `pmm_alloc_page`: the address of the frame taken, or 0. -/
def pmmAllocPage (bm : Bitmap) : Option (Nat × Bitmap) := allocByte bm bitmapSize 0

/-- `pmm_free_page` -/
def pmmFreePage (bm : Bitmap) (addr : Nat) : Option Bitmap :=
  if addr < memoryStartAddr ∨ addr ≥ memoryEndAddr then some bm
  else
    let pageNum := (addr - memoryStartAddr) / pageSize
    if pageNum ≥ numberOfPages then some bm else bm.setPage pageNum

/-- `pmm_mark_reserved` -/
def pmmMarkReserved (bm : Bitmap) (start stop : Nat) : Option Bitmap :=
  if stop < memoryStartAddr then some bm
  else if start ≥ memoryEndAddr then some bm
  else
    let start := if start < memoryStartAddr then memoryStartAddr else start
    let stop := if stop > memoryEndAddr then memoryEndAddr else stop
    let startPage := (start - memoryStartAddr) / pageSize
    let endPage := (stop - memoryStartAddr) / pageSize
    bm.clearPages (endPage - startPage) startPage

/-- The inner loop of `pmm_get_free_memory`. -/
def countBits (b : UInt8) : Nat → Nat → Nat → Nat
  | 0, _, c => c
  | n + 1, j, c => countBits b n (j + 1) (if b &&& bit8 j ≠ 0 then c + 1 else c)

/-- The outer loop of `pmm_get_free_memory`. -/
def countBytes (bm : Bitmap) : Nat → Nat → Nat → Option Nat
  | 0, _, c => some c
  | n + 1, i, c => (bm[i]?).bind (fun b => countBytes bm n (i + 1) (countBits b 8 0 c))

/-- `pmm_get_free_memory` -/
def pmmGetFreeMemory (bm : Bitmap) : Option Nat :=
  (countBytes bm bitmapSize 0 0).map (· * pageSize)

/-! ## 2. The set the bitmap stands for -/

/-- The address of page `p`. -/
def frameAddr (p : Nat) : Nat := memoryStartAddr + p * pageSize

/-- The bit of page `p`. -/
def isFree (bm : Bitmap) (p : Nat) : Bool :=
  match bm[p / 8]? with
  | some b => b.toNat.testBit (p % 8)
  | none => false

/-- The page numbers whose bit is 1. -/
def freePages (bm : Bitmap) : Finset Nat :=
  (Finset.range numberOfPages).filter (fun p => isFree bm p = true)

theorem isFree_eq {bm : Bitmap} {p : Nat} (h : p / 8 < bitmapSize) :
    isFree bm p = bm[p / 8].toNat.testBit (p % 8) := by
  unfold isFree
  rw [Vector.getElem?_eq_getElem h]

@[simp] theorem mem_freePages {bm : Bitmap} {p : Nat} :
    p ∈ freePages bm ↔ p < numberOfPages ∧ isFree bm p = true := by
  simp [freePages]

theorem lt_of_mem_freePages {bm : Bitmap} {p : Nat} (h : p ∈ freePages bm) : p < numberOfPages :=
  (mem_freePages.mp h).1

/-- Overwriting byte `i` changes the bits of the pages `8 i .. 8 i + 7` only. -/
theorem isFree_set {bm : Bitmap} {i : Nat} {b : UInt8} (hi : i < bitmapSize) (p : Nat) :
    isFree (bm.set i b hi) p = if p / 8 = i then b.toNat.testBit (p % 8) else isFree bm p := by
  unfold isFree
  rw [Vector.getElem?_set]
  by_cases h : i = p / 8
  · simp [h]
  · simp [h, Ne.symm h]

/-- The one fact about storing a byte: it is accepted, and the set changes as the byte says. -/
theorem store_spec (bm : Bitmap) {i : Nat} (hi : i < bitmapSize) (b : UInt8) :
    ∃ bm', bm.store i b = some bm' ∧
      ∀ p, isFree bm' p = if p / 8 = i then b.toNat.testBit (p % 8) else isFree bm p :=
  ⟨bm.set i b hi, by simp [Bitmap.store, hi], isFree_set hi⟩

/-! ## 3. What each function does to the set -/

theorem clearPage_spec (bm : Bitmap) {i : Nat} (hi : i < numberOfPages) :
    ∃ bm', bm.clearPage i = some bm' ∧ freePages bm' = (freePages bm).erase i := by
  have hb : i / 8 < bitmapSize := by simp only [bitmapSize_eq, numberOfPages_eq] at hi ⊢; omega
  obtain ⟨bm', hst, hfree⟩ := store_spec bm hb (bm[i / 8] &&& ~~~bit8 (i % 8))
  refine ⟨bm', by simp [Bitmap.clearPage, Vector.getElem?_eq_getElem hb, hst], ?_⟩
  ext p
  rw [Finset.mem_erase, mem_freePages, mem_freePages, hfree p]
  by_cases hp : p / 8 = i / 8
  · have hp8 : p / 8 < bitmapSize := hp ▸ hb
    rw [if_pos hp, testBit_clear8 _ (Nat.mod_lt _ (by norm_num)) (Nat.mod_lt _ (by norm_num)),
      isFree_eq hp8]
    have hbyte : bm[p / 8] = bm[i / 8] := by simp only [hp]
    have hne : p ≠ i ↔ p % 8 ≠ i % 8 := by omega
    simp only [hbyte, Bool.and_eq_true, decide_eq_true_eq, hne]
    tauto
  · have hne : p ≠ i := fun h => hp (by rw [h])
    rw [if_neg hp]
    tauto

theorem setPage_spec (bm : Bitmap) {i : Nat} (hi : i < numberOfPages) :
    ∃ bm', bm.setPage i = some bm' ∧ freePages bm' = insert i (freePages bm) := by
  have hb : i / 8 < bitmapSize := by simp only [bitmapSize_eq, numberOfPages_eq] at hi ⊢; omega
  obtain ⟨bm', hst, hfree⟩ := store_spec bm hb (bm[i / 8] ||| bit8 (i % 8))
  refine ⟨bm', by simp [Bitmap.setPage, Vector.getElem?_eq_getElem hb, hst], ?_⟩
  ext p
  rw [Finset.mem_insert, mem_freePages, mem_freePages, hfree p]
  by_cases hp : p / 8 = i / 8
  · have hp8 : p / 8 < bitmapSize := hp ▸ hb
    rw [if_pos hp, testBit_set8 _ (Nat.mod_lt _ (by norm_num)), isFree_eq hp8]
    have hbyte : bm[p / 8] = bm[i / 8] := by simp only [hp]
    have heq : p = i ↔ p % 8 = i % 8 := by omega
    have hlt : p < numberOfPages := by
      simp only [bitmapSize_eq, numberOfPages_eq] at hp8 ⊢
      omega
    simp only [hbyte, Bool.or_eq_true, decide_eq_true_eq, heq]
    tauto
  · have hne : p ≠ i := fun h => hp (by rw [h])
    rw [if_neg hp]
    tauto

/-- The clearing loop removes exactly the pages it runs over. -/
theorem clearPages_spec : ∀ (n i : Nat) (bm : Bitmap), i + n ≤ numberOfPages →
    ∃ bm', bm.clearPages n i = some bm' ∧
      freePages bm' = (freePages bm).filter (fun p => ¬ (i ≤ p ∧ p < i + n))
  | 0, i, bm, _ => by
    refine ⟨bm, rfl, ?_⟩
    rw [Finset.filter_true_of_mem]
    intro p _
    omega
  | n + 1, i, bm, h => by
    obtain ⟨bm₁, h1, hf1⟩ := clearPage_spec bm (i := i) (by omega)
    obtain ⟨bm₂, h2, hf2⟩ := clearPages_spec n (i + 1) bm₁ (by omega)
    refine ⟨bm₂, by simp [Bitmap.clearPages, h1, h2], ?_⟩
    ext p
    rw [hf2, hf1]
    simp only [Finset.mem_filter, Finset.mem_erase]
    constructor
    · rintro ⟨⟨hne, hp⟩, hout⟩
      exact ⟨hp, by omega⟩
    · rintro ⟨hp, hout⟩
      exact ⟨⟨by omega, hp⟩, by omega⟩

/-- The inner search takes the first set bit of the byte from `j` on, or finds none. -/
theorem allocBit_spec (bm : Bitmap) {i : Nat} (hi : i < bitmapSize) : ∀ (n j : Nat), j + n = 8 →
    (∃ k bm', allocBit bm i n j = some (some (i * 8 + k, bm')) ∧ j ≤ k ∧ k < 8 ∧
        isFree bm (i * 8 + k) = true ∧ (∀ l, j ≤ l → l < k → isFree bm (i * 8 + l) = false) ∧
        freePages bm' = (freePages bm).erase (i * 8 + k)) ∨
      (allocBit bm i n j = some none ∧ ∀ l, j ≤ l → l < 8 → isFree bm (i * 8 + l) = false)
  | 0, j, h => Or.inr ⟨rfl, fun l h1 h2 => by omega⟩
  | n + 1, j, h => by
    have hj : j < 8 := by omega
    have hdiv : (i * 8 + j) / 8 = i := by omega
    have hmod : (i * 8 + j) % 8 = j := by omega
    have hbit : isFree bm (i * 8 + j) = bm[i].toNat.testBit j := by
      rw [isFree_eq (by omega)]
      simp only [hdiv, hmod]
    have hget : bm[i]? = some bm[i] := Vector.getElem?_eq_getElem hi
    by_cases hset : bm[i] &&& bit8 j ≠ 0
    · left
      obtain ⟨bm', hst, hfree⟩ := clearPage_spec bm (i := i * 8 + j)
        (by simp only [bitmapSize_eq, numberOfPages_eq] at hi ⊢; omega)
      simp only [Bitmap.clearPage, hdiv, hmod, hget, Option.bind_eq_bind, Option.bind_some] at hst
      refine ⟨j, bm', ?_, le_refl _, hj, ?_, fun l h1 h2 => by omega, hfree⟩
      · simp [allocBit, hget, hset, hst]
      · rw [hbit]
        exact (and_bit8_ne_zero _ hj).mp hset
    · have hclear : isFree bm (i * 8 + j) = false := by
        rw [hbit]
        exact Bool.eq_false_iff.mpr (fun h => hset ((and_bit8_ne_zero _ hj).mpr h))
      have hstep : allocBit bm i (n + 1) j = allocBit bm i n (j + 1) := by
        simp only [allocBit, hget, Option.bind_eq_bind, Option.bind_some]
        rw [if_neg hset]
      rw [hstep]
      rcases allocBit_spec bm hi n (j + 1) (by omega) with ⟨k, bm', he, hk, hk8, hf, hbelow, hfp⟩ | ⟨he, hall⟩
      · refine Or.inl ⟨k, bm', he, by omega, hk8, hf, fun l h1 h2 => ?_, hfp⟩
        rcases Nat.eq_or_lt_of_le h1 with rfl | h1
        · exact hclear
        · exact hbelow l h1 h2
      · refine Or.inr ⟨he, fun l h1 h2 => ?_⟩
        rcases Nat.eq_or_lt_of_le h1 with rfl | h1
        · exact hclear
        · exact hall l h1 h2

/-- The outer search takes the first free page from byte `i` on, or finds none. -/
theorem allocByte_spec (bm : Bitmap) : ∀ (n i : Nat), i + n = bitmapSize →
    (∃ p bm', allocByte bm n i = some (frameAddr p, bm') ∧ p ∈ freePages bm ∧
        (∀ q, i * 8 ≤ q → q < p → isFree bm q = false) ∧
        freePages bm' = (freePages bm).erase p) ∨
      (allocByte bm n i = some (0, bm) ∧
        ∀ q, i * 8 ≤ q → q < numberOfPages → isFree bm q = false)
  | 0, i, h => Or.inr ⟨rfl, fun q h1 h2 => by
      simp only [bitmapSize_eq, numberOfPages_eq] at h h2
      omega⟩
  | n + 1, i, h => by
    have hi : i < bitmapSize := by omega
    have hget : bm[i]? = some bm[i] := Vector.getElem?_eq_getElem hi
    -- both ways past this byte leave its eight pages known to be taken
    have hskip : allocByte bm (n + 1) i = allocByte bm n (i + 1) →
        (∀ l < 8, isFree bm (i * 8 + l) = false) →
        (∃ p bm', allocByte bm (n + 1) i = some (frameAddr p, bm') ∧ p ∈ freePages bm ∧
            (∀ q, i * 8 ≤ q → q < p → isFree bm q = false) ∧
            freePages bm' = (freePages bm).erase p) ∨
          (allocByte bm (n + 1) i = some (0, bm) ∧
            ∀ q, i * 8 ≤ q → q < numberOfPages → isFree bm q = false) := by
      intro hstep hbyte
      have hlow : ∀ q, i * 8 ≤ q → q < (i + 1) * 8 → isFree bm q = false := fun q h1 h2 => by
        have := hbyte (q - i * 8) (by omega)
        rwa [Nat.add_sub_cancel' h1] at this
      rw [hstep]
      rcases allocByte_spec bm n (i + 1) (by omega) with ⟨p, bm', he, hp, hbelow, hf⟩ | ⟨he, hall⟩
      · refine Or.inl ⟨p, bm', he, hp, fun q h1 h2 => ?_, hf⟩
        rcases Nat.lt_or_ge q ((i + 1) * 8) with h3 | h3
        · exact hlow q h1 h3
        · exact hbelow q h3 h2
      · refine Or.inr ⟨he, fun q h1 h2 => ?_⟩
        rcases Nat.lt_or_ge q ((i + 1) * 8) with h3 | h3
        · exact hlow q h1 h3
        · exact hall q h3 h2
    by_cases hz : bm[i] ≠ 0
    · rcases allocBit_spec bm hi 8 0 rfl with ⟨k, bm', he, -, hk8, hf, hbelow, hfp⟩ | ⟨he, hall⟩
      · left
        refine ⟨i * 8 + k, bm', ?_, ?_, fun q h1 h2 => ?_, hfp⟩
        · simp [allocByte, hget, hz, he, frameAddr]
        · refine mem_freePages.mpr ⟨?_, hf⟩
          simp only [bitmapSize_eq, numberOfPages_eq] at hi ⊢
          omega
        · have := hbelow (q - i * 8) (Nat.zero_le _) (by omega)
          rwa [Nat.add_sub_cancel' h1] at this
      · refine hskip ?_ (fun l hl => hall l (Nat.zero_le _) hl)
        simp [allocByte, hget, he]
    · refine hskip ?_ (fun l hl => ?_)
      · simp only [allocByte, hget, Option.bind_eq_bind, Option.bind_some]
        rw [if_neg hz]
      · have hdiv : (i * 8 + l) / 8 = i := by omega
        rw [isFree_eq (by omega)]
        simp only [hdiv, not_not.mp hz]
        simp

/-- **`pmm_alloc_page`**: the least free page, or 0 when there is none. -/
theorem pmmAllocPage_spec (bm : Bitmap) :
    (freePages bm = ∅ ∧ pmmAllocPage bm = some (0, bm)) ∨
      ∃ (h : (freePages bm).Nonempty) (bm' : Bitmap),
        pmmAllocPage bm = some (frameAddr ((freePages bm).min' h), bm') ∧
          freePages bm' = (freePages bm).erase ((freePages bm).min' h) := by
  rcases allocByte_spec bm bitmapSize 0 (by omega) with ⟨p, bm', he, hp, hbelow, hf⟩ | ⟨he, hall⟩
  · right
    have hne : (freePages bm).Nonempty := ⟨p, hp⟩
    have hmin : (freePages bm).min' hne = p := by
      refine le_antisymm (Finset.min'_le _ _ hp) (Finset.le_min' _ _ _ (fun q hq => ?_))
      by_contra hlt
      have hfree := (mem_freePages.mp hq).2
      rw [hbelow q (by omega) (by omega)] at hfree
      exact absurd hfree (by simp)
    refine ⟨hne, bm', ?_, ?_⟩
    · rw [hmin]; exact he
    · rw [hmin]; exact hf
  · left
    refine ⟨?_, he⟩
    rw [Finset.eq_empty_iff_forall_notMem]
    intro q hq
    obtain ⟨hlt, hfree⟩ := mem_freePages.mp hq
    rw [hall q (by omega) hlt] at hfree
    exact absurd hfree (by simp)

/-- The page an address lies in. -/
def pageOf (addr : Nat) : Nat := (addr - memoryStartAddr) / pageSize

/-- The addresses `pmm_free_page` does not ignore. -/
def Managed (addr : Nat) : Prop := memoryStartAddr ≤ addr ∧ addr < memoryEndAddr

instance (addr : Nat) : Decidable (Managed addr) := by unfold Managed; infer_instance

theorem pageOf_lt {addr : Nat} (h : Managed addr) : pageOf addr < numberOfPages := by
  obtain ⟨h1, h2⟩ := h
  simp only [pageOf, memoryStartAddr, memoryEndAddr, pageSize, numberOfPages_eq] at *
  omega

@[simp] theorem pageOf_frameAddr (p : Nat) : pageOf (frameAddr p) = p := by
  simp only [pageOf, frameAddr, memoryStartAddr, pageSize]
  omega

theorem frameAddr_ne_zero (p : Nat) : frameAddr p ≠ 0 := by
  simp only [frameAddr, memoryStartAddr]
  omega

theorem pmmAllocPage_empty {bm : Bitmap} (h : freePages bm = ∅) : pmmAllocPage bm = some (0, bm) := by
  rcases pmmAllocPage_spec bm with ⟨-, he⟩ | ⟨hne, -⟩
  · exact he
  · exact absurd h hne.ne_empty

theorem pmmAllocPage_least {bm : Bitmap} (h : (freePages bm).Nonempty) :
    ∃ bm', pmmAllocPage bm = some (frameAddr ((freePages bm).min' h), bm') ∧
      freePages bm' = (freePages bm).erase ((freePages bm).min' h) := by
  rcases pmmAllocPage_spec bm with ⟨hempty, -⟩ | ⟨_, halloc⟩
  · exact absurd hempty h.ne_empty
  · exact halloc

/-- An answer other than 0 is a page that was free and is not any more. -/
theorem pmmAllocPage_taken {bm bm' : Bitmap} {a : Nat} (he : pmmAllocPage bm = some (a, bm'))
    (ha : a ≠ 0) : ∃ p ∈ freePages bm, a = frameAddr p ∧ freePages bm' = (freePages bm).erase p := by
  rcases pmmAllocPage_spec bm with ⟨-, he'⟩ | ⟨hne, bm'', he', hf⟩
  · rw [he'] at he
    exact absurd (Prod.mk.inj (Option.some.inj he)).1.symm ha
  · rw [he'] at he
    obtain ⟨rfl, rfl⟩ := Prod.mk.inj (Option.some.inj he)
    exact ⟨_, Finset.min'_mem _ hne, rfl, hf⟩

theorem pmmAllocPage_zero_iff {bm : Bitmap} :
    (∃ bm', pmmAllocPage bm = some (0, bm')) ↔ freePages bm = ∅ := by
  constructor
  · rintro ⟨bm', he⟩
    by_contra hne
    obtain ⟨bm'', he', -⟩ := pmmAllocPage_least (Finset.nonempty_iff_ne_empty.mpr hne)
    exact frameAddr_ne_zero _ (Prod.mk.inj (Option.some.inj (he'.symm.trans he))).1
  · intro hempty
    exact ⟨bm, pmmAllocPage_empty hempty⟩

/-- A page that is taken is not returned. -/
theorem pmmAllocPage_ne {bm bm' : Bitmap} {a p : Nat} (hp : p ∉ freePages bm)
    (he : pmmAllocPage bm = some (a, bm')) : a ≠ frameAddr p := by
  rintro rfl
  obtain ⟨q, hq, heq, -⟩ := pmmAllocPage_taken he (frameAddr_ne_zero p)
  have hpage := congrArg pageOf heq
  rw [pageOf_frameAddr, pageOf_frameAddr] at hpage
  exact hp (hpage ▸ hq)

/-- **`pmm_free_page`**: the page of a managed address is added, any other address ignored. -/
theorem pmmFreePage_spec (bm : Bitmap) (addr : Nat) :
    ∃ bm', pmmFreePage bm addr = some bm' ∧
      ((Managed addr ∧ freePages bm' = insert (pageOf addr) (freePages bm)) ∨
        (¬ Managed addr ∧ bm' = bm)) := by
  by_cases h : Managed addr
  · obtain ⟨bm', hset, hf⟩ := setPage_spec bm (pageOf_lt h)
    refine ⟨bm', ?_, Or.inl ⟨h, hf⟩⟩
    have hlt := pageOf_lt h
    obtain ⟨h1, h2⟩ := h
    unfold pmmFreePage
    rw [if_neg (by omega)]
    simp only [pageOf] at hset hlt
    simp only
    rw [if_neg (by omega), hset]
  · refine ⟨bm, ?_, Or.inr ⟨h, rfl⟩⟩
    unfold pmmFreePage
    rw [if_pos]
    by_contra hcon
    exact h ⟨by omega, by omega⟩

/-- The page range `[startPage, endPage)` that `pmm_mark_reserved` clears: the arguments clipped to
the managed memory, then divided by the page size (empty if the clipped range is). -/
def reservedPages (start stop : Nat) : Finset Nat :=
  if stop < memoryStartAddr ∨ start ≥ memoryEndAddr then ∅
  else Finset.Ico (pageOf (max start memoryStartAddr)) (pageOf (min stop memoryEndAddr))

/-- A reserved page ends inside the clipped range, and after its start. -/
theorem reservedPages_bounds {start stop p : Nat} (h : p ∈ reservedPages start stop) :
    max start memoryStartAddr < frameAddr (p + 1) ∧
      frameAddr (p + 1) ≤ min stop memoryEndAddr := by
  unfold reservedPages at h
  split at h
  · simp at h
  · simp only [Finset.mem_Ico, pageOf, frameAddr, memoryStartAddr, memoryEndAddr, pageSize] at *
    omega

/-- `pmm_mark_reserved` past its two early returns, with the clipping as `max` and `min`. -/
theorem pmmMarkReserved_eq {bm : Bitmap} {start stop : Nat} (h1 : ¬ stop < memoryStartAddr)
    (h2 : ¬ start ≥ memoryEndAddr) :
    pmmMarkReserved bm start stop =
      bm.clearPages (pageOf (min stop memoryEndAddr) - pageOf (max start memoryStartAddr))
        (pageOf (max start memoryStartAddr)) := by
  have hmax : (if start < memoryStartAddr then memoryStartAddr else start)
      = max start memoryStartAddr := by
    split <;> omega
  have hmin : (if stop > memoryEndAddr then memoryEndAddr else stop)
      = min stop memoryEndAddr := by
    split <;> omega
  unfold pmmMarkReserved
  rw [if_neg h1, if_neg h2]
  simp only [hmax, hmin, pageOf]

/-- **`pmm_mark_reserved`** removes the pages of the clipped range and no other. -/
theorem pmmMarkReserved_spec (bm : Bitmap) (start stop : Nat) :
    ∃ bm', pmmMarkReserved bm start stop = some bm' ∧
      freePages bm' = freePages bm \ reservedPages start stop := by
  by_cases h : stop < memoryStartAddr ∨ start ≥ memoryEndAddr
  · refine ⟨bm, ?_, by rw [reservedPages, if_pos h, Finset.sdiff_empty]⟩
    unfold pmmMarkReserved
    rcases h with h | h
    · rw [if_pos h]
    · rw [if_pos h, ite_self]
  · rw [pmmMarkReserved_eq (fun h1 => h (Or.inl h1)) (fun h2 => h (Or.inr h2)), reservedPages,
      if_neg h]
    have hA : pageOf (max start memoryStartAddr) ≤ numberOfPages := by
      simp only [pageOf, memoryStartAddr, memoryEndAddr, pageSize, numberOfPages_eq] at *
      omega
    have hB : pageOf (min stop memoryEndAddr) ≤ numberOfPages := by
      simp only [pageOf, memoryStartAddr, memoryEndAddr, pageSize, numberOfPages_eq]
      omega
    generalize pageOf (max start memoryStartAddr) = A at hA ⊢
    generalize pageOf (min stop memoryEndAddr) = B at hB ⊢
    obtain ⟨bm', hc, hf⟩ := clearPages_spec (B - A) A bm (by omega)
    refine ⟨bm', hc, ?_⟩
    rw [hf]
    ext p
    simp only [Finset.mem_filter, Finset.mem_sdiff, Finset.mem_Ico]
    constructor <;> rintro ⟨hp, hout⟩ <;> exact ⟨hp, by omega⟩

/-! ## 4. Counting -/

/-- The free pages below page `k`: what the counting loop has seen when it gets there. -/
def freeBelow (bm : Bitmap) (k : Nat) : Nat := ((freePages bm).filter (· < k)).card

theorem freeBelow_succ {bm : Bitmap} {k : Nat} (hk : k < numberOfPages) :
    freeBelow bm (k + 1) = if isFree bm k = true then freeBelow bm k + 1 else freeBelow bm k := by
  unfold freeBelow
  have hsplit : (freePages bm).filter (· < k + 1)
      = if isFree bm k = true then insert k ((freePages bm).filter (· < k))
        else (freePages bm).filter (· < k) := by
    ext p
    split
    · rename_i hfree
      simp only [Finset.mem_filter, Finset.mem_insert, mem_freePages]
      constructor
      · rintro ⟨hp, hlt⟩
        rcases Nat.eq_or_lt_of_le (Nat.le_of_lt_succ hlt) with rfl | hlt
        · exact Or.inl rfl
        · exact Or.inr ⟨hp, hlt⟩
      · rintro (rfl | ⟨hp, hlt⟩)
        · exact ⟨⟨hk, hfree⟩, by omega⟩
        · exact ⟨hp, by omega⟩
    · rename_i hfree
      simp only [Finset.mem_filter, mem_freePages]
      constructor
      · rintro ⟨hp, hlt⟩
        refine ⟨hp, ?_⟩
        rcases Nat.eq_or_lt_of_le (Nat.le_of_lt_succ hlt) with rfl | hlt
        · exact absurd hp.2 hfree
        · exact hlt
      · rintro ⟨hp, hlt⟩
        exact ⟨hp, by omega⟩
  rw [hsplit]
  split
  · rw [Finset.card_insert_of_notMem (by simp)]
  · rfl

theorem countBits_spec (bm : Bitmap) {i : Nat} (hi : i < bitmapSize) : ∀ (n j : Nat), j + n ≤ 8 →
    countBits bm[i] n j (freeBelow bm (i * 8 + j)) = freeBelow bm (i * 8 + (j + n))
  | 0, j, _ => rfl
  | n + 1, j, h => by
    have hj : j < 8 := by omega
    have hdiv : (i * 8 + j) / 8 = i := by omega
    have hmod : (i * 8 + j) % 8 = j := by omega
    have hbit : (bm[i] &&& bit8 j ≠ 0) ↔ isFree bm (i * 8 + j) = true := by
      rw [isFree_eq (by omega), and_bit8_ne_zero _ hj]
      simp only [hdiv, hmod]
    have hpage : i * 8 + j < numberOfPages := by
      simp only [bitmapSize_eq, numberOfPages_eq] at hi ⊢
      omega
    unfold countBits
    simp only [hbit]
    rw [← freeBelow_succ hpage]
    have ih := countBits_spec bm hi n (j + 1) (by omega)
    rw [show i * 8 + j + 1 = i * 8 + (j + 1) by omega, ih]
    congr 1
    omega

theorem countBytes_spec (bm : Bitmap) : ∀ (n i : Nat), i + n = bitmapSize →
    countBytes bm n i (freeBelow bm (i * 8)) = some (freeBelow bm numberOfPages)
  | 0, i, h => by
    have : i * 8 = numberOfPages := by
      simp only [bitmapSize_eq, numberOfPages_eq] at h ⊢
      omega
    simp only [countBytes, this]
  | n + 1, i, h => by
    have hi : i < bitmapSize := by omega
    have hbyte := countBits_spec bm hi 8 0 (by omega)
    rw [Nat.add_zero, Nat.zero_add, show i * 8 + 8 = (i + 1) * 8 by omega] at hbyte
    simp only [countBytes, Vector.getElem?_eq_getElem hi, Option.bind_some, hbyte]
    exact countBytes_spec bm n (i + 1) (by omega)

/-- **`pmm_get_free_memory`** counts the set. -/
theorem pmmGetFreeMemory_spec (bm : Bitmap) :
    pmmGetFreeMemory bm = some ((freePages bm).card * pageSize) := by
  have hall : freeBelow bm numberOfPages = (freePages bm).card := by
    unfold freeBelow
    rw [Finset.filter_true_of_mem]
    exact fun p hp => lt_of_mem_freePages hp
  have hnone : freeBelow bm (0 * 8) = 0 := by simp [freeBelow]
  have h := countBytes_spec bm bitmapSize 0 (by omega)
  rw [hnone, hall] at h
  simp [pmmGetFreeMemory, h]

/-! ## 5. Histories -/

/-- The calls clients make. -/
inductive PmmOp
  | alloc
  | free (addr : Nat)
  | reserve (start stop : Nat)

/-- One call, its result dropped. -/
def pmmStep (bm : Bitmap) : PmmOp → Option Bitmap
  | .alloc => (pmmAllocPage bm).map Prod.snd
  | .free addr => pmmFreePage bm addr
  | .reserve start stop => pmmMarkReserved bm start stop

/-- A fresh manager owns the frames from 2 MB on. -/
theorem pmmInit_spec :
    ∃ bm, pmmInit = some bm ∧ freePages bm = Finset.Ico 256 numberOfPages := by
  have hfull : ∀ p, p < numberOfPages →
      isFree (Vector.replicate bitmapSize 0xFF : Bitmap) p = true := by
    intro p hp
    have hb : p / 8 < bitmapSize := by simp only [bitmapSize_eq, numberOfPages_eq] at hp ⊢; omega
    rw [isFree_eq hb, Vector.getElem_replicate]
    have hm : p % 8 < 8 := Nat.mod_lt _ (by norm_num)
    interval_cases p % 8 <;> rfl
  obtain ⟨bm, hc, hf⟩ :=
    clearPages_spec 256 0 (Vector.replicate bitmapSize 0xFF : Bitmap) (by rw [numberOfPages_eq]; omega)
  refine ⟨bm, hc, ?_⟩
  rw [hf]
  ext p
  simp only [Finset.mem_filter, mem_freePages, Finset.mem_Ico]
  constructor
  · rintro ⟨⟨hp, -⟩, hout⟩
    exact ⟨by omega, hp⟩
  · rintro ⟨h1, h2⟩
    exact ⟨⟨h2, hfull p h2⟩, by omega⟩

/-- What one call can do to the set: nothing is ever added except by freeing a managed address. -/
theorem pmmStep_spec (bm : Bitmap) (o : PmmOp) :
    ∃ bm', pmmStep bm o = some bm' ∧
      ∀ p, p ∈ freePages bm' → p ∈ freePages bm ∨ ∃ a, o = .free a ∧ Managed a ∧ pageOf a = p := by
  cases o with
  | alloc =>
    rcases pmmAllocPage_spec bm with ⟨-, he⟩ | ⟨h, bm', he, hf⟩
    · exact ⟨bm, by simp [pmmStep, he], fun p hp => Or.inl hp⟩
    · refine ⟨bm', by simp [pmmStep, he], fun p hp => Or.inl ?_⟩
      rw [hf] at hp
      exact Finset.mem_of_mem_erase hp
  | free a =>
    obtain ⟨bm', he, hcase⟩ := pmmFreePage_spec bm a
    refine ⟨bm', he, fun p hp => ?_⟩
    rcases hcase with ⟨hm, hf⟩ | ⟨-, rfl⟩
    · rw [hf] at hp
      rcases Finset.mem_insert.mp hp with rfl | hp
      · exact Or.inr ⟨a, rfl, hm, rfl⟩
      · exact Or.inl hp
    · exact Or.inl hp
  | reserve start stop =>
    obtain ⟨bm', he, hf⟩ := pmmMarkReserved_spec bm start stop
    refine ⟨bm', he, fun p hp => Or.inl ?_⟩
    rw [hf] at hp
    exact (Finset.mem_sdiff.mp hp).1

/-- No history leaves the array's bounds. -/
theorem pmm_run_total : ∀ (ops : List PmmOp) (bm : Bitmap), ∃ bm', run pmmStep bm ops = some bm'
  | [], bm => ⟨bm, rfl⟩
  | o :: ops, bm => by
    obtain ⟨bm₁, h1, -⟩ := pmmStep_spec bm o
    obtain ⟨bm₂, h2⟩ := pmm_run_total ops bm₁
    exact ⟨bm₂, run_cons_eq_some.mpr ⟨bm₁, h1, h2⟩⟩

/-- A page that is taken stays taken until an address in it is freed. -/
theorem pmm_run_taken {p : Nat} (ops : List PmmOp) {bm bm' : Bitmap} (hp : p ∉ freePages bm)
    (h : run pmmStep bm ops = some bm')
    (hfree : ∀ b, PmmOp.free b ∈ ops → Managed b → pageOf b ≠ p) : p ∉ freePages bm' := by
  induction ops generalizing bm with
  | nil =>
    rw [run_nil, Option.some.injEq] at h
    rwa [← h]
  | cons o ops ih =>
    obtain ⟨bm₁, h1, h2⟩ := run_cons_eq_some.mp h
    refine ih ?_ h2 (fun b hb => hfree b (List.mem_cons_of_mem _ hb))
    obtain ⟨bm₁', h1', hspec⟩ := pmmStep_spec bm o
    obtain rfl : bm₁' = bm₁ := Option.some.inj (h1'.symm.trans h1)
    intro hmem
    rcases hspec p hmem with hmem | ⟨a, rfl, hm, hpage⟩
    · exact hp hmem
    · exact hfree a List.mem_cons_self hm hpage

/-- **The frame allocator is a finite set of free frames.**  After ANY history of calls with any
arguments: allocation takes the least free page, or returns 0 exactly when there is none;
freeing adds the page of a managed address and ignores every other; reserving removes free pages
of the clipped range only; the free-memory figure is the size of the set; and a frame handed out
is not handed out again before an address in it has been freed.  That every call is `some` says
that no index leaves the bitmap. -/
theorem pmm_refines_free_set (ops : List PmmOp) :
    ∃ bm₀ bm, pmmInit = some bm₀ ∧ run pmmStep bm₀ ops = some bm ∧
      (∀ h : (freePages bm).Nonempty, ∃ bm',
        pmmAllocPage bm = some (0x100000 + 4096 * (freePages bm).min' h, bm') ∧
          freePages bm' = (freePages bm).erase ((freePages bm).min' h)) ∧
      ((∃ bm', pmmAllocPage bm = some (0, bm')) ↔ freePages bm = ∅) ∧
      (freePages bm = ∅ → pmmAllocPage bm = some (0, bm)) ∧
      (∀ a, ∃ bm', pmmFreePage bm a = some bm' ∧
        (0x100000 ≤ a ∧ a < 0x4000000 →
          freePages bm' = insert ((a - 0x100000) / 4096) (freePages bm)) ∧
        (¬ (0x100000 ≤ a ∧ a < 0x4000000) → bm' = bm)) ∧
      (∀ start stop, ∃ bm', pmmMarkReserved bm start stop = some bm' ∧
        freePages bm' = freePages bm \ reservedPages start stop ∧
        ∀ p ∈ reservedPages start stop, max start 0x100000 < frameAddr (p + 1) ∧
          frameAddr (p + 1) ≤ min stop 0x4000000) ∧
      pmmGetFreeMemory bm = some (4096 * (freePages bm).card) ∧
      (∀ a bm₁ ops' bm₂ a' bm₃, pmmAllocPage bm = some (a, bm₁) → a ≠ 0 →
        run pmmStep bm₁ ops' = some bm₂ →
        (∀ b, PmmOp.free b ∈ ops' → Managed b → pageOf b ≠ pageOf a) →
        pmmAllocPage bm₂ = some (a', bm₃) → a' ≠ a) := by
  obtain ⟨bm₀, hinit, -⟩ := pmmInit_spec
  obtain ⟨bm, hrun⟩ := pmm_run_total ops bm₀
  refine ⟨bm₀, bm, hinit, hrun, ?_, pmmAllocPage_zero_iff, pmmAllocPage_empty, ?_, ?_, ?_, ?_⟩
  · intro h
    obtain ⟨bm', he, hf⟩ := pmmAllocPage_least h
    exact ⟨bm', by rw [he, frameAddr, Nat.mul_comm], hf⟩
  · intro a
    obtain ⟨bm', he, hcase⟩ := pmmFreePage_spec bm a
    refine ⟨bm', he, fun hin => ?_, fun hout => ?_⟩
    · rcases hcase with ⟨-, hf⟩ | ⟨hn, -⟩
      · exact hf
      · exact absurd hin hn
    · rcases hcase with ⟨hm, -⟩ | ⟨-, heq⟩
      · exact absurd hm hout
      · exact heq
  · intro start stop
    obtain ⟨bm', he, hf⟩ := pmmMarkReserved_spec bm start stop
    exact ⟨bm', he, hf, fun p hp => reservedPages_bounds hp⟩
  · rw [pmmGetFreeMemory_spec, Nat.mul_comm]
  · -- the page of `a` left the set when it was returned, and nothing put it back
    intro a bm₁ ops' bm₂ a' bm₃ halloc ha hrun' hfree halloc'
    obtain ⟨p, -, rfl, hf⟩ := pmmAllocPage_taken halloc ha
    rw [pageOf_frameAddr] at hfree
    have htaken := pmm_run_taken ops' (by rw [hf]; simp) hrun' hfree
    exact pmmAllocPage_ne htaken halloc'

end JarvOs.Memory
