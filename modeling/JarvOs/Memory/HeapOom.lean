/-
# A heap that runs out of memory

`expand_heap` maps its pages one by one and returns `NULL` at the first one it cannot map.  The pages
before that one stay mapped behind `heap_end`: their frames are neither free nor tables nor part of the
heap, and the next expansion maps other frames over them.  So a `kmalloc` that fails loses exactly the
pages it could map.

`NoPageLeft` says when it can map none: `vmm_alloc_map_page` needs a frame for the page, and another
one for the table if the directory has none there.  It undoes its own half-done work, so in this case,
and ONLY in this case, nothing is lost (`kmalloc_oom_iff`).
-/
import JarvOs.Memory.HeapFrames

namespace JarvOs.Memory

open JarvOs.Lib

variable {L : Layout} {T : Prop} {Low : Nat → Nat → Prop} {m m' : Machine} {spaces : List Nat}
  {bare : Nat → Prop} {k q va : Nat}

/-! ## 1. When one page cannot be mapped -/

/-- Frames `vmm_alloc_map_page` takes for a page: its own, and one for a table if there is none. -/
def framesFor (m : Machine) (va : Nat) : Nat :=
  if present (tables m.mem m.dir (dirIdx va)) then 1 else 2

/-- Too few frames to map a page at `va`. -/
def NoPageLeft (m : Machine) (va : Nat) : Prop := (freeFrames m.bitmap).card < framesFor m va

/-- `vmm_map_page` fails if and only if it needs a frame and there is none. -/
theorem vmmMapPage_null (hS : LowSpec T Low) (hM : MachInv L Low m spaces) (hva : va < 2 ^ 32)
    (p flags : Nat) :
    Ensures T (vmmMapPage m va p flags) (fun r => r.1 ≠ 0 ↔
      ¬ present (tables m.mem m.dir (dirIdx va)) ∧ freeFrames m.bitmap = ∅) := by
  unfold vmmMapPage
  simp only [shift_dirIdx hva, shift_tabIdx, Option.bind_eq_bind]
  by_cases hout : ¬ present (tables m.mem m.dir (dirIdx va)) ∧ freeFrames m.bitmap = ∅
  · refine (vmmEnsureTable_out hS hM hout.1 hout.2).bind ?_
    rintro _ rfl
    exact .ret (iff_of_true (by norm_num) hout)
  · refine (vmmEnsureTable_spec hS hM (dirIdx va)).bind ?_
    rintro ⟨r, m₁⟩ ⟨hstep, -, -, hcase⟩
    simp only at hstep hcase
    rcases hcase with ⟨-, -, hempty, hp⟩ | ⟨rfl, hpres⟩
    · exact absurd ⟨hp, hempty⟩ hout
    · simp only
      rw [← hstep.dir] at hpres ⊢
      refine (store_entry hS hstep.inv hpres (tabIdx va) _).bind ?_
      rintro _ rfl
      exact .ret (iff_of_false (not_not.mpr rfl) (by rwa [hstep.dir]))

/-- After the page's own frame has been taken, a table must not be needed or there must be one more. -/
theorem noPageLeft_iff {bm : Bitmap} (hq : q ∈ freeFrames m.bitmap)
    (hbm : freeFrames bm = (freeFrames m.bitmap).erase q) :
    NoPageLeft m va ↔ ¬ present (tables m.mem m.dir (dirIdx va)) ∧ freeFrames bm = ∅ := by
  have hcard : (freeFrames bm).card + 1 = (freeFrames m.bitmap).card := by
    rw [hbm, Finset.card_erase_add_one hq]
  rw [NoPageLeft, framesFor, ← Finset.card_eq_zero]
  split
  · rename_i hp
    exact iff_of_false (by omega) (fun h => h.1 hp)
  · rename_i hp
    constructor
    · intro hlt
      exact ⟨hp, by omega⟩
    · rintro ⟨-, h0⟩
      omega

/-- **`vmm_alloc_map_page` returns `NULL`** if and only if there are too few frames. -/
theorem vmmAllocMapPage_null (hS : LowSpec T Low) (hM : MachInv L Low m spaces) (hva : va < 2 ^ 32)
    (hva0 : va ≠ 0) (flags : Nat) :
    Ensures T (vmmAllocMapPage m va flags) (fun r => r.1 = 0 ↔ NoPageLeft m va) := by
  unfold vmmAllocMapPage
  rcases allocPage_spec m with ⟨halloc, hempty⟩ | ⟨q, hq, bm, halloc, hbm⟩
  · simp only [halloc, Option.bind_eq_bind, Option.bind_some, if_true]
    refine .ret (iff_of_true rfl ?_)
    rw [NoPageLeft, hempty, Finset.card_empty, framesFor]
    split
    · norm_num
    · norm_num
  · simp only [halloc, Option.bind_eq_bind, Option.bind_some,
      if_neg (isFrame_of_free hq).addr_ne_zero]
    refine (vmmMapPage_null hS (hM.take hbm) hva _ flags).bind ?_
    rintro ⟨r, m₁⟩ hr
    have hnull : r ≠ 0 ↔ NoPageLeft m va := hr.trans (noPageLeft_iff hq hbm).symm
    simp only
    split
    · rename_i hne
      obtain ⟨bm', hfree, -⟩ := freePage_spec m₁ (4096 * q)
      rw [hfree]
      exact .ret (iff_of_true rfl (hnull.mp hne))
    · rename_i hzero
      exact .ret (iff_of_false hva0 (fun hleft => hzero (hnull.mpr hleft)))

/-! ## 2. Why `kmalloc` returns `NULL` -/

section Null

variable {σ : Type} {E : HeapEnv σ} {Good : Nat → σ → Prop} {h h' : HeapState σ} {bs : List Block}

theorem takeBlock_ptr {block size r : Nat} (hrun : E.takeBlock h block size = some (r, h')) :
    r = add32 block headerSize := by
  simp only [HeapEnv.takeBlock, Option.bind_eq_bind, Option.bind_eq_some_iff, Option.some.injEq,
    Prod.mk.injEq] at hrun
  obtain ⟨_, -, _, -, hr, -⟩ := hrun
  exact hr.symm

/-- `expand_heap` returns the end of the heap, or its loop has stopped half way. -/
theorem expandHeap_cases {n r : Nat} (hrun : E.expandHeap h n = some (r, h')) :
    r = h.heapEnd ∨ r = 0 ∧ ∃ pages, E.expandPages h 0 pages = some (false, h') := by
  simp only [HeapEnv.expandHeap, Option.bind_eq_bind, Option.bind_eq_some_iff] at hrun
  obtain ⟨⟨mapped, h₀⟩, hpages, hrest⟩ := hrun
  cases mapped with
  | true =>
    simp only [if_true, Option.bind_eq_some_iff, Option.some.injEq, Prod.mk.injEq] at hrest
    obtain ⟨_, -, _, -, _, -, _, -, hr, -⟩ := hrest
    exact Or.inl hr.symm
  | false =>
    simp only [Bool.false_eq_true, if_false, Option.some.injEq, Prod.mk.injEq] at hrest
    obtain ⟨hr, rfl⟩ := hrest
    exact Or.inr ⟨hr.symm, _, hpages⟩

/-- A request of some bytes that gets `NULL` does so because `expand_heap` has stopped half way. -/
theorem kmalloc_null (hI : HeapInv E Good k h bs) {n : Nat} (hn : n ≠ 0)
    (hcall : E.kmalloc h n = some (0, h')) :
    ∃ pages, E.expandPages h 0 pages = some (false, h') := by
  have hlo := hI.tiles.le
  have hbound := hI.bound
  have hpaged := hI.paged
  have hstart := kheapStart_eq
  have h16 := headerSize_eq
  obtain ⟨⟨block, last⟩, hfind, hfound⟩ := hI.toListed.findFit (HeapEnv.align8 n)
  simp only [HeapEnv.kmalloc, if_neg hn, hfind, Option.bind_eq_bind, Option.bind_some] at hcall
  rcases hfound with ⟨pre, b, post, rfl, -, -, hr⟩ | hr
  · -- a block of the list is not the one header below the top of memory
    obtain ⟨rfl, rfl⟩ := Prod.mk.inj hr
    have hb : b ∈ pre ++ b :: post := by simp
    have hbd := hI.size_lt b hb
    rw [if_pos (hI.pos b hb)] at hcall
    have hptr := takeBlock_ptr hcall
    rw [add32_of_lt (by omega)] at hptr
    omega
  · obtain ⟨rfl, rfl⟩ := Prod.mk.inj hr
    rw [if_neg (not_not.mpr rfl), Option.bind_eq_some_iff] at hcall
    obtain ⟨⟨fresh, h₁⟩, hexp, hrest⟩ := hcall
    simp only at hrest
    rcases expandHeap_cases hexp with rfl | ⟨rfl, pages, hpages⟩
    · rw [if_neg (by omega), Option.bind_eq_some_iff] at hrest
      obtain ⟨_, -, htake⟩ := hrest
      have hptr := takeBlock_ptr htake
      rw [add32_of_lt (by omega)] at hptr
      omega
    · rw [if_pos rfl, Option.some.injEq, Prod.mk.injEq] at hrest
      exact ⟨pages, by rw [hpages, hrest.2]⟩

end Null

/-! ## 3. Frames that are lost -/

/-- No frame has become free, and `q` is neither free nor a directory or table. -/
structure Lost (L : Layout) (spaces : List Nat) (F : Finset Nat) (q : Nat) (m : Machine) : Prop where
  free : freeFrames m.bitmap ⊆ F
  gone : q ∉ freeFrames m.bitmap ∧ ¬ InUse L (tables m.mem) spaces q

theorem Lost.same {F : Finset Nat} (h : Lost L spaces F q m) (hs : SameTables L spaces m m') :
    Lost L spaces F q m' := by
  refine ⟨?_, ?_, fun hu => h.gone.2 (hs.inUse hu)⟩
  · rw [hs.free]
    exact h.free
  · rw [hs.free]
    exact h.gone.1

/-- **What is lost stays lost**: the heap has no way back to a frame it does not know. -/
theorem lost_laws {F : Finset Nat} :
    HeapLaws kernelHeap (fun k m => HeapMachine L spaces bare k m ∧ Lost L spaces F q m) := by
  refine kernelHeap_laws.and (fun hG hP hlo hva hput => hP.same (sameTables_put hG hlo hva hput))
    (fun hG hP hlo hva hput => hP.same (sameTables_put32 hG hlo hva hput)) ?_
  intro k m m' va r hG hP hlo hva hmap
  obtain ⟨hstep, -⟩ := (vmmAllocMapPage_high identity_spec hG.inv hva (kheap_high hlo)
    pageWritable).1 _ hmap
  exact ⟨hstep.free.trans hP.free, hstep.apart hP.gone⟩

section Expand

variable {h h' : HeapState Machine} {n : Nat}

/-- The loop stops: its first page is refused, or mapped and left there. -/
theorem expandPages_false (hrun : kernelHeap.expandPages h 0 n = some (false, h')) :
    ∃ r m₁, vmmAllocMapPage h.mach (add32 h.heapEnd 0) pageWritable = some (r, m₁) ∧
      (r = 0 ∧ h' = { h with mach := m₁ } ∨ r ≠ 0 ∧ ∃ n',
        kernelHeap.expandPages { h with mach := m₁ } 1 n' = some (false, h')) := by
  cases n with
  | zero => exact absurd hrun (by simp [HeapEnv.expandPages])
  | succ n =>
    simp only [HeapEnv.expandPages, Option.bind_eq_bind, Option.bind_eq_some_iff] at hrun
    obtain ⟨⟨r, m₁⟩, hmap, hrest⟩ := hrun
    refine ⟨r, m₁, hmap, ?_⟩
    simp only at hrest
    split at hrest
    · exact Or.inl ⟨‹_›, (Prod.mk.inj (Option.some.inj hrest)).2.symm⟩
    · exact Or.inr ⟨‹_›, n, hrest⟩

/-- If not even one page can be mapped, the machine is as it was. -/
theorem expand_keeps (hG : HeapMachine L spaces bare k h.mach) (hlo : kheapStart ≤ h.heapEnd)
    (hend : h.heapEnd < 2 ^ 32) (hleft : NoPageLeft h.mach h.heapEnd)
    (hrun : kernelHeap.expandPages h 0 n = some (false, h')) :
    h'.mach.dir = h.mach.dir ∧ h'.mach.mem = h.mach.mem ∧
      freeFrames h'.mach.bitmap = freeFrames h.mach.bitmap := by
  have hstart := kheapStart_eq
  obtain ⟨r, m₁, hmap, hcase⟩ := expandPages_false hrun
  rw [add32_of_lt hend, Nat.add_zero] at hmap
  have hr := ((vmmAllocMapPage_null identity_spec hG.inv hend (by omega) _).1 _ hmap).mpr hleft
  obtain ⟨hstep, ⟨-, hmem, hfree, -⟩ | ⟨hva, -⟩⟩ :=
    (vmmAllocMapPage_high identity_spec hG.inv hend (kheap_high hlo) _).1 _ hmap
  · rcases hcase with ⟨-, rfl⟩ | ⟨hne, -⟩
    · exact ⟨hstep.dir, hmem, hfree⟩
    · exact absurd hr hne
  · simp only at hr hva
    omega

/-- **Otherwise the frame of the first page is lost.** -/
theorem expand_loses (hG : HeapMachine L spaces bare k h.mach) (hlo : kheapStart ≤ h.heapEnd)
    (hpaged : 4096 ∣ h.heapEnd) (hroom : h.heapEnd + 4096 * k < 2 ^ 32)
    (hleft : ¬ NoPageLeft h.mach h.heapEnd)
    (hrun : kernelHeap.expandPages h 0 n = some (false, h')) :
    MachInv L Identity h'.mach spaces ∧ ∃ q ∈ freeFrames h.mach.bitmap,
      Lost L spaces (freeFrames h.mach.bitmap) q h'.mach := by
  have hstart := kheapStart_eq
  have hend : h.heapEnd < 2 ^ 32 := by omega
  obtain ⟨r, m₁, hmap, hcase⟩ := expandPages_false hrun
  rw [add32_of_lt hend, Nat.add_zero] at hmap
  have hr : r ≠ 0 := fun h0 =>
    hleft (((vmmAllocMapPage_null identity_spec hG.inv hend (by omega) _).1 _ hmap).mp h0)
  obtain ⟨hstep, ⟨h0, -⟩ | ⟨-, q, hq, hq', hnot, -⟩⟩ :=
    (vmmAllocMapPage_high identity_spec hG.inv hend (kheap_high hlo) _).1 _ hmap
  · exact absurd h0 hr
  · rcases hcase with ⟨h0, -⟩ | ⟨-, n', hrun'⟩
    · exact absurd h0 hr
    · -- the rest of the loop runs on a machine that has lost `q`
      obtain ⟨r', t, hmap', ⟨h0, -⟩ | ⟨-, k', rfl, hG₁, -⟩⟩ := kernelHeap_laws.map hG hlo hend hpaged
      · exact absurd ((Prod.mk.inj (Option.some.inj (hmap.symm.trans hmap'))).1.trans h0) hr
      · obtain ⟨rfl, rfl⟩ := Prod.mk.inj (Option.some.inj (hmap.symm.trans hmap'))
        obtain ⟨mapped, h₁, k₁, hrun₁, -, -, -, ⟨hG', hlost⟩, -⟩ := expandPages_spec
          (lost_laws (F := freeFrames h.mach.bitmap) (q := q)) n' (h := { h with mach := m₁ }) (i := 1)
          ⟨hG₁, hstep.free, hq', hnot⟩ hlo hpaged (by simp only; omega)
        obtain ⟨-, rfl⟩ := Prod.mk.inj (Option.some.inj (hrun₁.symm.trans hrun'))
        exact ⟨hG'.inv, q, hq, hlost⟩

end Expand

/-! ## 4. Out of memory -/

/-- The pages the loaded directory has as tables. -/
def Machine.tableFrames (m : Machine) : Finset Nat :=
  ((Finset.univ : Finset (Fin 1024)).filter (fun i => present (tables m.mem m.dir i))).image
    (fun i => pfn (tables m.mem m.dir i))

/-- Frames that were free and are tables of the directory now. -/
def keptTables (m m' : Machine) : Finset Nat := freeFrames m.bitmap ∩ m'.tableFrames

/-- A call that returned `NULL` has lost nothing: the list of blocks in memory, `heap_end`, and, but
for new tables, what `pmm_get_free_memory` reports. -/
structure LosesNothing (h h' : HeapState Machine) : Prop where
  head : h'.heapHead = h.heapHead
  stop : h'.heapEnd = h.heapEnd
  bytes : ∀ x, kheapStart ≤ x → x < h.heapEnd → kernelHeap.get h'.mach x = kernelHeap.get h.mach x
  frames : pmmGetFreeMemory h.mach.bitmap = (pmmGetFreeMemory h'.mach.bitmap).map
    (· + (keptTables h.mach h'.mach).card * pageSize)

theorem freeMemory_frames (bm : Bitmap) :
    pmmGetFreeMemory bm = some ((freeFrames bm).card * pageSize) := by
  rw [pmmGetFreeMemory_spec, freeFrames,
    Finset.card_image_of_injective _ (fun _ _ heq => Nat.add_right_cancel heq)]

theorem freeMemory_iff : pmmGetFreeMemory m.bitmap = (pmmGetFreeMemory m'.bitmap).map
      (· + (keptTables m m').card * pageSize) ↔
    (freeFrames m.bitmap).card = (freeFrames m'.bitmap).card + (keptTables m m').card := by
  rw [freeMemory_frames, freeMemory_frames, Option.map_some, Option.some.injEq, ← Nat.add_mul]
  exact Nat.mul_left_inj (by decide)

theorem inUse_tableFrames (hM : MachInv L Low m spaces) (hq : q ∈ m.tableFrames) :
    InUse L (tables m.mem) spaces q := by
  obtain ⟨i, hi, rfl⟩ := Finset.mem_image.mp hq
  exact hM.vm.inUse_table hM.dir (Finset.mem_filter.mp hi).2

/-- The same tables and free frames: nothing to report. -/
theorem frames_same (hM : MachInv L Low m spaces) (hdir : m'.dir = m.dir) (hmem : m'.mem = m.mem)
    (hfree : freeFrames m'.bitmap = freeFrames m.bitmap) :
    (freeFrames m.bitmap).card = (freeFrames m'.bitmap).card + (keptTables m m').card := by
  have hnone : keptTables m m' = ∅ := by
    refine Finset.eq_empty_of_forall_notMem (fun q hq => ?_)
    obtain ⟨hq, ht⟩ := Finset.mem_inter.mp hq
    rw [Machine.tableFrames, hdir, hmem] at ht
    exact hM.vm.not_inUse_of_free hq (inUse_tableFrames hM ht)
  rw [hnone, hfree, Finset.card_empty, Nat.add_zero]

/-- A lost frame is missing in the count. -/
theorem Lost.card_lt (hM : MachInv L Low m' spaces) (hq : q ∈ freeFrames m.bitmap)
    (h : Lost L spaces (freeFrames m.bitmap) q m') :
    (freeFrames m'.bitmap).card + (keptTables m m').card < (freeFrames m.bitmap).card := by
  have hdisj : Disjoint (freeFrames m'.bitmap) (keptTables m m') := by
    refine Finset.disjoint_left.mpr (fun p hp hk => ?_)
    exact hM.vm.not_inUse_of_free hp (inUse_tableFrames hM (Finset.mem_inter.mp hk).2)
  have hsub : freeFrames m'.bitmap ∪ keptTables m m' ⊆ (freeFrames m.bitmap).erase q := by
    intro p hp
    rcases Finset.mem_union.mp hp with hp | hp
    · refine Finset.mem_erase.mpr ⟨?_, h.free hp⟩
      rintro rfl
      exact h.gone.1 hp
    · obtain ⟨hp, ht⟩ := Finset.mem_inter.mp hp
      refine Finset.mem_erase.mpr ⟨?_, hp⟩
      rintro rfl
      exact h.gone.2 (inUse_tableFrames hM ht)
  have hcard := Finset.card_le_card hsub
  have herase := Finset.card_erase_add_one hq
  rw [Finset.card_union_of_disjoint hdisj] at hcard
  omega

section Run

variable {h h' : HeapState Machine} {bs : List Block} {held : Finset Nat} {n : Nat}

/-- **A `kmalloc` that runs out of memory** loses nothing if and only if it can map nothing. -/
theorem losesNothing_iff (hI : HeapInv kernelHeap (OwnMachine L spaces bare held) k h bs) (hn : n ≠ 0)
    (hcall : kernelHeap.kmalloc h n = some (0, h')) :
    LosesNothing h h' ↔ NoPageLeft h.mach h.heapEnd := by
  have hlo := hI.tiles.le
  have hroom := hI.room
  obtain ⟨hG, -⟩ := hI.good
  obtain ⟨pages, hrun⟩ := kmalloc_null hI hn hcall
  constructor
  · intro hnothing
    by_contra hleft
    obtain ⟨hM, q, hq, hlost⟩ := expand_loses hG hlo hI.paged hroom hleft hrun
    have hlt := hlost.card_lt hM hq
    have heq := freeMemory_iff.mp hnothing.frames
    omega
  · intro hleft
    obtain ⟨mapped, h₁, k₁, hrun₁, hhead, hend, -, -, hbytes, -⟩ :=
      expandPages_spec ownMachine_laws pages (i := 0) hI.good hlo hI.paged (by omega)
    obtain ⟨-, rfl⟩ := Prod.mk.inj (Option.some.inj (hrun₁.symm.trans hrun))
    obtain ⟨hdir, hmem, hfree⟩ := expand_keeps hG hlo (by omega) hleft hrun
    exact ⟨hhead, hend, fun x hx hx' => hbytes x hx (by omega),
      freeMemory_iff.mpr (frames_same hG.inv hdir hmem hfree)⟩

/-- More pages than there are frames cannot be had. -/
theorem kmalloc_huge (hI : HeapInv kernelHeap (OwnMachine L spaces bare held) numberOfPages h bs)
    (hn : n ≤ 0xFFFFEFF0) (hmax : 4096 * numberOfPages < n) :
    ∃ h', kernelHeap.kmalloc h n = some (0, h') := by
  obtain ⟨p, h', k', bs', e, hI', -, hcase⟩ := kmalloc_spec ownMachine_laws hI hn
  rcases hcase with ⟨rfl, -⟩ | ⟨b, rfl, -, -, hall⟩
  · exact ⟨h', e⟩
  · -- a block of this size would end above any heap there can be
    have hb := hI'.tiles.bounds b ((hall.used b).mpr (Or.inl rfl)).1
    have hsize := hall.size
    have hend := hI'.end_le
    omega

/-- **Out of memory**, over whole runs.  The kernel runs as for `heap_frames_distinct`; then a `kmalloc`
of any number of bytes returns `NULL`.  It has lost nothing if and only if not even the first page
behind `heap_end` could be mapped. -/
theorem kmalloc_oom_iff {m₀ m₁ : Machine} (hboot : m₀.paging = false)
    (hinit : vmmInit L m₀ = some m₁) {v : VmState}
    (hv : Reach (vmStep L) (SpacesOnly L) ⟨m₁, []⟩ v) {s : FrameRun}
    (hs : Reach frameStep FrameOk (frameBoot v.mach) s) (hn : n ≠ 0)
    (hcall : kernelHeap.kmalloc s.heap n = some (0, h')) :
    LosesNothing s.heap h' ↔ NoPageLeft s.heap.mach s.heap.heapEnd := by
  obtain ⟨bs, hI, -⟩ := frameInv_reach hboot hinit hv hs
  exact losesNothing_iff hI hn hcall

end Run

/-- 64 MB are more than the frames of the machine. -/
theorem kmalloc_oom_iff_boot : ∃ m₁ h', vmmInit sampleLayout blankMachine = some m₁ ∧
    kernelHeap.kmalloc (frameBoot m₁).heap 0x4000000 = some (0, h') ∧
    (LosesNothing (frameBoot m₁).heap h' ↔ NoPageLeft m₁ kheapStart) := by
  obtain ⟨m₁, hinit, -⟩ := vmmInit_spec (L := sampleLayout) (m := blankMachine) rfl
  obtain ⟨bs, hI, -⟩ := frameInv_reach (v := ⟨m₁, []⟩) rfl hinit .refl .refl
  obtain ⟨h', hcall⟩ := kmalloc_huge hI (n := 0x4000000) (by decide) (by decide)
  exact ⟨m₁, h', hinit, hcall,
    kmalloc_oom_iff (v := ⟨m₁, []⟩) rfl hinit .refl .refl (by decide) hcall⟩

/-- **A failed `kmalloc` loses frames.**  After `vmm_init` a request of 64 MB returns `NULL`; the frames
it has mapped before it ran out are missing from `pmm_get_free_memory` and are no tables. -/
theorem failed_kmalloc_loses_frames : ∃ m₁ h', vmmInit sampleLayout blankMachine = some m₁ ∧
    kernelHeap.kmalloc (frameBoot m₁).heap 0x4000000 = some (0, h') ∧
    ¬ LosesNothing (frameBoot m₁).heap h' ∧
    (freeFrames h'.mach.bitmap).card + (keptTables m₁ h'.mach).card <
      (freeFrames m₁.bitmap).card := by
  obtain ⟨m₁, hinit, -, -, hfree, -⟩ := vmmInit_spec (L := sampleLayout) (m := blankMachine) rfl
  obtain ⟨bs, hI, -⟩ := frameInv_reach (v := ⟨m₁, []⟩) rfl hinit .refl .refl
  obtain ⟨h', hcall⟩ := kmalloc_huge hI (n := 0x4000000) (by decide) (by decide)
  have hleft : ¬ NoPageLeft m₁ kheapStart := by
    rw [NoPageLeft, framesFor, hfree, Nat.card_Ico]
    split
    · decide
    · decide
  obtain ⟨pages, hrun⟩ := kmalloc_null hI (by decide) hcall
  obtain ⟨hM, q, hq, hlost⟩ := expand_loses hI.good.1 hI.tiles.le hI.paged hI.room hleft hrun
  have hlt := hlost.card_lt hM hq
  refine ⟨m₁, h', hinit, hcall, fun hnothing => ?_, hlt⟩
  have heq := freeMemory_iff.mp hnothing.frames
  exact absurd heq hlt.ne'

end JarvOs.Memory
