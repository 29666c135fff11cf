/-
# The frames behind the heap

`expand_heap` maps its pages one by one with frames of `pmm.c`, may stop half way, and may later map
new frames over the pages it left mapped.  Other parts of the kernel take frames in between.  Here is
what keeps them apart: every page from `KHEAP_START` up in the loaded directory is writable and has a
frame of its own, which is not free, not a directory or table, and not one of those others hold.

This lives in the page tables, and the heap's own writes must not reach them.  They do not as long as
the block list is a list of the heap's memory, which takes requests whose size computations do not
wrap (`heap_frames_distinct`).
-/
import JarvOs.Memory.KernelHeap

namespace JarvOs.Memory

open JarvOs.Lib

variable {L : Layout} {m m' : Machine} {spaces : List Nat} {bare : Nat → Prop} {k : Nat}
  {held : Finset Nat}

/-! ## 1. Writes that do not reach the tables -/

/-- The same directories and tables, and the same free frames. -/
structure SameTables (L : Layout) (spaces : List Nat) (m m' : Machine) : Prop where
  cr3 : m'.cr3 = m.cr3
  free : freeFrames m'.bitmap = freeFrames m.bitmap
  words : ∀ q, InUse L (tables m.mem) spaces q → ∀ i, tables m'.mem q i = tables m.mem q i

theorem SameTables.dir (h : SameTables L spaces m m') : m'.dir = m.dir := by
  rw [Machine.dir, h.cr3]
  rfl

theorem SameTables.entry (h : SameTables L spaces m m') (hM : MachInv L Identity m spaces)
    (i j : Fin 1024) : (tables m'.mem).entry m.dir i j = (tables m.mem).entry m.dir i j :=
  hM.vm.entry_congr hM.dir h.words

theorem SameTables.inUse (h : SameTables L spaces m m') {q : Nat}
    (hq : InUse L (tables m'.mem) spaces q) : InUse L (tables m.mem) spaces q :=
  inUse_congr (fun d hd i => h.words d (inUse_dir hd) i) hq

/-- A byte of the heap's window is in no directory or table. -/
theorem HeapMachine.page_ne (hG : HeapMachine L spaces bare k m) {va a q : Nat}
    (hlo : kheapStart ≤ va) (hva : va < 2 ^ 32) (ha : m.translate va = some a)
    (hq : InUse L (tables m.mem) spaces q) : q ≠ a / 4096 := by
  obtain ⟨e, -, -, hpage, -, hnot⟩ := hG.data_frame hlo hva ha
  rintro rfl
  exact hnot (hpage ▸ hq)

theorem sameTables_put (hG : HeapMachine L spaces bare k m) {va : Nat} {x : UInt8}
    (hlo : kheapStart ≤ va) (hva : va < 2 ^ 32) (hput : kernelHeap.put m va x = some m') :
    SameTables L spaces m m' := by
  obtain ⟨a, ha, rfl⟩ := Option.map_eq_some_iff.mp hput
  exact ⟨rfl, rfl, fun q hq i => tables_setByte_ne _ x (hG.page_ne hlo hva ha hq) i⟩

theorem sameTables_put32 (hG : HeapMachine L spaces bare k m) {va v : Nat}
    (hlo : kheapStart ≤ va) (hva : va + 4 ≤ 2 ^ 32) (hput : kernelHeap.put32 m va v = some m') :
    SameTables L spaces m m' := by
  have hput' : m.put32 va v = some m' := hput
  simp only [put32_of_le m hva, Option.bind_eq_some_iff, Option.some.injEq] at hput'
  obtain ⟨a₀, h0, a₁, h1, a₂, h2, a₃, h3, rfl⟩ := hput'
  refine ⟨rfl, rfl, fun q hq i => ?_⟩
  rw [tables_setByte_ne _ _ (hG.page_ne (by omega) (by omega) h3 hq),
    tables_setByte_ne _ _ (hG.page_ne (by omega) (by omega) h2 hq),
    tables_setByte_ne _ _ (hG.page_ne (by omega) (by omega) h1 hq),
    tables_setByte_ne _ _ (hG.page_ne hlo (by omega) h0 hq)]

/-! ## 2. Frames of one's own -/

/-- Pages above 80 MB in the loaded directory are writable and have frames of `pmm.c` that nobody
else holds; the frames others hold are neither free nor directories or tables. -/
structure OwnFrames (L : Layout) (spaces : List Nat) (held : Finset Nat) (m : Machine) : Prop where
  entry : ∀ {i j : Fin 1024} {e : Nat}, 20 ≤ (i : Nat) → (tables m.mem).entry m.dir i j = some e →
    writable e ∧ IsFrame (pfn e) ∧ pfn e ∉ held
  held : ∀ q ∈ held, q ∉ freeFrames m.bitmap ∧ ¬ InUse L (tables m.mem) spaces q

theorem OwnFrames.same (h : OwnFrames L spaces held m) (hM : MachInv L Identity m spaces)
    (hs : SameTables L spaces m m') : OwnFrames L spaces held m' := by
  refine ⟨fun {i j e} hi he => ?_, fun q hq => ⟨?_, fun hu => (h.held q hq).2 (hs.inUse hu)⟩⟩
  · rw [hs.dir, hs.entry hM] at he
    exact h.entry hi he
  · rw [hs.free]
    exact (h.held q hq).1

/-- **A new page** gets a frame that was free. -/
theorem OwnFrames.map (h : OwnFrames L spaces held m) (hG : HeapMachine L spaces bare k m)
    {va r : Nat} (hlo : kheapStart ≤ va) (hva : va < 2 ^ 32)
    (hmap : vmmAllocMapPage m va pageWritable = some (r, m')) : OwnFrames L spaces held m' := by
  obtain ⟨hstep, hcase⟩ := (vmmAllocMapPage_high identity_spec hG.inv hva (kheap_high hlo)
    pageWritable).1 _ hmap
  simp only at hstep hcase
  rcases hcase with ⟨-, hmem, hfree, -⟩ | ⟨-, q, hq, -, -, hentry⟩
  · exact h.same hG.inv ⟨hstep.cr3, hfree, fun _ _ _ => by rw [hmem]⟩
  · have hfr := isFrame_of_free hq
    refine ⟨fun {i j e} hi he => ?_, fun p hp => hstep.apart (h.held p hp)⟩
    rw [hstep.dir, hentry _ hG.inv.dir] at he
    split at he
    · obtain rfl := Option.some.inj he
      rw [hfr.pteOf_pfn]
      refine ⟨?_, hfr, fun hheld => (h.held q hheld).1 hq⟩
      exact (writable_or _ _).mpr (Or.inl ((writable_or _ _).mpr (Or.inr (by decide))))
    · exact h.entry hi he

/-- The machine between two calls of a heap whose frames are its own. -/
def OwnMachine (L : Layout) (spaces : List Nat) (bare : Nat → Prop) (held : Finset Nat) (k : Nat)
    (m : Machine) : Prop := HeapMachine L spaces bare k m ∧ OwnFrames L spaces held m

/-- **The heap keeps its frames its own.** -/
theorem ownMachine_laws : HeapLaws kernelHeap (OwnMachine L spaces bare held) :=
  kernelHeap_laws.and
    (fun hG hP hlo hva hput => hP.same hG.inv (sameTables_put hG hlo hva hput))
    (fun hG hP hlo hva hput => hP.same hG.inv (sameTables_put32 hG hlo hva hput))
    (fun hG hP hlo hva hmap => hP.map hG hlo hva hmap)

/-! ## 3. Pages of the heap -/

/-- The heap page of `va` is present through the entry `e`, writable, and has a frame that is not
free, not a directory or table, and held by nobody else. -/
structure PageBacked (L : Layout) (spaces : List Nat) (held : Finset Nat) (m : Machine) (va e : Nat) :
    Prop where
  entry : (tables m.mem).entry m.dir (dirIdx va) (tabIdx va) = some e
  writable_pde : writable (tables m.mem m.dir (dirIdx va))
  writable_pte : writable e
  not_free : pfn e ∉ freeFrames m.bitmap
  not_table : ¬ InUse L (tables m.mem) spaces (pfn e)
  not_held : pfn e ∉ held

/-- **The pages of the heap are backed by frames of their own.** -/
def HeapBacked (L : Layout) (spaces : List Nat) (held : Finset Nat) (h : HeapState Machine) : Prop :=
  ∀ va, kheapStart ≤ va → va < h.heapEnd → ∃ e, PageBacked L spaces held h.mach va e ∧
    ∀ vb e', kheapStart ≤ vb → vb < h.heapEnd →
      (tables h.mach.mem).entry h.mach.dir (dirIdx vb) (tabIdx vb) = some e' → pfn e' = pfn e →
      vb / 4096 = va / 4096

section Pages

variable {h : HeapState Machine} {bs : List Block}

theorem HeapInv.pageBacked (hI : HeapInv kernelHeap (OwnMachine L spaces bare held) k h bs) {va : Nat}
    (hlo : kheapStart ≤ va) (hhi : va < h.heapEnd) : ∃ e, PageBacked L spaces held h.mach va e := by
  have hbound := hI.bound
  obtain ⟨hG, hP⟩ := hI.good
  obtain ⟨a, ha⟩ := translate_of_get (hI.mapped va hlo hhi)
  obtain ⟨e, he, -, -, hfree, hnot⟩ := hG.data_frame hlo (by omega) ha
  have hi := dirIdx_high (show va < 2 ^ 32 by omega) (kheap_high hlo)
  obtain ⟨hw, -, hheld⟩ := hP.entry hi he
  have hpde := (hG.inv.vm.table _ hG.inv.dir _ hi (entry_eq_some.mp he).1).2.2.2.2
  exact ⟨e, he, hpde, hw, hfree, hnot, hheld⟩

theorem HeapInv.backed (hI : HeapInv kernelHeap (OwnMachine L spaces bare held) k h bs) :
    HeapBacked L spaces held h := by
  intro va hlo hhi
  have hbound := hI.bound
  obtain ⟨hG, -⟩ := hI.good
  obtain ⟨e, he⟩ := hI.pageBacked hlo hhi
  refine ⟨e, he, fun vb e' hlo' hhi' he' heq => ?_⟩
  obtain ⟨-, hidx⟩ := hG.data.inj _ hG.inv.dir _ hG.inv.dir
    (dirIdx_high (by omega) (kheap_high hlo')) (dirIdx_high (by omega) (kheap_high hlo)) he' he.entry heq
  exact (idx_eq_iff (by omega) (by omega)).mp hidx

/-- The heap has no more pages than there are frames. -/
theorem HeapInv.end_le (hI : HeapInv kernelHeap (OwnMachine L spaces bare held) k h bs) :
    h.heapEnd ≤ kheapStart + 4096 * numberOfPages := by
  have hstart := kheapStart_eq
  have hbound := hI.bound
  obtain ⟨hG, hP⟩ := hI.good
  by_contra hlt
  -- one page more than there are frames, each with a frame of its own
  have hpage : ∀ i < numberOfPages + 1, ∃ e, PageBacked L spaces held h.mach (kheapStart + 4096 * i) e :=
    fun i hi => hI.pageBacked (by omega) (by omega)
  choose! f hf using hpage
  have hcard : (Finset.range (numberOfPages + 1)).card ≤ (Finset.Ico 256 16384).card := by
    refine Finset.card_le_card_of_injOn (fun i => pfn (f i)) (fun i hi => ?_) (fun i hi j hj heq => ?_)
    · have hi' := Finset.mem_range.mp hi
      have hva : kheapStart + 4096 * i < 2 ^ 32 := by omega
      exact Finset.mem_coe.mpr (Finset.mem_Ico.mpr
        (hP.entry (dirIdx_high hva (kheap_high (by omega))) (hf i hi').entry).2.1)
    · have hi' := Finset.mem_range.mp hi
      have hj' := Finset.mem_range.mp hj
      obtain ⟨e, he, hinj⟩ := hI.backed (kheapStart + 4096 * i) (by omega) (by omega)
      obtain rfl := Option.some.inj (he.entry.symm.trans (hf i hi').entry)
      have := hinj (kheapStart + 4096 * j) (f j) (by omega) (by omega) (hf j hj').entry heq.symm
      omega
  rw [Finset.card_range, Nat.card_Ico, numberOfPages_eq] at hcard
  omega

/-- So the bound on the frames left can always be that of all frames. -/
theorem HeapInv.refill (hI : HeapInv kernelHeap (OwnMachine L spaces bare held) k h bs) :
    HeapInv kernelHeap (OwnMachine L spaces bare held) numberOfPages h bs := by
  have hend := hI.end_le
  have hstart := kheapStart_eq
  have hpages := numberOfPages_eq
  obtain ⟨hG, hP⟩ := hI.good
  exact hI.rebound ⟨⟨hG.inv, hG.data, hG.loaded, hG.empty, card_freeFrames_le _⟩, hP⟩ (by omega)

end Pages

/-! ## 4. Runs -/

/-- Calls of the heap, and of `pmm.c` by others. -/
inductive FrameOp
  | heap (op : HeapOp)
  | allocPage
  | freePage (addr : Nat)
deriving DecidableEq, Repr

/-- The heap and the machine it lies in, the pointers its callers hold, and the frames other callers
of `pmm.c` hold. -/
structure FrameRun where
  heap : HeapState Machine
  live : Finset Nat
  held : Finset Nat

/-- The same on another machine. -/
def FrameRun.on (s : FrameRun) (m : Machine) (held : Finset Nat) : FrameRun :=
  { s with heap := { s.heap with mach := m }, held := held }

/-- One call. -/
def frameStep (s : FrameRun) : FrameOp → Option FrameRun
  | .heap op => (heapStep kernelHeap ⟨s.heap, s.live⟩ op).map (fun t =>
      { s with heap := t.heap, live := t.live })
  | .allocPage => s.heap.mach.allocPage.map (fun r =>
      s.on r.2 (if r.1 = 0 then s.held else insert (r.1 / 4096) s.held))
  | .freePage addr => (s.heap.mach.freePage addr).map (fun m => s.on m (s.held.erase (addr / 4096)))

/-- Nobody gives back what they do not hold. -/
def FrameLegal (s : FrameRun) : FrameOp → Prop
  | .heap op => op.arg = 0 ∨ op.arg ∈ s.live
  | .allocPage => True
  | .freePage addr => addr / 4096 ∈ s.held

/-- No size computation of the heap wraps. -/
def FrameOp.Fits : FrameOp → Prop
  | .heap (.kmalloc n) => n ≤ 0xFFFFEFF0
  | .heap (.krealloc _ n) => n ≤ 0xFFFFEFF0
  | _ => True

/-- A legal call that wraps nothing. -/
def FrameOk (s : FrameRun) (op : FrameOp) : Prop := FrameLegal s op ∧ op.Fits

/-- The kernel after `kmalloc_init`. -/
def frameBoot (m : Machine) : FrameRun := ⟨HeapEnv.kmallocInit m, ∅, ∅⟩

/-- The heap of the run lies in the directory `d`, and nothing else does above 80 MB. -/
def FrameInv (L : Layout) (spaces : List Nat) (d : Nat) (s : FrameRun) : Prop :=
  ∃ bs, HeapInv kernelHeap (OwnMachine L spaces (· ≠ d) s.held) numberOfPages s.heap bs ∧
    LiveIs bs s.live

variable {s t : FrameRun} {d : Nat}

theorem heapLegal_of_fits {op : HeapOp} (hok : FrameLegal s (.heap op))
    (hfits : FrameOp.Fits (.heap op)) : HeapLegal (⟨s.heap, s.live⟩ : HeapRun Machine) op := by
  cases op with
  | kmalloc n => exact hfits
  | krealloc p n => exact ⟨hfits, hok⟩
  | kfree p => exact hok

theorem frameInv_heap (hs : FrameInv L spaces d s) {op : HeapOp} (hok : FrameLegal s (.heap op))
    (hfits : FrameOp.Fits (.heap op)) (hst : frameStep s (.heap op) = some t) :
    FrameInv L spaces d t := by
  obtain ⟨bs, hI, hl⟩ := hs
  obtain ⟨t', ht', rfl⟩ := Option.map_eq_some_iff.mp hst
  obtain ⟨r, h', hcall, k', bs', hI', hl', -, -⟩ :=
    heapCall_spec ownMachine_laws hI hl (heapLegal_of_fits hok hfits)
  rw [heapStep, hcall, Option.map_some, Option.some.injEq] at ht'
  subst ht'
  exact ⟨bs', hI'.refill, hl'⟩

theorem frameInv_allocPage (hs : FrameInv L spaces d s) (hst : frameStep s .allocPage = some t) :
    FrameInv L spaces d t := by
  obtain ⟨bs, hI, hl⟩ := hs
  obtain ⟨r, hr, rfl⟩ := Option.map_eq_some_iff.mp hst
  obtain ⟨hG, hP⟩ := hI.good
  rcases allocPage_spec s.heap.mach with ⟨h, -⟩ | ⟨q, hq, bm, h, hbm⟩
  · obtain rfl := Option.some.inj (hr.symm.trans h)
    simp only [if_true]
    exact ⟨bs, hI, hl⟩
  · obtain rfl := Option.some.inj (hr.symm.trans h)
    simp only [if_neg (isFrame_of_free hq).addr_ne_zero,
      Nat.mul_div_cancel_left q (show 0 < 4096 by norm_num)]
    refine ⟨bs, hI.of_same ⟨⟨hG.inv.take hbm, ?_, hG.loaded, hG.empty, card_freeFrames_le _⟩, ?_, ?_⟩
      (fun _ _ _ => rfl), hl⟩
    · refine hG.data.step (fun hp => ⟨?_, hp.2⟩) (fun _ hd _ _ _ _ he => ⟨hd, he⟩)
      simp only [hbm]
      exact fun hm => hp.1 (Finset.mem_of_mem_erase hm)
    · intro i j e hi he
      obtain ⟨hw, hfr, hheld⟩ := hP.entry hi he
      refine ⟨hw, hfr, fun hm => ?_⟩
      rcases Finset.mem_insert.mp hm with heq | hm
      · exact (hG.data.apart _ hG.inv.dir hi he).1 (heq ▸ hq)
      · exact hheld hm
    · intro p hp
      simp only [hbm]
      rcases Finset.mem_insert.mp hp with rfl | hp
      · exact ⟨Finset.notMem_erase p _, hG.inv.vm.not_inUse_of_free hq⟩
      · obtain ⟨hfree, hnot⟩ := hP.held p hp
        exact ⟨fun hm => hfree (Finset.mem_of_mem_erase hm), hnot⟩

theorem frameInv_freePage (hs : FrameInv L spaces d s) {addr : Nat} (hok : addr / 4096 ∈ s.held)
    (hst : frameStep s (.freePage addr) = some t) : FrameInv L spaces d t := by
  obtain ⟨bs, hI, hl⟩ := hs
  obtain ⟨m', hm', rfl⟩ := Option.map_eq_some_iff.mp hst
  obtain ⟨hG, hP⟩ := hI.good
  obtain ⟨hfree, hnot⟩ := hP.held _ hok
  obtain ⟨bm, h, hcase⟩ := freePage_spec s.heap.mach addr
  obtain rfl := Option.some.inj (hm'.symm.trans h)
  refine ⟨bs, hI.of_same ⟨⟨?_, ?_, hG.loaded, hG.empty, card_freeFrames_le _⟩, ?_, ?_⟩
    (fun _ _ _ => rfl), hl⟩
  · refine ⟨hG.inv.paging, hG.inv.cr3, hG.inv.dir, ?_⟩
    rcases hcase with ⟨hfr, hbm⟩ | ⟨-, rfl⟩
    · simp only [hbm]
      exact hG.inv.vm.give hfr hnot
    · exact hG.inv.vm
  · refine ⟨fun d' hd' i j e hi he => ?_, hG.data.inj⟩
    obtain ⟨hef, heu⟩ := hG.data.apart d' hd' hi he
    refine ⟨?_, heu⟩
    rcases hcase with ⟨-, hbm⟩ | ⟨-, rfl⟩
    · simp only [hbm, Finset.mem_insert, not_or]
      refine ⟨fun heq => ?_, hef⟩
      -- only the loaded directory has pages up there
      rcases eq_or_ne d' s.heap.mach.dir with rfl | hne
      · exact (hP.entry hi he).2.2 (heq ▸ hok)
      · have hbare : d' ≠ d := fun h' => hG.loaded (fun h'' => hne (h'.trans h''.symm))
        exact absurd (he.symm.trans (hG.empty d' hd' hbare i j hi)) (by simp)
    · exact hef
  · intro i j e hi he
    obtain ⟨hw, hfr, hheld⟩ := hP.entry hi he
    exact ⟨hw, hfr, fun hm => hheld (Finset.mem_of_mem_erase hm)⟩
  · intro p hp
    obtain ⟨hne, hp⟩ := Finset.mem_erase.mp hp
    obtain ⟨hpf, hpu⟩ := hP.held p hp
    refine ⟨?_, hpu⟩
    rcases hcase with ⟨-, hbm⟩ | ⟨-, rfl⟩
    · simp only [hbm, Finset.mem_insert, not_or]
      exact ⟨hne, hpf⟩
    · exact hpf

theorem frameInv_step (hs : FrameInv L spaces d s) {op : FrameOp} (hok : FrameOk s op)
    (hst : frameStep s op = some t) : FrameInv L spaces d t := by
  cases op with
  | heap op => exact frameInv_heap hs hok.1 hok.2 hst
  | allocPage => exact frameInv_allocPage hs hst
  | freePage addr => exact frameInv_freePage hs hok.1 hst

/-- A call returns. -/
theorem frameStep_isSome (hs : FrameInv L spaces d s) {op : FrameOp} (hok : FrameOk s op) :
    (frameStep s op).isSome := by
  obtain ⟨bs, hI, hl⟩ := hs
  cases op with
  | heap op =>
    obtain ⟨r, h', hcall, -⟩ := heapCall_spec ownMachine_laws hI hl (heapLegal_of_fits hok.1 hok.2)
    rw [frameStep, heapStep, hcall]
    rfl
  | allocPage =>
    rcases allocPage_spec s.heap.mach with ⟨h, -⟩ | ⟨q, -, bm, h, -⟩
    · rw [frameStep, h]
      rfl
    · rw [frameStep, h]
      rfl
  | freePage addr =>
    obtain ⟨bm, h, -⟩ := freePage_spec s.heap.mach addr
    rw [frameStep, h]
    rfl

/-! ## 5. From the start of the kernel -/

/-- Address spaces are created and loaded, and nothing else. -/
def SpacesOnly (L : Layout) (v : VmState) : VmOp → Prop
  | .createAddressSpace => True
  | .switchDirectory pageDir => ∃ d ∈ L.kpd :: v.spaces, pageDir = 4096 * d
  | _ => False

/-- No directory has anything above 80 MB. -/
def BareInv (L : Layout) (v : VmState) : Prop :=
  MachInv L Identity v.mach v.spaces ∧ ∀ d ∈ L.kpd :: v.spaces, ∀ i j : Fin 1024, 20 ≤ (i : Nat) →
    (tables v.mach.mem).entry d i j = none

theorem bareInv_step {v w : VmState} {op : VmOp} (hv : BareInv L v) (hok : SpacesOnly L v op)
    (hst : vmStep L v op = some w) : BareInv L w := by
  obtain ⟨hM, hbare⟩ := hv
  cases op with
  | createAddressSpace =>
    obtain ⟨r, hr, rfl⟩ := Option.map_eq_some_iff.mp hst
    have hadd := (vmmCreateAddressSpace_added hM).1 r hr
    refine ⟨hadd.step.inv, fun d hd i j hi => ?_⟩
    rcases hadd.entry (j := j) hd hi with hnone | ⟨hold, hsame⟩
    · exact hnone
    · exact hsame.trans (hbare d hold i j hi)
  | switchDirectory pageDir =>
    obtain ⟨d, hd, rfl⟩ := hok
    obtain rfl := Option.some.inj hst
    exact ⟨hM.switch hd, hbare⟩
  | _ => exact hok.elim

theorem bareInv_boot {m₀ m₁ : Machine} (hboot : m₀.paging = false)
    (hinit : vmmInit L m₀ = some m₁) : BareInv L ⟨m₁, []⟩ := by
  obtain ⟨m', hm', hM, -, -, hnone⟩ := vmmInit_spec (L := L) hboot
  obtain rfl := Option.some.inj (hinit.symm.trans hm')
  refine ⟨hM, fun d hd i j hi => ?_⟩
  obtain rfl := List.mem_singleton.mp hd
  exact entry_of_absent (hnone i hi)

theorem frameInv_boot {v : VmState} (hv : BareInv L v) :
    FrameInv L v.spaces v.mach.dir (frameBoot v.mach) := by
  obtain ⟨hM, hbare⟩ := hv
  refine ⟨[], heapInv_init ⟨⟨hM, .of_empty hbare, fun h => h rfl, fun d hd _ => hbare d hd,
    card_freeFrames_le _⟩, fun {i j e} hi he => ?_, fun q hq => absurd hq (Finset.notMem_empty q)⟩
    (by decide), fun p => by simp [frameBoot, UsedIn]⟩
  exact absurd (he.symm.trans (hbare _ hM.dir i j hi)) (by simp)

/-- Any address spaces, any one of them loaded, and any history. -/
theorem frameInv_reach {m₀ m₁ : Machine} (hboot : m₀.paging = false)
    (hinit : vmmInit L m₀ = some m₁) {v : VmState}
    (hv : Reach (vmStep L) (SpacesOnly L) ⟨m₁, []⟩ v)
    (hs : Reach frameStep FrameOk (frameBoot v.mach) s) : FrameInv L v.spaces v.mach.dir s := by
  have hbare : BareInv L v :=
    hv.inv (bareInv_boot hboot hinit) (fun _ _ _ h hok hst => bareInv_step h hok hst)
  exact hs.inv (frameInv_boot hbare) (fun _ _ _ h hok hst => frameInv_step h hok hst)

/-- **Heap pages are backed by distinct frames**, over whole runs.  From `vmm_init` on, any address
spaces may have been created and any one of them be loaded when the heap is initialised.  Then after
any history of heap calls whose sizes do not wrap and of other callers that take frames and give
back what they hold, the same directory is loaded, every page of `[KHEAP_START, heap_end)` is
writable there with a frame of its own, and the next such call returns. -/
theorem heap_frames_distinct {m₀ m₁ : Machine} (hboot : m₀.paging = false)
    (hinit : vmmInit L m₀ = some m₁) {v : VmState}
    (hv : Reach (vmStep L) (SpacesOnly L) ⟨m₁, []⟩ v)
    (hs : Reach frameStep FrameOk (frameBoot v.mach) s) :
    s.heap.mach.dir = v.mach.dir ∧ HeapBacked L v.spaces s.held s.heap ∧
      ∀ op, FrameOk s op → (frameStep s op).isSome := by
  obtain ⟨bs, hI, hl⟩ := frameInv_reach hboot hinit hv hs
  exact ⟨not_not.mp hI.good.1.loaded, hI.backed, fun op => frameStep_isSome ⟨bs, hI, hl⟩⟩

/-- A first allocation, and a frame for somebody else. -/
theorem heap_frames_distinct_sample : ∃ m₁ s, vmmInit sampleLayout blankMachine = some m₁ ∧
    run frameStep (frameBoot m₁) [.heap (.kmalloc 8), .allocPage] = some s ∧
    s.heap.mach.dir = m₁.dir ∧ HeapBacked sampleLayout [] s.held s.heap := by
  obtain ⟨m₁, hinit, -⟩ := vmmInit_spec (L := sampleLayout) (m := blankMachine) rfl
  have hmain : ∀ {s : FrameRun}, Reach frameStep FrameOk (frameBoot m₁) s →
      s.heap.mach.dir = m₁.dir ∧ HeapBacked sampleLayout [] s.held s.heap ∧
        ∀ op, FrameOk s op → (frameStep s op).isSome :=
    fun hs => heap_frames_distinct (v := ⟨m₁, []⟩) rfl hinit .refl hs
  have h8 : FrameOk (frameBoot m₁) (.heap (.kmalloc 8)) := ⟨Or.inl rfl, (by decide : 8 ≤ 0xFFFFEFF0)⟩
  obtain ⟨s₁, h1⟩ := Option.isSome_iff_exists.mp ((hmain .refl).2.2 _ h8)
  have hr₁ : Reach frameStep FrameOk (frameBoot m₁) s₁ := .tail .refl h8 h1
  have ha : FrameOk s₁ .allocPage := ⟨trivial, trivial⟩
  obtain ⟨s₂, h2⟩ := Option.isSome_iff_exists.mp ((hmain hr₁).2.2 _ ha)
  obtain ⟨hdir, hback, -⟩ := hmain (hr₁.tail ha h2)
  exact ⟨m₁, s₂, hinit, by simp [run, h1, h2], hdir, hback⟩

end JarvOs.Memory
