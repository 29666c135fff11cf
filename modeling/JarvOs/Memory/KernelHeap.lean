/-
# The kernel heap on the page tables

`kmalloc.c` on the machine of `vmm.c`: every header it reads goes through the directory in CR3, and
`expand_heap` maps its pages there and NOWHERE ELSE.  The laws the heap asks of a machine hold of
this one as long as the tables are in order and the data frames are apart: a page fault in the heap
can then come from one thing only, a heap page missing in the directory that happens to be loaded.

`bare` names directories known to have nothing above 80 MB.  The heap keeps them so, because it
touches the tables of the loaded directory alone.
-/
import JarvOs.Memory.HeapRuns
import JarvOs.Memory.DataPages

namespace JarvOs.Memory

open JarvOs.Lib

variable {L : Layout} {m m' : Machine} {spaces spaces' : List Nat} {bare : Nat → Prop} {k : Nat}

/-! ## 1. The machine -/

/-- The machine the kernel's heap runs on. -/
def kernelHeap : HeapEnv Machine := { mmu with allocMapPage := vmmAllocMapPage }

/-- The machine between two heap operations: tables in order, data frames apart, the `bare`
directories empty above 80 MB and not loaded, and at most `k` frames left. -/
structure HeapMachine (L : Layout) (spaces : List Nat) (bare : Nat → Prop) (k : Nat) (m : Machine) :
    Prop where
  inv : MachInv L Identity m spaces
  data : DataInv L (tables m.mem) (freeFrames m.bitmap) spaces
  loaded : ¬ bare m.dir
  empty : ∀ d ∈ L.kpd :: spaces, bare d → ∀ i j : Fin 1024, 20 ≤ (i : Nat) →
    (tables m.mem).entry d i j = none
  frames : (freeFrames m.bitmap).card ≤ k

theorem MachInv.translate {Low : Nat → Nat → Prop} (hM : MachInv L Low m spaces) (va : Nat) :
    m.translate va = (tables m.mem).walk m.dir va := if_pos hM.paging

theorem kheap_high {va : Nat} (h : kheapStart ≤ va) : 20480 * 4096 ≤ va := by
  have := kheapStart_eq
  omega

/-- What an address of the heap's window translates to: a data frame. -/
theorem HeapMachine.data_frame (hG : HeapMachine L spaces bare k m) {va a : Nat}
    (hlo : kheapStart ≤ va) (hva : va < 2 ^ 32) (ha : m.translate va = some a) :
    ∃ e, (tables m.mem).entry m.dir (dirIdx va) (tabIdx va) = some e ∧
      a = 4096 * pfn e + va % 4096 ∧ a / 4096 = pfn e ∧
      pfn e ∉ freeFrames m.bitmap ∧ ¬ InUse L (tables m.mem) spaces (pfn e) := by
  rw [hG.inv.translate, Tables.walk, Option.map_eq_some_iff] at ha
  obtain ⟨e, he, rfl⟩ := ha
  exact ⟨e, he, rfl, by omega, hG.data.apart m.dir hG.inv.dir (dirIdx_high hva (kheap_high hlo)) he⟩

/-- Different addresses are different bytes. -/
theorem HeapMachine.translate_inj (hG : HeapMachine L spaces bare k m) {va vb a : Nat}
    (hlo : kheapStart ≤ va) (hva : va < 2 ^ 32) (hlo' : kheapStart ≤ vb) (hvb : vb < 2 ^ 32)
    (ha : m.translate va = some a) (hb : m.translate vb = some a) : va = vb := by
  obtain ⟨e, he, h1, h2, -⟩ := hG.data_frame hlo hva ha
  obtain ⟨e', he', h1', h2', -⟩ := hG.data_frame hlo' hvb hb
  obtain ⟨-, hidx⟩ := hG.data.inj m.dir hG.inv.dir m.dir hG.inv.dir
    (dirIdx_high hva (kheap_high hlo)) (dirIdx_high hvb (kheap_high hlo')) he he' (h2.symm.trans h2')
  have hpage := (idx_eq_iff hva hvb).mp hidx
  omega

/-! ## 2. Writing -/

/-- The machine with one byte replaced. -/
def Machine.poke (m : Machine) (a : Nat) (x : UInt8) : Machine :=
  { m with mem := setByte m.mem a x }

/-- A write to the heap's window is a write to a data frame: no translation changes. -/
theorem HeapMachine.poke (hG : HeapMachine L spaces bare k m) {va a : Nat} (hlo : kheapStart ≤ va)
    (hva : va < 2 ^ 32) (ha : m.translate va = some a) (x : UInt8) :
    HeapMachine L spaces bare k (m.poke a x) ∧
      ∀ vb, (m.poke a x).translate vb = m.translate vb := by
  obtain ⟨e, -, -, hpage, -, hnot⟩ := hG.data_frame hlo hva ha
  rw [← hpage] at hnot
  have hstep : DataStep L Identity spaces (a / 4096) m (m.poke a x) :=
    .of_mem hG.inv hnot (fun p hp i => tables_setByte_ne m.mem x hp i)
  have hentry : ∀ d ∈ L.kpd :: spaces, ∀ i j : Fin 1024,
      (tables (m.poke a x).mem).entry d i j = (tables m.mem).entry d i j :=
    fun d hd i j => hstep.entry hG.inv hnot hd i j
  refine ⟨⟨hstep.inv, ?_, hG.loaded, fun d hd hb i j hi => ?_, hG.frames⟩, fun vb => ?_⟩
  · exact hG.data.step (hstep.apart hnot) (fun d hd i j e _ he => ⟨hd, by rwa [← hentry d hd]⟩)
  · rw [hentry d hd]
    exact hG.empty d hd hb i j hi
  · rw [hstep.inv.translate, hG.inv.translate]
    exact walk_congr (hentry m.dir hG.inv.dir _ _)

/-- What is read after a byte has been written. -/
theorem HeapMachine.get_poke (hG : HeapMachine L spaces bare k m) {va a : Nat}
    (hlo : kheapStart ≤ va) (hva : va < 2 ^ 32) (ha : m.translate va = some a) (x : UInt8) {vb : Nat}
    (hlo' : kheapStart ≤ vb) (hvb : vb < 2 ^ 32) :
    kernelHeap.get (m.poke a x) vb = if vb = va then some x else kernelHeap.get m vb := by
  show ((m.poke a x).translate vb).map (m.poke a x).mem = _
  rw [(hG.poke hlo hva ha x).2 vb]
  by_cases hb : vb = va
  · rw [if_pos hb, hb, ha, Option.map_some]
    simp [Machine.poke, setByte]
  · rw [if_neg hb]
    show _ = (m.translate vb).map m.mem
    cases htr : m.translate vb with
    | none => rfl
    | some b =>
      have hne : b ≠ a := fun heq => hb (hG.translate_inj hlo' hvb hlo hva htr (heq ▸ ha))
      simp [Machine.poke, setByte, hne]

theorem translate_of_get {va : Nat} (h : (kernelHeap.get m va).isSome) :
    ∃ a, m.translate va = some a := by
  have hsome : ((m.translate va).map m.mem).isSome := h
  exact Option.isSome_iff_exists.mp (by simpa using hsome)

/-- A 32-bit store is four byte stores. -/
theorem put32_eq_poke {va a₀ a₁ a₂ a₃ : Nat} (hva : va + 4 ≤ 2 ^ 32) (h0 : m.translate va = some a₀)
    (h1 : m.translate (va + 1) = some a₁) (h2 : m.translate (va + 2) = some a₂)
    (h3 : m.translate (va + 3) = some a₃) (v : Nat) :
    kernelHeap.put32 m va v = some ((((m.poke a₀ (byteOf v 0)).poke a₁ (byteOf v 1)).poke a₂
      (byteOf v 2)).poke a₃ (byteOf v 3)) := by
  have hput : kernelHeap.put32 m va v = _ := put32_of_le m hva v
  rw [hput, h0, h1, h2, h3]
  rfl

/-- **Reads and writes of the heap's window behave as memory.** -/
theorem kernelHeap_bytes :
    kernelHeap.toByteEnv.Lawful (HeapMachine L spaces bare k) kheapStart (2 ^ 32) where
  put_ok := by
    intro m va x hG hlo hva hmap
    obtain ⟨a, ha⟩ := translate_of_get hmap
    refine ⟨m.poke a x, ?_, (hG.poke hlo hva ha x).1, fun vb hlo' hvb => ?_⟩
    · show (m.translate va).map _ = _
      rw [ha]
      rfl
    · exact hG.get_poke hlo hva ha x hlo' hvb
  put32_ok := by
    intro m va v hG hlo hva hmap
    obtain ⟨a₀, h0⟩ := translate_of_get (hmap 0 (by norm_num))
    obtain ⟨a₁, h1⟩ := translate_of_get (hmap 1 (by norm_num))
    obtain ⟨a₂, h2⟩ := translate_of_get (hmap 2 (by norm_num))
    obtain ⟨a₃, h3⟩ := translate_of_get (hmap 3 (by norm_num))
    rw [Nat.add_zero] at h0
    -- no byte moves the others: each is written where it was before the first
    obtain ⟨hG₁, htr₁⟩ := hG.poke hlo (by omega) h0 (byteOf v 0)
    have h1' := (htr₁ (va + 1)).trans h1
    obtain ⟨hG₂, htr₂⟩ := hG₁.poke (by omega) (by omega) h1' (byteOf v 1)
    have h2' := (htr₂ (va + 2)).trans ((htr₁ (va + 2)).trans h2)
    obtain ⟨hG₃, htr₃⟩ := hG₂.poke (by omega) (by omega) h2' (byteOf v 2)
    have h3' := (htr₃ (va + 3)).trans ((htr₂ (va + 3)).trans ((htr₁ (va + 3)).trans h3))
    refine ⟨_, put32_eq_poke hva h0 h1 h2 h3 v, (hG₃.poke (by omega) (by omega) h3' _).1,
      fun vb hlo' hvb => ?_⟩
    rw [hG₃.get_poke (by omega) (by omega) h3' _ hlo' hvb,
      hG₂.get_poke (by omega) (by omega) h2' _ hlo' hvb,
      hG₁.get_poke (by omega) (by omega) h1' _ hlo' hvb, hG.get_poke hlo (by omega) h0 _ hlo' hvb]
    by_cases hb : va ≤ vb ∧ vb < va + 4
    · rw [if_pos hb]
      obtain ⟨j, rfl⟩ : ∃ j, vb = va + j := ⟨vb - va, by omega⟩
      have hj : j < 4 := by omega
      interval_cases j <;> simp
    · rw [if_neg hb, if_neg (by omega), if_neg (by omega), if_neg (by omega), if_neg (by omega)]

/-! ## 3. Mapping -/

/-- What a step of the tables leaves readable as it was: an address whose entry it leaves. -/
theorem HeapMachine.get_step (hG : HeapMachine L spaces bare k m)
    (h : VmStep L Identity m spaces m' spaces') {va : Nat} (hlo : kheapStart ≤ va)
    (hva : va < 2 ^ 32)
    (hentry : (tables m'.mem).entry m.dir (dirIdx va) (tabIdx va) =
      (tables m.mem).entry m.dir (dirIdx va) (tabIdx va)) :
    kernelHeap.get m' va = kernelHeap.get m va := by
  show (m'.translate va).map m'.mem = (m.translate va).map m.mem
  have htr : m'.translate va = m.translate va := by
    rw [h.inv.translate, hG.inv.translate, h.dir]
    exact walk_congr hentry
  rw [htr]
  cases ha : m.translate va with
  | none => rfl
  | some a =>
    obtain ⟨e, -, -, hpage, hfree, hnot⟩ := hG.data_frame hlo hva ha
    rw [← hpage] at hfree hnot
    simp only [Option.map_some, mem_eq_of_tables (h.frame _ hnot hfree)]

/-- **The kernel's heap machine is lawful.** -/
theorem kernelHeap_laws : HeapLaws kernelHeap (HeapMachine L spaces bare) where
  bytes _ := kernelHeap_bytes
  map := by
    intro k m va hG hlo hva hal
    obtain ⟨⟨r, m'⟩, hr, hstep, hcase⟩ := (vmmAllocMapPage_high identity_spec hG.inv hva
      (kheap_high hlo) pageWritable).total trivial
    refine ⟨r, m', hr, ?_⟩
    simp only at hstep hcase
    rcases hcase with ⟨rfl, hmem, hfree, -⟩ | ⟨rfl, q, hq, hq', hnot, hentry⟩
    · refine Or.inl ⟨rfl, ⟨hstep.inv, ?_, ?_, ?_, ?_⟩, fun x hx hx' => hG.get_step hstep hx hx' ?_⟩
      · rw [hmem, hfree]
        exact hG.data
      · rw [hstep.dir]
        exact hG.loaded
      · rw [hmem]
        exact hG.empty
      · rw [hfree]
        exact hG.frames
      · rw [hmem]
    · have hpfn : pfn (pteOf (4096 * q) pageWritable) = q := (isFrame_of_free hq).pteOf_pfn _
      have hcard : (freeFrames m'.bitmap).card < (freeFrames m.bitmap).card :=
        Finset.card_lt_card ⟨hstep.free, fun hsub => hq' (hsub hq)⟩
      have hframes := hG.frames
      refine Or.inr ⟨by have := kheapStart_eq; omega, k - 1, by omega,
        ⟨hstep.inv, ?_, ?_, fun d hd hb i j hi => ?_, by omega⟩, fun x hx hx' hoff => ?_,
        fun x hx hx' => ?_⟩
      · exact hG.data.map hstep (by rwa [hpfn]) (by rw [hpfn]; exact ⟨hq', hnot⟩) hentry
      · rw [hstep.dir]
        exact hG.loaded
      · have hne : d ≠ m.dir := fun heq => hG.loaded (heq ▸ hb)
        rw [hentry d hd, if_neg (fun hh => hne hh.1)]
        exact hG.empty d hd hb i j hi
      · refine hG.get_step hstep hx hx' ?_
        rw [hentry _ hG.inv.dir, if_neg]
        rintro ⟨-, hidx⟩
        have := (idx_eq_iff hx' hva).mp hidx
        omega
      · have hidx := (idx_eq_iff (show x < 2 ^ 32 by omega) hva).mpr (by omega)
        show ((m'.translate x).map m'.mem).isSome
        rw [hstep.inv.translate, hstep.dir, Tables.walk, hentry _ hG.inv.dir, if_pos ⟨rfl, hidx⟩]
        rfl

/-! ## 4. Other calls in between -/

/-- A new address space may have come: what there was above 80 MB is as it was, and the new
directory has nothing there. -/
structure SpaceAdded (L : Layout) (m : Machine) (spaces : List Nat) (m' : Machine)
    (spaces' : List Nat) : Prop where
  step : VmStep L Identity m spaces m' spaces'
  keep : ∀ d ∈ L.kpd :: spaces, ∀ i j : Fin 1024, 20 ≤ (i : Nat) →
    (tables m'.mem).entry d i j = (tables m.mem).entry d i j
  fresh : ∀ d ∈ spaces', d ∉ spaces → ∀ i j : Fin 1024, 20 ≤ (i : Nat) →
    (tables m'.mem).entry d i j = none

theorem SpaceAdded.entry (h : SpaceAdded L m spaces m' spaces') {d : Nat}
    (hd : d ∈ L.kpd :: spaces') {i j : Fin 1024} (hi : 20 ≤ (i : Nat)) :
    (tables m'.mem).entry d i j = none ∨ d ∈ L.kpd :: spaces ∧
      (tables m'.mem).entry d i j = (tables m.mem).entry d i j := by
  by_cases hold : d ∈ L.kpd :: spaces
  · exact Or.inr ⟨hold, h.keep d hold i j hi⟩
  · have hne : d ≠ L.kpd := fun heq => hold (heq ▸ List.mem_cons_self)
    exact Or.inl (h.fresh d ((List.mem_cons.mp hd).resolve_left hne)
      (fun hm => hold (List.mem_cons_of_mem _ hm)) i j hi)

theorem SpaceAdded.data (h : SpaceAdded L m spaces m' spaces')
    (hD : DataInv L (tables m.mem) (freeFrames m.bitmap) spaces) :
    DataInv L (tables m'.mem) (freeFrames m'.bitmap) spaces' := by
  refine hD.step h.step.apart (fun d hd i j e hi he => ?_)
  rcases h.entry (j := j) hd hi with hnone | ⟨hold, hsame⟩
  · exact absurd (he.symm.trans hnone) (by simp)
  · exact ⟨hold, hsame ▸ he⟩

/-- Also from the point of view of another directory. -/
theorem SpaceAdded.switched (h : SpaceAdded L m spaces m' spaces') :
    SpaceAdded L (vmmSwitchDirectory m (4096 * L.kpd)) spaces
      (vmmSwitchDirectory m' (4096 * L.kpd)) spaces' :=
  ⟨⟨h.step.inv.switch List.mem_cons_self, rfl, h.step.free, h.step.used, h.step.frame⟩, h.keep,
    h.fresh⟩

theorem HeapMachine.added (hG : HeapMachine L spaces bare k m)
    (h : SpaceAdded L m spaces m' spaces') : HeapMachine L spaces' bare k m' := by
  refine ⟨h.step.inv, h.data hG.data, ?_, fun d hd hb i j hi => ?_,
    (Finset.card_le_card h.step.free).trans hG.frames⟩
  · rw [h.step.dir]
    exact hG.loaded
  · rcases h.entry (j := j) hd hi with hnone | ⟨hold, hsame⟩
    · exact hnone
    · rw [hsame]
      exact hG.empty d hold hb i j hi

/-- **A new address space leaves the heap alone**, as the loaded directory shows it. -/
theorem RunInv.added {h : HeapState Machine} {live : Finset Nat}
    (hI : RunInv kernelHeap (HeapMachine L spaces bare) ⟨h, live⟩)
    (hadd : SpaceAdded L h.mach spaces m' spaces') :
    RunInv kernelHeap (HeapMachine L spaces' bare) ⟨{ h with mach := m' }, live⟩ := by
  obtain ⟨k₀, bs, hI₀, hl⟩ := hI
  refine RunInv.of_same ⟨k₀, bs, hI₀, hl⟩ (fun k hG => hG.added hadd) (fun x hx hx' => ?_)
  exact hI₀.good.get_step hadd.step hx hx'
    (hadd.keep _ hI₀.good.inv.dir _ _ (dirIdx_high hx' (kheap_high hx)))

theorem vmmCreateAddressSpace_added (hM : MachInv L Identity m spaces) :
    Ensures True (vmmCreateAddressSpace L m) (fun r =>
      SpaceAdded L m spaces r.2 (addSpace r.1 spaces)) := by
  refine (vmmCreateAddressSpace_spec identity_spec hM).mono ?_
  rintro ⟨dir, m'⟩ (⟨hr, -⟩ | ⟨q, hq, rfl, hstep, hentry, hnone, -⟩)
  · obtain ⟨rfl, rfl⟩ := Prod.mk.inj hr
    exact ⟨.refl hM, fun _ _ _ _ _ => rfl, fun d hd hnot => absurd hd hnot⟩
  · rw [addSpace_page (isFrame_of_free hq).addr_ne_zero]
    refine ⟨hstep, fun d hd i j _ => hentry d hd i j, fun d hd hnot i j hi => ?_⟩
    rw [(List.mem_cons.mp hd).resolve_right hnot]
    exact hnone i j hi

end JarvOs.Memory
