/-
# Who sees the kernel heap

`expand_heap` maps its pages in the directory that is loaded, and `vmm_create_address_space` copies
the first twenty entries of the kernel's directory, which end at 80 MB; the heap starts at
0xD0000000.  So a heap page is in ONE directory, and nothing ever puts it into a second one.

Made precise here, for every history of new processes, new address spaces, switches and heap calls:
all live blocks are visible in all directories exactly as long as there are no blocks to see, or no
second directory to see them from.
-/
import JarvOs.Process.IdentityMap
import JarvOs.Memory.KernelHeap

namespace JarvOs.Process

open JarvOs.Lib JarvOs.Memory

variable {L : Layout} {bare : Nat → Prop}

/-! ## 1. Runs -/

/-- The calls of a history. -/
inductive SharedOp
  | createAddressSpace
  | createProcess (name : List UInt8) (entry arg : Nat) (priority : Priority)
  | switchDirectory (pageDir : Nat)
  | heap (op : HeapOp)
deriving DecidableEq, Repr

/-- The heap and the machine it lies in, the scheduler, the pages of the directories created so far
and the pointers the heap's callers hold. -/
structure SharedRun where
  heap : HeapState Machine
  sched : Sched
  spaces : List Nat
  live : Finset Nat

namespace SharedRun

/-- The part the kernel calls are about. -/
def kernel (s : SharedRun) : KernelRun := ⟨⟨s.heap.mach, s.sched⟩, s.spaces⟩

/-- The part the heap calls are about. -/
def heapRun (s : SharedRun) : HeapRun Machine := ⟨s.heap, s.live⟩

/-- A call of the kernel. -/
def kernelCall (L : Layout) (s : SharedRun) (op : KernelOp) : Option SharedRun :=
  (kernelStep L s.kernel op).map (fun t =>
    ⟨{ s.heap with mach := t.kernel.mach }, t.kernel.sched, t.spaces, s.live⟩)

end SharedRun

/-- One call. -/
def sharedStep (L : Layout) (s : SharedRun) : SharedOp → Option SharedRun
  | .createAddressSpace => s.kernelCall L (.vm .createAddressSpace)
  | .createProcess name entry arg priority => s.kernelCall L (.createProcess name entry arg priority)
  | .switchDirectory pageDir => s.kernelCall L (.vm (.switchDirectory pageDir))
  | .heap op => (heapStep kernelHeap s.heapRun op).map (fun t => ⟨t.heap, s.sched, s.spaces, t.live⟩)

/-- Only existing directories are switched to, and the heap is called with pointers it gave. -/
def SharedLegal (L : Layout) (s : SharedRun) : SharedOp → Prop
  | .switchDirectory pageDir => ∃ d ∈ L.kpd :: s.spaces, pageDir = 4096 * d
  | .heap op => HeapLegal s.heapRun op
  | _ => True

/-- The kernel after `vmm_init` and `kmalloc_init`. -/
def sharedBoot (m : Machine) (s₀ : Sched) : SharedRun := ⟨HeapEnv.kmallocInit m, s₀, [], ∅⟩

/-- Every address of every block in use is mapped in every directory, to one physical address. -/
def HeapVisible (L : Layout) (s : SharedRun) : Prop :=
  ∀ p ∈ s.live, ∃ n, usable kernelHeap s.heap p = some n ∧ ∀ x, p ≤ x → x < p + n →
    ∃ a, ∀ d ∈ L.kpd :: s.spaces, (tables s.heap.mach.mem).walk d x = some a

/-- Nothing to see, or nobody else to see it. -/
def NothingShared (s : SharedRun) : Prop := s.live = ∅ ∨ s.spaces = []

/-! ## 2. One state -/

/-- The tables are in order. -/
structure TablesOk (L : Layout) (s : SharedRun) : Prop where
  inv : MachInv L Identity s.heap.mach s.spaces
  data : DataInv L (tables s.heap.mach.mem) (freeFrames s.heap.mach.bitmap) s.spaces

/-- The heap's invariant, read through the loaded directory. -/
def HeapHere (L : Layout) (bare : Nat → Prop) (s : SharedRun) : Prop :=
  RunInv kernelHeap (HeapMachine L s.spaces bare) s.heapRun

theorem HeapHere.blocks {s : SharedRun} (h : HeapHere L bare s) :
    ∃ k bs, HeapInv kernelHeap (HeapMachine L s.spaces bare) k s.heap bs ∧ LiveIs bs s.live := h

theorem HeapHere.tables {s : SharedRun} (h : HeapHere L bare s) : TablesOk L s := by
  obtain ⟨k, bs, hI, -⟩ := h.blocks
  exact ⟨hI.good.inv, hI.good.data⟩

theorem pfn_of_walk {W : Tables} {d x a : Nat} (h : W.walk d x = some a) :
    ∃ e, W.entry d (dirIdx x) (tabIdx x) = some e ∧ pfn e = a / 4096 := by
  rw [Tables.walk, Option.map_eq_some_iff] at h
  obtain ⟨e, he, rfl⟩ := h
  exact ⟨e, he, by omega⟩

/-- No address above 80 MB leads to the same frame in two directories. -/
theorem TablesOk.walk_unique {s : SharedRun} (hT : TablesOk L s) {x a d d' : Nat}
    (hx : kheapStart ≤ x) (hx' : x < 2 ^ 32) (hd : d ∈ L.kpd :: s.spaces)
    (hd' : d' ∈ L.kpd :: s.spaces) (h : (tables s.heap.mach.mem).walk d x = some a)
    (h' : (tables s.heap.mach.mem).walk d' x = some a) : d = d' := by
  obtain ⟨e, he, hpe⟩ := pfn_of_walk h
  obtain ⟨e', he', hpe'⟩ := pfn_of_walk h'
  have hi := dirIdx_high hx' (kheap_high hx)
  exact (hT.data.inj d hd d' hd' hi hi he he' (hpe.trans hpe'.symm)).1

/-- **In one state**: all blocks are visible everywhere iff nothing is shared. -/
theorem heapVisible_iff {s : SharedRun} (hT : TablesOk L s)
    (hs : s.live = ∅ ∨ HeapHere L bare s) : HeapVisible L s ↔ NothingShared s := by
  rcases hs with hempty | hs
  · exact ⟨fun _ => Or.inl hempty, fun _ p hp => absurd hp (by simp [hempty])⟩
  obtain ⟨k, bs, hI, hl⟩ := hs.blocks
  have hbound := hI.bound
  constructor
  · intro hvis
    by_contra hshared
    simp only [NothingShared, not_or] at hshared
    obtain ⟨hlive, hspaces⟩ := hshared
    obtain ⟨p, hp⟩ := Finset.nonempty_iff_ne_empty.mpr hlive
    obtain ⟨q, hq⟩ := List.exists_mem_of_ne_nil _ hspaces
    obtain ⟨b, hb, rfl⟩ := (hl p).mp hp
    obtain ⟨n, hn, hwalk⟩ := hvis _ hp
    obtain rfl := Option.some.inj ((usable_of_used hI hb).symm.trans hn)
    have hbb := hI.tiles.bounds b hb.1
    have hpos := (hI.tiled.sizes b hb.1).2
    obtain ⟨a, ha⟩ := hwalk (b.addr + headerSize) (le_refl _) (by omega)
    have hkq := hT.walk_unique (by omega) (by omega) List.mem_cons_self (List.mem_cons_of_mem _ hq)
      (ha _ List.mem_cons_self) (ha q (List.mem_cons_of_mem _ hq))
    exact (hT.inv.vm.space q hq).2.2 (Or.inl hkq.symm)
  · rintro (hempty | hspaces) p hp
    · exact absurd hp (by simp [hempty])
    · obtain ⟨b, hb, rfl⟩ := (hl p).mp hp
      have hbb := hI.tiles.bounds b hb.1
      refine ⟨b.size, usable_of_used hI hb, fun x hx hx' => ?_⟩
      obtain ⟨a, ha⟩ := translate_of_get (hI.mapped x (by omega) (by omega))
      have hdir := hT.inv.dir
      rw [hspaces, List.mem_singleton] at hdir
      rw [hT.inv.translate, hdir] at ha
      refine ⟨a, fun d hd => ?_⟩
      rw [hspaces, List.mem_singleton] at hd
      rw [hd]
      exact ha

/-! ## 3. One call -/

/-- Nothing has been allocated since `kmalloc_init`. -/
def Unbuilt (s : SharedRun) : Prop :=
  s.live = ∅ ∧ s.heap.heapHead = 0 ∧ s.heap.heapEnd = kheapStart

/-- The same state with the kernel's directory loaded. -/
def SharedRun.fromKernel (L : Layout) (s : SharedRun) : SharedRun :=
  { s with heap := { s.heap with mach := vmmSwitchDirectory s.heap.mach (4096 * L.kpd) } }

/-- As long as nothing is shared: the heap is where `kmalloc_init` left it, or it was built in the
kernel's directory and no other directory has anything above 80 MB. -/
structure SharedInv (L : Layout) (s : SharedRun) : Prop where
  tables : TablesOk L s
  nothing : NothingShared s
  heap : Unbuilt s ∨ HeapHere L (· ≠ L.kpd) (s.fromKernel L)

theorem fromKernel_eq {s : SharedRun} (hM : MachInv L Identity s.heap.mach s.spaces)
    (hdir : s.heap.mach.dir = L.kpd) : s.fromKernel L = s := by
  rw [SharedRun.fromKernel, vmmSwitchDirectory, ← hdir, ← hM.cr3]

/-- A lone directory is the loaded one. -/
theorem TablesOk.dir_of_alone {s : SharedRun} (hT : TablesOk L s) (h : s.spaces = []) :
    s.heap.mach.dir = L.kpd := by
  have hdir := hT.inv.dir
  rwa [h, List.mem_singleton] at hdir

/-- What a call has to leave behind: visibility is exactly that nothing is shared, and then the
history can go on. -/
def Settled (L : Layout) (t : SharedRun) : Prop :=
  (HeapVisible L t ↔ NothingShared t) ∧ (NothingShared t → SharedInv L t)

theorem Settled.of_heap {t : SharedRun} (hT : TablesOk L t)
    (hdir : t.live = ∅ ∨ t.heap.mach.dir = L.kpd)
    (hheap : Unbuilt t ∨ HeapHere L (· ≠ L.kpd) (t.fromKernel L)) : Settled L t := by
  have hhere : t.live = ∅ ∨ HeapHere L (· ≠ L.kpd) t := by
    rcases hdir with hempty | hdir
    · exact Or.inl hempty
    · rw [fromKernel_eq hT.inv hdir] at hheap
      exact hheap.imp And.left id
  exact ⟨heapVisible_iff hT hhere, fun hn => ⟨hT, hn, hheap⟩⟩

/-- The loaded directory shows the heap, and every other one is bare. -/
theorem Settled.of_here {t : SharedRun} (h : HeapHere L (· ≠ L.kpd) t) : Settled L t := by
  obtain ⟨k, bs, hI, -⟩ := h.blocks
  have hdir : t.heap.mach.dir = L.kpd := not_not.mp hI.good.loaded
  refine .of_heap h.tables (Or.inr hdir) (Or.inr ?_)
  rwa [fromKernel_eq h.tables.inv hdir]

/-- **A new address space.** -/
theorem settled_added {s : SharedRun} (hs : SharedInv L s) {m' : Machine} {spaces' : List Nat}
    (hadd : SpaceAdded L s.heap.mach s.spaces m' spaces') (sched : Sched) :
    Settled L ⟨{ s.heap with mach := m' }, sched, spaces', s.live⟩ := by
  refine .of_heap ⟨hadd.step.inv, hadd.data hs.tables.data⟩ ?_ (hs.heap.imp id fun h => ?_)
  · refine hs.nothing.imp id fun halone => ?_
    simp only [hadd.step.dir]
    exact hs.tables.dir_of_alone halone
  · have hrun : RunInv kernelHeap (HeapMachine L s.spaces (· ≠ L.kpd))
        ⟨{ s.heap with mach := vmmSwitchDirectory s.heap.mach (4096 * L.kpd) }, s.live⟩ := h
    exact hrun.added hadd.switched

/-- **A switch** to one of the directories. -/
theorem settled_switch {s : SharedRun} (hs : SharedInv L s) {d : Nat} (hd : d ∈ L.kpd :: s.spaces) :
    Settled L ⟨{ s.heap with mach := vmmSwitchDirectory s.heap.mach (4096 * d) }, s.sched, s.spaces,
      s.live⟩ := by
  refine .of_heap ⟨hs.tables.inv.switch hd, hs.tables.data⟩ ?_ hs.heap
  refine hs.nothing.imp id fun halone => ?_
  rw [halone, List.mem_singleton] at hd
  rw [hd]
  exact Nat.mul_div_cancel_left _ (by norm_num)

/-- A heap that has not been built is in order under any directory. -/
theorem Unbuilt.inv {s : SharedRun} (hu : Unbuilt s) (hT : TablesOk L s) (bare : Nat → Prop)
    (hload : ¬ bare s.heap.mach.dir) (hempty : ∀ d ∈ L.kpd :: s.spaces, bare d → ∀ i j : Fin 1024,
      20 ≤ (i : Nat) → (tables s.heap.mach.mem).entry d i j = none) :
    HeapInv kernelHeap (HeapMachine L s.spaces bare) numberOfPages s.heap [] ∧
      LiveIs [] s.live := by
  obtain ⟨hlive, hhead, hend⟩ := hu
  have hinit : s.heap = HeapEnv.kmallocInit s.heap.mach := by
    rw [HeapEnv.kmallocInit, ← hhead, ← hend]
  refine ⟨?_, fun p => by simp [hlive, UsedIn]⟩
  rw [hinit]
  exact heapInv_init ⟨hT.inv, hT.data, hload, hempty, card_freeFrames_le _⟩ (by decide)

/-- Under a directory with nothing above 80 MB the heap's first header cannot be read. -/
theorem head_unreadable {s : SharedRun} (hT : TablesOk L s)
    (hbare : ∀ i j : Fin 1024, 20 ≤ (i : Nat) →
      (tables s.heap.mach.mem).entry s.heap.mach.dir i j = none) :
    kernelHeap.load s.heap kheapStart .free = none := by
  have hget : kernelHeap.get s.heap.mach (add32 kheapStart Field.free.offset) = none := by
    show (s.heap.mach.translate _).map _ = none
    rw [hT.inv.translate, Tables.walk, hbare _ _ (by decide)]
    rfl
  rw [HeapEnv.load, ByteEnv.get32, hget]
  rfl

/-- The first allocation, with other directories around: it fails, or it ends the sharing of
nothing. -/
theorem settled_unbuilt {s : SharedRun} (hT : TablesOk L s) (hu : Unbuilt s)
    (hothers : s.spaces ≠ []) {n : Nat} (hn : n ≤ 0xFFFFEFF0) {h' : HeapState Machine}
    {live' : Finset Nat} (hcall : heapStep kernelHeap s.heapRun (.kmalloc n) = some ⟨h', live'⟩) :
    Settled L ⟨h', s.sched, s.spaces, live'⟩ := by
  obtain ⟨hI, hl⟩ := hu.inv hT (fun _ => False) not_false (fun _ _ h => h.elim)
  obtain ⟨p, h₁, k', bs', e, hI', -, hcase⟩ := kmalloc_spec kernelHeap_laws hI hn
  have hcall' : (kernelHeap.kmalloc s.heap n).map (fun r => (⟨r.2, liveAfter s.live (.kmalloc n) r.1⟩ :
      HeapRun Machine)) = some ⟨h', live'⟩ := hcall
  rw [e, Option.map_some, Option.some.injEq, HeapRun.mk.injEq] at hcall'
  obtain ⟨rfl, rfl⟩ := hcall'
  have hT' : TablesOk L ⟨h₁, s.sched, s.spaces, liveAfter s.live (.kmalloc n) p⟩ :=
    ⟨hI'.good.inv, hI'.good.data⟩
  rcases hcase with ⟨rfl, rfl⟩ | ⟨b, rfl, -, -, hall⟩
  · have hlive : liveAfter s.live (.kmalloc n) 0 = ∅ := hu.1
    exact .of_heap hT' (Or.inl hlive) (Or.inl ⟨hlive, hI'.head, hI'.tiles.symm⟩)
  · have hlive : liveAfter s.live (.kmalloc n) (b.addr + headerSize) =
        insert (b.addr + headerSize) s.live := by
      rw [liveAfter, if_neg ((hall.used b).mpr (Or.inl rfl)).ptr_ne_zero]
    rw [hlive] at hT' ⊢
    refine ⟨heapVisible_iff hT' (Or.inr ⟨k', bs', hI', hl.insert hall⟩), ?_⟩
    rintro (hempty | halone)
    · exact absurd hempty (Finset.insert_ne_empty _ _)
    · exact absurd halone hothers

/-- **A heap call** while nothing is shared. -/
theorem settled_heap {s t : SharedRun} (hs : SharedInv L s) {op : HeapOp}
    (hok : HeapLegal s.heapRun op) (hst : sharedStep L s (.heap op) = some t) : Settled L t := by
  obtain ⟨⟨h', live'⟩, hcall, rfl⟩ := Option.map_eq_some_iff.mp hst
  -- under the kernel's directory, with the others bare, the call is a call of a heap in order
  have hkernel : HeapHere L (· ≠ L.kpd) s → Settled L ⟨h', s.sched, s.spaces, live'⟩ :=
    fun hhere => .of_here (runInv_step kernelHeap_laws hhere hok hcall)
  by_cases halone : s.spaces = []
  · have hdir := hs.tables.dir_of_alone halone
    rcases hs.heap with hu | hhere
    · obtain ⟨hI, hl⟩ := hu.inv hs.tables (· ≠ L.kpd) (not_not.mpr hdir)
        (fun d hd hb => by
          rw [halone, List.mem_singleton] at hd
          exact absurd hd hb)
      exact hkernel ⟨_, _, hI, hl⟩
    · rw [fromKernel_eq hs.tables.inv hdir] at hhere
      exact hkernel hhere
  · -- there is a second directory, so nobody holds a pointer and all that can come is `kmalloc`
    have hlive : s.live = ∅ := hs.nothing.resolve_right halone
    obtain ⟨n, hn, heq⟩ : ∃ n ≤ 0xFFFFEFF0, heapStep kernelHeap s.heapRun op =
        heapStep kernelHeap s.heapRun (.kmalloc n) := by
      simp only [SharedRun.heapRun, hlive] at hok ⊢
      exact heapStep_empty hok
    have hcall' := heq.symm.trans hcall
    rcases hs.heap with hu | hhere
    · exact settled_unbuilt hs.tables hu halone hn hcall'
    by_cases hdir : s.heap.mach.dir = L.kpd
    · rw [fromKernel_eq hs.tables.inv hdir] at hhere
      exact hkernel hhere
    -- the loaded directory is bare: there is no heap yet, or its first header faults
    rcases RunInv.head_of_empty hhere hlive with hinit | hhead
    · exact settled_unbuilt hs.tables ⟨hlive, hinit⟩ halone hn hcall'
    · by_cases h0 : n = 0
      · subst h0
        obtain ⟨rfl, rfl⟩ := HeapRun.mk.inj (Option.some.inj hcall')
        exact .of_heap hs.tables (Or.inl hlive) hs.heap
      · obtain ⟨k, bs, hI, -⟩ := hhere.blocks
        have hhead' : s.heap.heapHead = kheapStart := hhead
        have hload := head_unreadable hs.tables
          (fun i j hi => hI.good.empty _ hs.tables.inv.dir hdir i j hi)
        have hnone : kernelHeap.kmalloc s.heap n = none :=
          kmalloc_unreadable h0 (by rw [hhead']; decide) (by rw [hhead']; exact hload)
        have hcall'' : (kernelHeap.kmalloc s.heap n).map _ = some _ := hcall'
        rw [hnone] at hcall''
        exact absurd hcall'' (by simp)

theorem processMemory_added {m : Machine} {spaces : List Nat} (hM : MachInv L Identity m spaces) :
    Ensures True (processMemory L m) (fun r =>
      SpaceAdded L m spaces r.2.2 (addSpace r.1 spaces)) := by
  refine (processMemory_spec identity_spec hM
    (fun q hq => identity_pteOf (isFrame_of_free hq))).mono ?_
  rintro ⟨dir, stack, m'⟩ ⟨hstep, hkeep, hnone, -⟩
  refine ⟨hstep, hkeep, fun d hd hnot i j hi => ?_⟩
  simp only [addSpace] at hd hnone ⊢
  split at hd
  · exact absurd hd hnot
  · rename_i hdir
    rw [(List.mem_cons.mp hd).resolve_right hnot]
    exact hnone hdir i j hi

/-- **One call** while nothing is shared, whichever it is. -/
theorem sharedStep_settled {s t : SharedRun} (hs : SharedInv L s) {op : SharedOp}
    (hok : SharedLegal L s op) (hst : sharedStep L s op = some t) : Settled L t := by
  cases op with
  | heap op => exact settled_heap hs hok hst
  | switchDirectory pageDir =>
    obtain ⟨d, hd, rfl⟩ := hok
    obtain rfl := Option.some.inj hst
    exact settled_switch hs hd
  | createAddressSpace =>
    simp only [sharedStep, SharedRun.kernelCall, kernelStep, vmStep, Option.map_map] at hst
    obtain ⟨r, hr, rfl⟩ := Option.map_eq_some_iff.mp hst
    exact settled_added hs ((vmmCreateAddressSpace_added hs.tables.inv).1 r hr) s.sched
  | createProcess name entry arg priority =>
    simp only [sharedStep, SharedRun.kernelCall, kernelStep, Option.map_map] at hst
    obtain ⟨r, hr, rfl⟩ := Option.map_eq_some_iff.mp hst
    have hspec := schedulerCreateProcess_spec (k := s.kernel.kernel)
      (processMemory_added hs.tables.inv) name entry arg priority
    rcases hspec.1 r hr with ⟨hfree, hr⟩ | ⟨p, stack, hfree, hadd, -⟩
    · refine settled_added hs ?_ r.2.sched
      simp only [spacesAfter, hfree, hr]
      exact ⟨.refl hs.tables.inv, fun _ _ _ _ _ => rfl, fun d hd hnot => absurd hd hnot⟩
    · refine settled_added hs ?_ r.2.sched
      simp only [spacesAfter, hfree]
      exact hadd

/-! ## 4. Whole histories -/

theorem sharedInv_boot {m₀ m₁ : Machine} (hboot : m₀.paging = false)
    (hinit : vmmInit L m₀ = some m₁) (s₀ : Sched) : SharedInv L (sharedBoot m₁ s₀) := by
  obtain ⟨m', hm', hM, -, -, hnone⟩ := vmmInit_spec (L := L) hboot
  obtain rfl := Option.some.inj (hinit.symm.trans hm')
  refine ⟨⟨hM, .of_empty (fun d hd i j hi => ?_)⟩, Or.inl rfl, Or.inl ⟨rfl, rfl, rfl⟩⟩
  obtain rfl := List.mem_singleton.mp hd
  exact entry_of_absent (hnone i hi)

/-- The kernel after its first `vmm_create_address_space`: memory to spare, a heap that has not been
built, and a second directory with nothing above 80 MB. -/
theorem sample_space : ∃ m₁ q s, vmmInit sampleLayout blankMachine = some m₁ ∧
    sharedStep sampleLayout (sharedBoot m₁ bootSched.schedulerInit) .createAddressSpace = some s ∧
    s.spaces = [q] ∧ s.live = ∅ ∧ s.heap = HeapEnv.kmallocInit s.heap.mach ∧
    HeapHere sampleLayout (· ≠ sampleLayout.kpd) s ∧ 1 < (freeFrames s.heap.mach.bitmap).card := by
  obtain ⟨m₁, hinit, hM, hcr3, hfree, -⟩ := vmmInit_spec (L := sampleLayout) (m := blankMachine) rfl
  have hboot := sharedInv_boot rfl hinit bootSched.schedulerInit
  obtain ⟨⟨dir, m₂⟩, hcreate, hcase⟩ := (vmmCreateAddressSpace_spec identity_spec hM).total trivial
  rcases hcase with ⟨-, hempty⟩ | ⟨q, hq, rfl, hstep, hentry, hnone, hfree₂⟩
  · rw [hfree] at hempty
    exact absurd hempty (by decide)
  simp only at hstep hentry hnone hfree₂
  have hadd : SpaceAdded sampleLayout m₁ [] m₂ [q] :=
    ⟨hstep, fun d hd i j _ => hentry d hd i j, fun d hd _ i j hi => by
      rw [List.mem_singleton.mp hd]
      exact hnone i j hi⟩
  have hdir : m₂.dir = sampleLayout.kpd := by
    rw [hstep.dir]
    exact hboot.tables.dir_of_alone rfl
  have hu : Unbuilt ⟨HeapEnv.kmallocInit m₂, bootSched.schedulerInit, [q], ∅⟩ := ⟨rfl, rfl, rfl⟩
  obtain ⟨hI, hl⟩ := hu.inv ⟨hstep.inv, hadd.data hboot.tables.data⟩
    (· ≠ sampleLayout.kpd) (not_not.mpr hdir) (fun d hd hb i j hi => by
      rcases List.mem_cons.mp hd with heq | hd
      · exact absurd heq hb
      · exact hadd.fresh d hd (by simp) i j hi)
  refine ⟨m₁, q, ⟨HeapEnv.kmallocInit m₂, bootSched.schedulerInit, [q], ∅⟩, hinit, ?_, rfl, rfl, rfl,
    ⟨_, _, hI, hl⟩, ?_⟩
  · have hcreate' : vmmCreateAddressSpace sampleLayout
        (sharedBoot m₁ bootSched.schedulerInit).kernel.vm.mach = some (4096 * q, m₂) := hcreate
    simp only [sharedStep, SharedRun.kernelCall, kernelStep, vmStep, hcreate', Option.map_some,
      addSpace_page (isFrame_of_free hq).addr_ne_zero]
    rfl
  · show 1 < (freeFrames m₂.bitmap).card
    rw [hfree₂, Finset.card_erase_of_mem hq, hfree, Nat.card_Ico]
    norm_num

end JarvOs.Process
