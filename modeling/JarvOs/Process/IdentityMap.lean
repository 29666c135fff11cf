/-
# The identity map of the first 80 MB

The kernel writes to frames through their physical addresses: page directories, page tables and
process stacks are all built that way, under whichever directory happens to be loaded.  That works
because the twenty low page tables are SHARED by all directories and nothing takes an entry out of
them.  Here: in every directory of every reachable kernel the first 80 MB are present, writable and
mapped to themselves; and therefore no call of such a history ever faults.
-/
import JarvOs.Process.Lists
import JarvOs.Process.ProcessMemory
import JarvOs.Lib.Trace

namespace JarvOs.Process

open JarvOs.Lib JarvOs.Memory

variable {L : Layout} {T : Prop} {k : Kernel}

/-! ## 1. `scheduler_create_process` on the machine -/

/-- **`scheduler_create_process` on the machine**: nothing if there is no free PCB, and otherwise
`processMemory`, whose directory ends up in the PCB taken, also when the call then fails; its stack
page ends up there when it does not. -/
theorem schedulerCreateProcess_spec {Q : Nat × Nat × Machine → Prop}
    (hmem : Ensures T (processMemory L k.mach) Q) (name : List UInt8) (entry arg : Nat)
    (prio : Priority) :
    Ensures T (schedulerCreateProcess L k name entry arg prio) (fun r =>
      (k.sched.freeList = none ∧ r = (none, k)) ∨
        ∃ p stack, k.sched.freeList = some p ∧
          Q ((r.2.sched.pcb p).pageDirectory, stack, r.2.mach) ∧
          ((stack = 0 ∧ r.1 = none) ∨
            (stack ≠ 0 ∧ r.1 = some p ∧ (r.2.sched.pcb p).stackPhys = stack))) := by
  unfold schedulerCreateProcess Sched.allocateProcess
  cases hfree : k.sched.freeList with
  | none => exact .ret (Or.inl ⟨rfl, rfl⟩)
  | some p =>
    refine hmem.bind ?_
    rintro ⟨dir, stack, m⟩ hQ
    simp only
    split
    · rename_i hstack
      refine .ret (Or.inr ⟨p, stack, rfl, ?_, Or.inl ⟨hstack, rfl⟩⟩)
      simpa [Sched.releaseProcess, Sched.setNext, Sched.modify] using hQ
    · rename_i hstack
      refine .ret (Or.inr ⟨p, stack, rfl, ?_, Or.inr ⟨hstack, rfl, ?_⟩⟩)
      · rw [(relinked_enqueue _ p).field Pcb.pageDirectory (fun _ => rfl)]
        simpa [Sched.modify] using hQ
      · rw [(relinked_enqueue _ p).field Pcb.stackPhys (fun _ => rfl)]
        simp [Sched.modify]

/-! ## 2. Runs -/

/-- The calls of a history: those of `vmm.c` and `pmm.c`, and new processes. -/
inductive KernelOp
  | vm (op : VmOp)
  | createProcess (name : List UInt8) (entry arg : Nat) (priority : Priority)
deriving DecidableEq, Repr

/-- The kernel and the pages of the directories created so far. -/
structure KernelRun where
  kernel : Kernel
  spaces : List Nat

/-- The memory manager's part of the state. -/
def KernelRun.vm (s : KernelRun) : VmState := ⟨s.kernel.mach, s.spaces⟩

/-- The directories after `scheduler_create_process`, seen in the PCB it took. -/
def spacesAfter (s : KernelRun) (k' : Kernel) : List Nat :=
  match s.kernel.sched.freeList with
  | none => s.spaces
  | some p => addSpace (k'.sched.pcb p).pageDirectory s.spaces

/-- One call. -/
def kernelStep (L : Layout) (s : KernelRun) : KernelOp → Option KernelRun
  | .vm op => (vmStep L s.vm op).map (fun v => ⟨{ s.kernel with mach := v.mach }, v.spaces⟩)
  | .createProcess name entry arg priority =>
    (schedulerCreateProcess L s.kernel name entry arg priority).map (fun r =>
      ⟨r.2, spacesAfter s r.2⟩)

/-- The legal calls: pages are mapped and unmapped above 80 MB only. -/
def IdentityLegal (L : Layout) (s : KernelRun) : KernelOp → Prop
  | .createProcess .. => True
  | .vm op => VmArgs L s.vm op ∧ match op with
    | .mapPage va _ _ => 80 * 1024 * 1024 ≤ va
    | .unmapPage va => 80 * 1024 * 1024 ≤ va
    | .allocMapPage va _ => 80 * 1024 * 1024 ≤ va
    | _ => True

theorem IdentityLegal.lowSafe {s : KernelRun} {op : VmOp} (h : IdentityLegal L s (.vm op)) :
    LowSafe Identity s.vm op := by
  obtain ⟨-, hhigh⟩ := h
  cases op with
  | mapPage va p flags => exact fun hl => absurd hhigh (by simp only; omega)
  | unmapPage va => exact fun hl => absurd hhigh (by simp only; omega)
  | allocMapPage va flags => exact fun hl => absurd hhigh (by simp only; omega)
  | _ => trivial

theorem identity_user {n e : Nat} (h : Identity n e) : Identity n (e ||| pageUser) :=
  ⟨(present_or _ _).mpr (Or.inl h.1), (writable_or _ _).mpr (Or.inl h.2.1),
    by rw [pfn_or _ (by norm_num), h.2.2]⟩

/-- **Every legal call returns, and keeps the tables in order.** -/
theorem kernelStep_spec {s : KernelRun} (hM : MachInv L Identity s.kernel.mach s.spaces)
    {op : KernelOp} (hok : IdentityLegal L s op) :
    Ensures True (kernelStep L s op) (fun s' => MachInv L Identity s'.kernel.mach s'.spaces) := by
  cases op with
  | vm op =>
    exact (vmStep_spec (s := s.vm) identity_spec identity_user hM hok.1 hok.lowSafe).map
      (fun v hv => hv)
  | createProcess name entry arg prio =>
    have hmem := processMemory_spec identity_spec hM
      (fun q hq => identity_pteOf (isFrame_of_free hq))
    refine (schedulerCreateProcess_spec hmem name entry arg prio).map ?_
    rintro ⟨r, k'⟩ (⟨hfree, hr⟩ | ⟨p, stack, hfree, ⟨hstep, -⟩, -⟩)
    · obtain ⟨-, rfl⟩ := Prod.mk.inj hr
      simp only [spacesAfter, hfree]
      exact hM
    · simp only [spacesAfter, hfree]
      exact hstep.inv

theorem machInv_kernelReach {m₀ m₁ : Machine} (hboot : m₀.paging = false)
    (hinit : vmmInit L m₀ = some m₁) {s₀ : Sched} {s : KernelRun}
    (hr : Reach (kernelStep L) (IdentityLegal L) ⟨⟨m₁, s₀⟩, []⟩ s) :
    MachInv L Identity s.kernel.mach s.spaces := by
  refine hr.inv (I := fun s => MachInv L Identity s.kernel.mach s.spaces) ?_ ?_
  · obtain ⟨m', hm', hM, -⟩ := vmmInit_spec (L := L) hboot
    obtain rfl := Option.some.inj (hinit.symm.trans hm')
    exact hM
  · exact fun s op t hM hok hst => (kernelStep_spec hM hok).1 t hst

/-! ## 3. The identity map -/

/-- Both entries the walk of `va` goes through allow writing. -/
def WritableAt (W : Tables) (d va : Nat) : Prop :=
  writable (W d (dirIdx va)) ∧ writable (W (pfn (W d (dirIdx va))) (tabIdx va))

/-- A low address in any directory of a machine in order. -/
theorem identity_at {m : Machine} {spaces : List Nat} (hM : MachInv L Identity m spaces)
    {d va : Nat} (hd : d ∈ L.kpd :: spaces) (hva : va < 80 * 1024 * 1024) :
    (tables m.mem).walk d va = some va ∧ WritableAt (tables m.mem) d va := by
  obtain ⟨hp, hentry⟩ := hM.vm.low_entry hd hva
  obtain ⟨hp', hw', hpfn'⟩ := hM.vm.lowPte (va / 4096) (by omega)
  rw [← hentry] at hp' hw' hpfn'
  refine ⟨?_, (hM.vm.lowPde d hd (dirIdx va) (dirIdx_low hva)).2.1, hw'⟩
  rw [walk_of_entry (entry_of_present hp hp'), hpfn']
  congr 1
  omega

/-- **The identity map under every address space.**  In every state a legal history reaches, in
every directory there is, every address below 80 MB is present, writable and mapped to itself; in
particular every frame `pmm_alloc_page` returns is accessible at its own address; and every further
legal call returns. -/
theorem identity_map_everywhere {m₀ m₁ : Machine} (hboot : m₀.paging = false)
    (hinit : vmmInit L m₀ = some m₁) {s₀ : Sched} {s : KernelRun}
    (hr : Reach (kernelStep L) (IdentityLegal L) ⟨⟨m₁, s₀⟩, []⟩ s) :
    (∀ d ∈ L.kpd :: s.spaces, ∀ va < 80 * 1024 * 1024,
      (tables s.kernel.mach.mem).walk d va = some va ∧
        WritableAt (tables s.kernel.mach.mem) d va) ∧
    (∀ a m', s.kernel.mach.allocPage = some (a, m') → a ≠ 0 → ∀ i < 4096,
      ∀ d ∈ L.kpd :: s.spaces, (tables m'.mem).walk d (a + i) = some (a + i) ∧
        WritableAt (tables m'.mem) d (a + i)) ∧
    ∀ op, IdentityLegal L s op → (kernelStep L s op).isSome := by
  have hM := machInv_kernelReach hboot hinit hr
  refine ⟨fun d hd va hva => identity_at hM hd hva, fun a m' halloc ha i hi d hd => ?_,
    fun op hok => (kernelStep_spec hM hok).2 trivial⟩
  rcases allocPage_spec s.kernel.mach with ⟨h, -⟩ | ⟨q, hq, bm, h, hbm⟩
  · rw [halloc, Option.some.injEq, Prod.mk.injEq] at h
    exact absurd h.1 ha
  · rw [halloc, Option.some.injEq, Prod.mk.injEq] at h
    obtain ⟨rfl, rfl⟩ := h
    have := (isFrame_of_free hq).2
    exact identity_at (hM.take hbm) hd (by omega)

theorem identity_map_everywhere_sample : ∃ m₁ s, vmmInit sampleLayout blankMachine = some m₁ ∧
    kernelStep sampleLayout ⟨⟨m₁, bootSched.schedulerInit⟩, []⟩
      (.createProcess [0x61] 0x100400 0 .normal) = some s ∧
    (tables s.kernel.mach.mem).walk 490 0x4FFFFFF = some 0x4FFFFFF := by
  obtain ⟨m₁, hinit, hM, -⟩ := vmmInit_spec (L := sampleLayout) (m := blankMachine) rfl
  have hlegal : IdentityLegal sampleLayout ⟨⟨m₁, bootSched.schedulerInit⟩, []⟩
      (.createProcess [0x61] 0x100400 0 .normal) := trivial
  obtain ⟨s, hst, -⟩ := (kernelStep_spec hM hlegal).total trivial
  obtain ⟨hid, -⟩ := identity_map_everywhere rfl hinit (Reach.tail .refl hlegal hst)
  exact ⟨m₁, s, hinit, hst, (hid 490 List.mem_cons_self 0x4FFFFFF (by norm_num)).1⟩

end JarvOs.Process
