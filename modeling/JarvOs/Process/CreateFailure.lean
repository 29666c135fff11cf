/-
# A process that is not created

`scheduler_create_process` takes a PCB, a frame for the directory and a frame for the stack, in this
order, and looks at the result of the first and of the last only.  When there is no frame for the stack
it gives the PCB back; the directory it may have got a frame for is forgotten in that PCB.

So a refused call has undone everything in all cases but one: a PCB was free, and exactly ONE frame was
(`refused_atomic_iff`).  Nothing here needs the lists or the page tables to be in order: what the call
undoes it undoes in any state.
-/
import JarvOs.Process.IdentityMap
import JarvOs.Memory.HeapFrames

namespace JarvOs.Process

open JarvOs.Lib JarvOs.Memory

variable {L : Layout} {m m' : Machine} {k k' : Kernel}

/-! ## 1. The frames of a refused call -/

/-- **No stack page**: no frame is left now, and at most one was. -/
theorem processMemory_out {dir : Nat} (h : processMemory L m = some (dir, 0, m')) :
    m'.cr3 = m.cr3 ∧ freeFrames m'.bitmap = ∅ ∧ (freeFrames m.bitmap).card ≤ 1 := by
  unfold processMemory at h
  obtain ⟨⟨dir', m₁⟩, hspace, h⟩ := Option.bind_eq_some_iff.mp h
  obtain ⟨hcr3, hframes⟩ := createAddressSpace_frames hspace
  rcases allocPage_spec m₁ with ⟨halloc, hempty⟩ | ⟨q, hq, bm, halloc, -⟩
  · simp only [halloc, Option.bind_eq_bind, Option.bind_some, if_true, Option.some.injEq,
      Prod.mk.injEq] at h
    obtain ⟨-, -, rfl⟩ := h
    refine ⟨hcr3, hempty, ?_⟩
    rcases hframes with ⟨hnone, -⟩ | ⟨q, hq, herase⟩
    · rw [hnone]
      exact Nat.zero_le 1
    · rw [← Finset.card_erase_add_one hq, ← herase, hempty]
      exact le_refl 1
  · -- with a stack page the call returns its address, which is not 0
    simp only [halloc, Option.bind_eq_bind, Option.bind_some,
      if_neg (isFrame_of_free hq).addr_ne_zero, Option.bind_eq_some_iff, Option.some.injEq,
      Prod.mk.injEq] at h
    obtain ⟨m₂, -, -, hstack, -⟩ := h
    exact absurd hstack (isFrame_of_free hq).addr_ne_zero

/-! ## 2. The lists of a refused call -/

/-- The heads and tails of the free list and of the ready queues, and every link. -/
structure SameLists (s s' : Sched) : Prop where
  freeList : s'.freeList = s.freeList
  queues : s'.queues = s.queues
  next : s'.next = s.next

/-- A PCB that is taken from the free list, changed and given back. -/
theorem sameLists_release {s t : Sched} {p : Proc} (hfree : s.freeList = some p)
    (hlist : t.freeList = (s.pcb p).next) (hqueues : t.queues = s.queues)
    (hother : ∀ x, x ≠ p → t.pcb x = s.pcb x) : SameLists s (t.releaseProcess p) := by
  refine ⟨hfree.symm, hqueues, ?_⟩
  funext x
  rcases eq_or_ne x p with rfl | hx
  · simp [Sched.releaseProcess, Sched.next, Sched.setNext, Sched.modify, hlist]
  · simp [Sched.releaseProcess, Sched.next, Sched.setNext, Sched.modify, Function.update_of_ne hx,
      hother x hx]

/-- **A refused `scheduler_create_process`**: there was no PCB and nothing has happened; or there was
one, it is back, and the frames are gone. -/
theorem create_refused {name : List UInt8} {entry arg : Nat} {priority : Priority}
    (h : schedulerCreateProcess L k name entry arg priority = some (none, k')) :
    (k.sched.freeList = none ∧ k' = k) ∨
      (k.sched.freeList ≠ none ∧ SameLists k.sched k'.sched ∧ k'.mach.cr3 = k.mach.cr3 ∧
        freeFrames k'.mach.bitmap = ∅ ∧ (freeFrames k.mach.bitmap).card ≤ 1) := by
  unfold schedulerCreateProcess Sched.allocateProcess at h
  cases hfree : k.sched.freeList with
  | none =>
    simp only [hfree, Option.some.injEq, Prod.mk.injEq, true_and] at h
    exact Or.inl ⟨rfl, h.symm⟩
  | some p =>
    simp only [hfree, Option.bind_eq_bind] at h
    obtain ⟨⟨dir, stack, m⟩, hmem, h⟩ := Option.bind_eq_some_iff.mp h
    simp only at h
    split at h
    · rename_i hstack
      obtain rfl := hstack
      simp only [Option.some.injEq, Prod.mk.injEq, true_and] at h
      obtain ⟨hcr3, hempty, hcard⟩ := processMemory_out hmem
      subst h
      refine Or.inr ⟨by simp, sameLists_release hfree rfl rfl (fun x hx => ?_), hcr3, hempty, hcard⟩
      simp [Sched.setNext, Sched.modify, Function.update_of_ne hx]
    · simp at h

/-! ## 3. Atomic, and when -/

/-- `scheduler_create_process` or `scheduler_fork_process` has returned `NULL`. -/
inductive Refused (L : Layout) (k k' : Kernel) : Prop
  | create {name : List UInt8} {entry arg : Nat} {priority : Priority} :
      schedulerCreateProcess L k name entry arg priority = some (none, k') → Refused L k k'
  | fork {parent : Proc} : schedulerForkProcess L k parent = some (none, k') → Refused L k k'

/-- The free list, the ready queues, the loaded directory and the set of free frames are as before. -/
structure Atomic (k k' : Kernel) : Prop where
  lists : SameLists k.sched k'.sched
  directory : vmmGetCurrentDirectory k'.mach = vmmGetCurrentDirectory k.mach
  frames : freeFrames k'.mach.bitmap = freeFrames k.mach.bitmap

/-- A PCB is free, and one frame. -/
def LastFrame (k : Kernel) : Prop :=
  k.sched.freeList ≠ none ∧ (freeFrames k.mach.bitmap).card = 1

theorem create_atomic_iff {name : List UInt8} {entry arg : Nat} {priority : Priority}
    (h : schedulerCreateProcess L k name entry arg priority = some (none, k')) :
    Atomic k k' ↔ ¬ LastFrame k := by
  rcases create_refused h with ⟨hfree, rfl⟩ | ⟨hfree, hlists, hcr3, hempty, hcard⟩
  · exact iff_of_true ⟨⟨rfl, rfl, rfl⟩, rfl, rfl⟩ (fun hlast => hlast.1 hfree)
  · constructor
    · rintro hatomic ⟨-, hone⟩
      rw [← hatomic.frames, hempty] at hone
      exact absurd hone (by simp)
    · intro hlast
      have hzero : (freeFrames k.mach.bitmap).card ≠ 1 := fun hone => hlast ⟨hfree, hone⟩
      refine ⟨hlists, hcr3, ?_⟩
      rw [hempty, eq_comm, ← Finset.card_eq_zero]
      omega

/-- **A refused process leaves no trace, unless it gets the last frame.**  In any state of the scheduler,
the page tables and the bitmap. -/
theorem refused_atomic_iff (h : Refused L k k') : Atomic k k' ↔ ¬ LastFrame k := by
  cases h with
  | create h => exact create_atomic_iff h
  | fork h => exact create_atomic_iff h

/-- Before `scheduler_init` there is no PCB, so a process is refused. -/
theorem refused_atomic_iff_early : ∃ m₁, vmmInit sampleLayout blankMachine = some m₁ ∧
    Refused sampleLayout ⟨m₁, bootSched⟩ ⟨m₁, bootSched⟩ ∧
    Atomic ⟨m₁, bootSched⟩ ⟨m₁, bootSched⟩ := by
  obtain ⟨m₁, hinit, -⟩ := vmmInit_spec (L := sampleLayout) (m := blankMachine) rfl
  have hnull : schedulerCreateProcess sampleLayout ⟨m₁, bootSched⟩ [] 0 0 .normal =
      some (none, ⟨m₁, bootSched⟩) := rfl
  exact ⟨m₁, hinit, .create hnull, (refused_atomic_iff (.create hnull)).mpr (fun hlast => hlast.1 rfl)⟩

/-! ## 4. The last frame -/

/-- Others take `n` frames. -/
theorem run_allocPage {s₀ : FrameRun} : ∀ (n : Nat) {s : FrameRun}, Reach frameStep FrameOk s₀ s →
    n ≤ (freeFrames s.heap.mach.bitmap).card →
    ∃ t, run frameStep s (List.replicate n .allocPage) = some t ∧ Reach frameStep FrameOk s₀ t ∧
      (freeFrames t.heap.mach.bitmap).card + n = (freeFrames s.heap.mach.bitmap).card := by
  intro n
  induction n with
  | zero =>
    intro s hs _
    exact ⟨s, rfl, hs, Nat.add_zero _⟩
  | succ n ih =>
    intro s hs hn
    rcases allocPage_spec s.heap.mach with ⟨-, hempty⟩ | ⟨q, hq, bm, halloc, hbm⟩
    · rw [hempty, Finset.card_empty] at hn
      omega
    · have hcard := Finset.card_erase_add_one hq
      have hst : frameStep s .allocPage = some (s.on { s.heap.mach with bitmap := bm }
          (if 4096 * q = 0 then s.held else insert (4096 * q / 4096) s.held)) := by
        rw [frameStep, halloc, Option.map_some]
      obtain ⟨t, hrun, hreach, ht⟩ := ih (hs.tail (o := .allocPage) ⟨trivial, trivial⟩ hst) (by
        simp only [FrameRun.on, hbm]
        omega)
      simp only [FrameRun.on, hbm] at ht
      refine ⟨t, ?_, hreach, by omega⟩
      rw [List.replicate_succ, run, hst]
      exact hrun

/-- **The last frame is lost.**  After `vmm_init` and `scheduler_init`, 15871 calls of `pmm_alloc_page`
leave one frame.  A process is then refused, and that frame is not free any more. -/
theorem refused_create_takes_frame : ∃ m₁ s k', vmmInit sampleLayout blankMachine = some m₁ ∧
    run frameStep (frameBoot m₁) (List.replicate 15871 .allocPage) = some s ∧
    schedulerCreateProcess sampleLayout ⟨s.heap.mach, bootSched.schedulerInit⟩ [0x61] 0x100400 0 .normal =
      some (none, k') ∧ ¬ Atomic ⟨s.heap.mach, bootSched.schedulerInit⟩ k' := by
  obtain ⟨m₁, hinit, -, -, hfree, -⟩ := vmmInit_spec (L := sampleLayout) (m := blankMachine) rfl
  have hcard : (freeFrames (frameBoot m₁).heap.mach.bitmap).card = 15872 := by
    rw [show (frameBoot m₁).heap.mach = m₁ from rfl, hfree, Nat.card_Ico]
  obtain ⟨s, hrun, hreach, hs⟩ := run_allocPage 15871 (s := frameBoot m₁) .refl (by omega)
  have hone : (freeFrames s.heap.mach.bitmap).card = 1 := by omega
  obtain ⟨bs, hI, -⟩ := frameInv_reach (v := ⟨m₁, []⟩) rfl hinit .refl hreach
  have hmem := processMemory_spec identity_spec hI.good.1.inv
    (fun q hq => identity_pteOf (isFrame_of_free hq))
  obtain ⟨⟨r, k'⟩, hcreate, hcase⟩ := (schedulerCreateProcess_spec
    (k := ⟨s.heap.mach, bootSched.schedulerInit⟩) hmem [0x61] 0x100400 0 .normal).total trivial
  have hnull : r = none := by
    rcases hcase with ⟨hnone, -⟩ | ⟨p, stack, -, ⟨-, -, -, -, htwo⟩, ⟨-, hr⟩ | ⟨hstack, -⟩⟩
    · exact absurd hnone (by simp [Sched.schedulerInit])
    · exact hr
    · -- a stack page besides the directory would be a second frame
      obtain ⟨d, hd, q, hq, -⟩ := htwo hstack
      have := Finset.card_erase_add_one hd
      have := Finset.card_erase_add_one hq
      omega
  subst hnull
  refine ⟨m₁, s, k', hinit, hrun, hcreate, fun hatomic => ?_⟩
  exact (create_atomic_iff hcreate).mp hatomic ⟨by simp [Sched.schedulerInit], hone⟩

end JarvOs.Process
