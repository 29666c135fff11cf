/-
# The memory of a new process

`scheduler_create_process` makes an address space, takes a stack page, maps it in the new address
space and writes the first frame through it, all through the page tables it has just edited.  For
the page tables this is one more step like those of `vmm.c`: the stack page was free, so writing to
it touches no page that was in use.
-/
import JarvOs.Process.Scheduler
import JarvOs.Memory.DataPages

namespace JarvOs.Process

open JarvOs.Lib JarvOs.Memory

variable {L : Layout} {T : Prop} {Low : Nat → Nat → Prop} {m : Machine} {spaces : List Nat} {q : Nat}

/-- Memory with the first frame at the top of page `q`. -/
def frameMem (mem : Mem) (q trampoline : Nat) : Mem :=
  setWord (setWord (setWord (setWord (setWord mem (4096 * q + 4092) trampoline) (4096 * q + 4088) 0)
    (4096 * q + 4084) 0) (4096 * q + 4080) 0) (4096 * q + 4076) 0

/-- **The first frame** lies in the stack page. -/
theorem buildFrame_spec (hS : LowSpec T Low) (hM : MachInv L Low m spaces) (hlow : q < 20480)
    (hq : ¬ InUse L (tables m.mem) spaces q) {trampoline : Nat} (ht : trampoline < 2 ^ 32) :
    Ensures T (buildFrame m (add32 (4096 * q) 4096) trampoline) (fun m' =>
      DataStep L Low spaces q m m' ∧ m'.mem = frameMem m.mem q trampoline) := by
  -- one store: it goes to its word of the page, and the page stays out of use
  have hstore : ∀ (i : Fin 1024) (n : Nat), n + 4 * i = 4096 → 0 < n → ∀ {v : Nat}, v < 2 ^ 32 →
      ∀ {m₁ : Machine} {mem : Mem}, DataStep L Low spaces q m m₁ ∧ m₁.mem = mem →
        Ensures T (m₁.store32 (sub32 (add32 (4096 * q) 4096) n) v) (fun m₂ =>
          DataStep L Low spaces q m m₂ ∧ m₂.mem = setWord mem (4096 * q + 4 * i) v) := by
    rintro i n hn h0 v hv m₁ _ ⟨h₁, rfl⟩
    have haddr : sub32 (add32 (4096 * q) 4096) n = 4096 * q + 4 * i := by
      rw [add32_of_lt (by omega), sub32_of_le (by omega) (by omega)]
      omega
    have hexact := store32_low hS h₁.inv hlow i v
    rw [add32_of_lt (by omega)] at hexact
    rw [haddr]
    refine ((storeData_spec hS h₁.inv hlow (fun h => hq (h₁.inUse hq h)) i hv).and hexact).mono ?_
    rintro _ ⟨h₂, rfl⟩
    exact ⟨h₁.trans h₂, rfl⟩
  unfold buildFrame
  refine (hstore 1023 4 rfl (by norm_num) ht ⟨⟨hM, rfl, rfl, fun _ _ _ => rfl⟩, rfl⟩).bind
    (fun m₁ h₁ => ?_)
  refine (hstore 1022 8 rfl (by norm_num) (by norm_num) h₁).bind (fun m₂ h₂ => ?_)
  refine (hstore 1021 12 rfl (by norm_num) (by norm_num) h₂).bind (fun m₃ h₃ => ?_)
  refine (hstore 1020 16 rfl (by norm_num) (by norm_num) h₃).bind (fun m₄ h₄ => ?_)
  exact hstore 1019 20 rfl (by norm_num) (by norm_num) h₄

/-- Mapping a frame at its own address, writable, keeps the identity map. -/
theorem identity_pteOf (hq : IsFrame q) : Identity q (pteOf (4096 * q) pageWritable) := by
  refine ⟨pteOf_present _ _, ?_, hq.pteOf_pfn _⟩
  exact (writable_or _ _).mpr (Or.inl ((writable_or _ _).mpr (Or.inr (by decide))))

/-- **The stack of a new process** is mapped and written in its own address space, and the caller is
back in the one it came from. -/
theorem buildStack_spec (hS : LowSpec T Low) (hM : MachInv L Low m spaces) {bm : Bitmap}
    (hq : q ∈ freeFrames m.bitmap) (hbm : freeFrames bm = (freeFrames m.bitmap).erase q)
    {dir : Nat} (hdir : dir = 0 ∨ ∃ d ∈ spaces, dir = 4096 * d)
    (hlow : Low q (pteOf (4096 * q) pageWritable)) :
    Ensures T (buildStack L { m with bitmap := bm } dir (4096 * q)) (fun m' =>
      VmStep L Low m spaces m' spaces ∧
      (∀ d ∈ L.kpd :: spaces, ∀ i j : Fin 1024, 20 ≤ (i : Nat) →
        (tables m'.mem).entry d i j = (tables m.mem).entry d i j) ∧ m'.bitmap = bm) := by
  have hfr := isFrame_of_free hq
  have hM₀ := hM.take hbm
  -- the directory the stack is mapped in: the new one, or the current one if there is no new one
  obtain ⟨d, hd, hsw⟩ : ∃ d ∈ L.kpd :: spaces,
      (if dir ≠ 0 then vmmSwitchDirectory { m with bitmap := bm } dir else { m with bitmap := bm }) =
        vmmSwitchDirectory { m with bitmap := bm } (4096 * d) := by
    rcases hdir with rfl | ⟨d, hd, rfl⟩
    · refine ⟨m.dir, hM.dir, ?_⟩
      rw [if_neg (not_not.mpr rfl), vmmSwitchDirectory, ← hM.cr3]
    · refine ⟨d, List.mem_cons_of_mem _ hd, if_pos ?_⟩
      exact (hM.vm.space d hd).1.addr_ne_zero
  have hM₁ := hM₀.switch hd
  have hnot := hM.vm.not_inUse_of_free hq
  unfold buildStack
  simp only [hsw, Option.bind_eq_bind]
  refine (vmmMapPage_low hS hM₁ (show 4096 * q < 20480 * 4096 by have := hfr.2; omega) hfr.addr_lt
    (by rwa [Nat.mul_div_cancel_left q (by norm_num)])).bind ?_
  rintro ⟨r, m₂⟩ ⟨-, hstep, hentry, hsame⟩
  simp only at hstep hentry hsame ⊢
  have hnot₂ : ¬ InUse L (tables m₂.mem) spaces q := fun hu => by
    rcases hstep.used q hu with hu | hf
    · exact hnot hu
    · simp only [vmmSwitchDirectory, hbm] at hf
      exact (Finset.mem_erase.mp hf).1 rfl
  refine (buildFrame_spec hS hstep.inv hfr.low hnot₂ L.trampoline_lt).bind ?_
  rintro m₃ ⟨hdata, -⟩
  have hback : DataStep L Low spaces q (vmmSwitchDirectory m₂ m.cr3)
      (vmmSwitchDirectory m₃ m.cr3) := by
    refine ⟨?_, rfl, hdata.bitmap, hdata.off⟩
    rw [hM.cr3]
    exact hdata.inv.switch hM.dir
  refine .ret ⟨(VmStep.take hM hbm).trans (VmStep.inSpace hM₀ hstep) |>.thenData hq hnot₂ hback,
    fun d' hd' i j hi => ?_, hdata.bitmap.trans hsame⟩
  exact (hdata.entry hstep.inv hnot₂ hd' i j).trans (hentry d' hd' i j hi)

/-- **The memory of a new process.**  The tables stay in order with the new directory among them, no
address space that existed sees a difference above 80 MB, and the new one has nothing there.  Two
frames are taken; the stack page fails to come only when memory is out, and then the one frame left,
if there was one, is taken for the directory. -/
theorem processMemory_spec (hS : LowSpec T Low) (hM : MachInv L Low m spaces)
    (hlow : ∀ q ∈ freeFrames m.bitmap, Low q (pteOf (4096 * q) pageWritable)) :
    Ensures T (processMemory L m) (fun r =>
      VmStep L Low m spaces r.2.2 (addSpace r.1 spaces) ∧
      (∀ d ∈ L.kpd :: spaces, ∀ i j : Fin 1024, 20 ≤ (i : Nat) →
        (tables r.2.2.mem).entry d i j = (tables m.mem).entry d i j) ∧
      (r.1 ≠ 0 → ∀ i j : Fin 1024, 20 ≤ (i : Nat) →
        (tables r.2.2.mem).entry (r.1 / 4096) i j = none) ∧
      (r.2.1 = 0 → (freeFrames m.bitmap).card ≤ 1 ∧ freeFrames r.2.2.bitmap = ∅) ∧
      (r.2.1 ≠ 0 → ∃ d ∈ freeFrames m.bitmap, ∃ q ∈ (freeFrames m.bitmap).erase d,
        r.1 = 4096 * d ∧ r.2.1 = 4096 * q ∧
          freeFrames r.2.2.bitmap = ((freeFrames m.bitmap).erase d).erase q)) := by
  unfold processMemory
  refine (vmmCreateAddressSpace_spec hS hM).bind ?_
  rintro ⟨dir, m₁⟩ (⟨hr, hempty⟩ | ⟨d, hd, hdir, hstep, hentry, hnone, hfree⟩)
  · obtain ⟨rfl, rfl⟩ := Prod.mk.inj hr
    rcases allocPage_spec m₁ with ⟨halloc, -⟩ | ⟨q, hq, -⟩
    · simp only [halloc, Option.bind_eq_bind, Option.bind_some, if_true]
      exact .ret ⟨VmStep.refl hM, fun _ _ _ _ _ => rfl, fun h => absurd rfl h,
        fun _ => ⟨by simp [hempty], hempty⟩, fun h => absurd rfl h⟩
    · rw [hempty] at hq
      exact absurd hq (Finset.notMem_empty q)
  · simp only at hdir hstep hentry hnone hfree
    subst hdir
    have hd0 := (isFrame_of_free hd).addr_ne_zero
    have hdd : 4096 * d / 4096 = d := Nat.mul_div_cancel_left d (by norm_num)
    rcases allocPage_spec m₁ with ⟨halloc, hempty⟩ | ⟨q, hq, bm, halloc, hbm⟩
    · simp only [halloc, Option.bind_eq_bind, Option.bind_some, if_true]
      refine .ret ⟨by rwa [addSpace_page hd0], fun d' hd' i j _ => hentry d' hd' i j,
        fun _ i j hi => by rw [hdd]; exact hnone i j hi, fun _ => ⟨?_, hempty⟩,
        fun h => absurd rfl h⟩
      rw [hempty] at hfree
      rw [← Finset.insert_erase hd, ← hfree]
      simp
    · have hq0 := (isFrame_of_free hq).addr_ne_zero
      simp only [halloc, Option.bind_eq_bind, Option.bind_some, if_neg hq0]
      refine (buildStack_spec hS hstep.inv hq hbm (Or.inr ⟨d, List.mem_cons_self, rfl⟩)
        (hlow q (hstep.free hq))).bind (fun m₂ h₂ => ?_)
      refine .ret ⟨?_, fun d' hd' i j hi => ?_, fun _ i j hi => ?_, fun h0 => absurd h0 hq0,
        fun _ => ⟨d, hd, q, hfree ▸ hq, rfl, rfl, ?_⟩⟩
      · simp only [addSpace_page hd0]
        exact hstep.trans h₂.1
      · exact (h₂.2.1 d' (dirs_cons hd') i j hi).trans (hentry d' hd' i j)
      · simp only [hdd]
        rw [h₂.2.1 d (List.mem_cons_of_mem _ List.mem_cons_self) i j hi]
        exact hnone i j hi
      · rw [h₂.2.2, hbm, hfree]

end JarvOs.Process
