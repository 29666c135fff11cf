/-
# Software and hardware translation (`vmm_get_physical_address` in `kernel/memory/vmm.c`)

`vmm_get_physical_address` walks the tables a second time, in C.  It does not look at the present bit of
the table entry and it does not add the offset in the page.  The first is harmless: an entry that is not
present has no frame in it in any state the kernel can reach (`EmptyClear`), because entries start as 0,
`vmm_unmap_page` writes 0, and `vmm_mark_user_range` only adds a flag.  The second is not: the answer
for a mapped address is right if and only if the address is that of a page.
-/
import JarvOs.Memory.Rights

namespace JarvOs.Memory

open JarvOs.Lib
open JarvOs.Syscall (user pdeAt pteAt)

variable {L : Layout} {Low : Nat → Nat → Prop} {m m' : Machine} {spaces : List Nat} {v w e : Nat}

/-! ## 1. Entries that are not present -/

/-- No frame is left in an entry that is not present. -/
def EmptyClear (m : Machine) : Prop :=
  ∀ w < 2 ^ 32, present (pdeAt m w) → ¬ present (pteAt m w) → pfn (pteAt m w) = 0

/-- The entry of a page is the entry of all its addresses. -/
theorem pteAt_congr (hv : v < 2 ^ 32) (hw : w < 2 ^ 32) (h : w / 4096 = v / 4096) :
    pteAt m w = pteAt m v := by
  obtain ⟨hi, hj⟩ := (idx_eq_iff hw hv).mpr h
  rw [pteAt, pteAt, pdeAt, pdeAt, hi, hj]

theorem EmptyClear.enter (hm : EmptyClear m) (h : Entered m m' v e) (hv : v < 2 ^ 32)
    (he : ¬ present e → pfn e = 0) : EmptyClear m' := by
  intro w hw hpde hpte
  by_cases hpage : w / 4096 = v / 4096
  · rw [pteAt_congr hv hw hpage, h.pte] at hpte ⊢
    exact he hpte
  · rcases h.rest w hw hpage hpde with hzero | ⟨hold, hsame⟩
    · rw [hzero]
      rfl
    · rw [hsame] at hpte ⊢
      exact hm w hw hold hpte

theorem EmptyClear.mark {S : Set Nat} (hm : EmptyClear m) (h : Marks S m m') : EmptyClear m' := by
  intro w hw hpde hpte
  have hold := (h.pde w hw).present.mp hpde
  have hflag := h.pte w hw hold
  rw [hflag.pfn]
  exact hm w hw hold (fun hp => hpte (hflag.present.mpr hp))

/-- After `vmm_init` every entry of the low tables is present, and there are no others. -/
theorem emptyClear_init {m₀ : Machine} (hboot : m₀.paging = false) (hinit : vmmInit L m₀ = some m) :
    EmptyClear m := by
  obtain ⟨m', hm', hM, hcr3, -, habove⟩ := vmmInit_spec (L := L) hboot
  obtain rfl := Option.some.inj (hinit.symm.trans hm')
  have hdir : m.dir = L.kpd := by rw [Machine.dir, hcr3, Nat.mul_div_cancel_left _ (by norm_num)]
  intro w hw hpde hpte
  rcases Nat.lt_or_ge w (20480 * 4096) with hlow | hhigh
  · have hentry : pteAt m w = lowEntry L (tables m.mem) (w / 4096) := (hM.vm.low_entry hM.dir hlow).2
    rw [hentry] at hpte
    exact absurd (hM.vm.lowPte (w / 4096) (by omega)).1 hpte
  · rw [pdeAt, hdir] at hpde
    exact absurd hpde (habove _ (dirIdx_high hw hhigh))

/-- **No call that edits entries leaves a frame behind.** -/
theorem emptyClear_reach {m₀ m₁ : Machine} (hboot : m₀.paging = false)
    (hinit : vmmInit L m₀ = some m₁) {s : VmState}
    (hr : Reach (vmStep L) (EditLegal L) ⟨m₁, []⟩ s) : EmptyClear s.mach := by
  refine (hr.inv (I := fun s => MachInv L Kept s.mach s.spaces ∧ EmptyClear s.mach) ?_ ?_).2
  · exact ⟨kept_reach hboot hinit .refl, emptyClear_init hboot hinit⟩
  · rintro s op t ⟨hM, hclear⟩ ⟨hedit, hargs, hlow⟩ hst
    refine ⟨(vmStep_spec kept_spec kept_user hM hargs hlow).1 t hst, ?_⟩
    cases op with
    | mapPage va p flags =>
      obtain ⟨⟨r, m'⟩, hrun, rfl⟩ := Option.map_eq_some_iff.mp hst
      rcases (vmmMapPage_words kept_spec hM hargs.1 hargs.2.1 flags).1 _ hrun with hfail | ⟨-, h⟩
      · obtain ⟨-, rfl⟩ := Prod.mk.inj hfail
        exact hclear
      · exact hclear.enter h hargs.1 (fun hp => absurd (pteOf_present p flags) hp)
    | unmapPage va =>
      obtain ⟨m', hrun, rfl⟩ := Option.map_eq_some_iff.mp hst
      rcases (vmmUnmapPage_words kept_spec hM hargs).1 _ hrun with rfl | h
      · exact hclear
      · exact hclear.enter h hargs (fun _ => rfl)
    | markUserRange start len =>
      obtain ⟨m', hrun, rfl⟩ := Option.map_eq_some_iff.mp hst
      exact hclear.mark ((vmmMarkUserRange_marks kept_spec kept_user hM hargs.1 len).1 _ hrun)
    | _ => exact absurd hedit id

/-! ## 2. The two translations -/

/-- The walk of the CPU, in the words of the current directory. -/
theorem translate_eq (hM : MachInv L Low m spaces) (v : Nat) : m.translate v =
    if present (pdeAt m v) ∧ present (pteAt m v) then some (4096 * pfn (pteAt m v) + v % 4096)
    else none := by
  rw [Machine.translate, if_pos hM.paging, Tables.walk, Tables.entry]
  by_cases h : present (pdeAt m v) ∧ present (pteAt m v)
  · rw [if_pos h]
    exact congrArg (Option.map _) (if_pos h)
  · rw [if_neg h]
    exact congrArg (Option.map _) (if_neg h)

/-- **The lookup agrees with the CPU**: the physical address of a mapped address, and 0 for any other. -/
def LookupAgrees (m : Machine) (v : Nat) : Prop :=
  vmmGetPhysicalAddress m v = some ((m.translate v).getD 0)

/-- **When the two translations agree.**  In every state that `vmm_init` and calls that edit entries lead
to, for every address: `vmm_get_physical_address` returns what the walk of the CPU gives, and 0 where it
gives nothing, if and only if the address is the first of its page or is not mapped. -/
theorem lookup_agrees_iff {m₀ m₁ : Machine} (hboot : m₀.paging = false)
    (hinit : vmmInit L m₀ = some m₁) {s : VmState}
    (hr : Reach (vmStep L) (EditLegal L) ⟨m₁, []⟩ s) {v : Nat} (hv : v < 2 ^ 32) :
    LookupAgrees s.mach v ↔ v % 4096 = 0 ∨ s.mach.translate v = none := by
  have hM := kept_reach hboot hinit hr
  have hclear := emptyClear_reach hboot hinit hr
  obtain ⟨a, hrun, rfl⟩ := (vmmGetPhysicalAddress_spec kept_spec hM hv).total trivial
  rw [LookupAgrees, hrun, Option.some.injEq, translate_eq hM]
  by_cases hpde : present (pdeAt s.mach v)
  · by_cases hpte : present (pteAt s.mach v)
    · simp only [hpde, hpte, and_self, if_true, Option.getD_some, reduceCtorEq, or_false]
      omega
    · have hframe := hclear v hv hpde hpte
      simp [hpde, hpte, hframe]
  · simp [hpde]

theorem lookup_agrees_page : ∃ m₁, vmmInit sampleLayout blankMachine = some m₁ ∧
    LookupAgrees m₁ 0x345000 := by
  obtain ⟨m₁, hinit, -⟩ := vmmInit_spec (L := sampleLayout) (m := blankMachine) rfl
  exact ⟨m₁, hinit, (lookup_agrees_iff rfl hinit .refl (by norm_num)).mpr (Or.inl (by norm_num))⟩

/-- **A lookup that loses the offset.**  After `vmm_init` the address 0x345678 is mapped to itself, and
the lookup answers 0x345000. -/
theorem lookup_drops_offset : ∃ m₁, vmmInit sampleLayout blankMachine = some m₁ ∧
    m₁.translate 0x345678 = some 0x345678 ∧ vmmGetPhysicalAddress m₁ 0x345678 = some 0x345000 := by
  obtain ⟨m₁, hinit, hM, -⟩ := vmmInit_spec (L := sampleLayout) (m := blankMachine) rfl
  obtain ⟨a, htrans, rfl⟩ := (translate_low identity_spec hM
    (show 0x345678 < 20480 * 4096 by norm_num)).total trivial
  obtain ⟨a, hrun, rfl⟩ := (vmmGetPhysicalAddress_spec identity_spec hM
    (show 0x345678 < 2 ^ 32 by norm_num)).total trivial
  refine ⟨m₁, hinit, htrans, ?_⟩
  rw [hrun]
  rw [translate_eq hM] at htrans
  split at htrans
  · rename_i hp
    rw [if_pos hp.1, Option.some.injEq]
    have := Option.some.inj htrans
    omega
  · cases htrans

end JarvOs.Memory
