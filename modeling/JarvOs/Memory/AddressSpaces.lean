/-
# Runs of the virtual memory manager

A history of calls into `vmm.c`, with the directories `vmm_create_address_space` has returned kept
beside the machine (`spaces`, as page numbers): the kernel itself has no list of them.

`vmStep_spec` is the one step, for any rule `Low` about the entries of low pages.  It is used twice:
here, where low pages may also be unmapped, and for the identity map, where they may not.

`page_table_isolation` is what the two-level tables are for.  Above 80 MB a mapping is an entry of
a function from (directory, page) to frames: `vmm_map_page` and `vmm_unmap_page` change it at ONE
point, whatever has happened to any address space before.
-/
import JarvOs.Memory.VmmSpec
import JarvOs.Lib.Trace

namespace JarvOs.Memory

open JarvOs.Lib

variable {L : Layout} {T : Prop} {Low Low' : Nat → Nat → Prop} {m m' : Machine} {spaces : List Nat}

/-! ## 1. Calls -/

/-- The calls that edit address spaces, and those of `pmm.c` in between. -/
inductive VmOp
  | createAddressSpace
  | switchDirectory (pageDir : Nat)
  | mapPage (va p flags : Nat)
  | unmapPage (va : Nat)
  | allocMapPage (va flags : Nat)
  | markUserRange (start len : Nat)
  | allocPage
  | freePage (addr : Nat)
deriving DecidableEq, Repr

/-- The machine and the pages of the directories created so far. -/
structure VmState where
  mach : Machine
  spaces : List Nat

/-- The directories after `vmm_create_address_space` has returned `pageDir`. -/
def addSpace (pageDir : Nat) (spaces : List Nat) : List Nat :=
  if pageDir = 0 then spaces else pageDir / 4096 :: spaces

theorem addSpace_page {q : Nat} (hq : 4096 * q ≠ 0) (spaces : List Nat) :
    addSpace (4096 * q) spaces = q :: spaces := by
  rw [addSpace, if_neg hq, Nat.mul_div_cancel_left q (by norm_num)]

theorem mem_addSpace {d pageDir : Nat} {spaces : List Nat} (hd : d ∈ spaces) :
    d ∈ addSpace pageDir spaces := by
  unfold addSpace
  split
  · exact hd
  · exact List.mem_cons_of_mem _ hd

/-- One call. -/
def vmStep (L : Layout) (s : VmState) : VmOp → Option VmState
  | .createAddressSpace =>
    (vmmCreateAddressSpace L s.mach).map (fun r => ⟨r.2, addSpace r.1 s.spaces⟩)
  | .switchDirectory pageDir => some { s with mach := vmmSwitchDirectory s.mach pageDir }
  | .mapPage va p flags => (vmmMapPage s.mach va p flags).map (fun r => { s with mach := r.2 })
  | .unmapPage va => (vmmUnmapPage s.mach va).map (fun m => { s with mach := m })
  | .allocMapPage va flags => (vmmAllocMapPage s.mach va flags).map (fun r => { s with mach := r.2 })
  | .markUserRange start len => (vmmMarkUserRange s.mach start len).map (fun m => { s with mach := m })
  | .allocPage => s.mach.allocPage.map (fun r => { s with mach := r.2 })
  | .freePage addr => (s.mach.freePage addr).map (fun m => { s with mach := m })

/-- Arguments are 32-bit words, only directories are switched to, and a directory or table is not
freed. -/
def VmArgs (L : Layout) (s : VmState) : VmOp → Prop
  | .createAddressSpace => True
  | .switchDirectory pageDir => ∃ d ∈ L.kpd :: s.spaces, pageDir = 4096 * d
  | .mapPage va p flags => va < 2 ^ 32 ∧ p < 2 ^ 32 ∧ flags < 2 ^ 32
  | .unmapPage va => va < 2 ^ 32
  | .allocMapPage va flags => va < 2 ^ 32 ∧ flags < 2 ^ 32
  | .markUserRange start len => start < 2 ^ 32 ∧ len < 2 ^ 32
  | .allocPage => True
  | .freePage addr => addr < 2 ^ 32 ∧ ¬ InUse L (tables s.mach.mem) s.spaces (addr / 4096)

/-- What a call writes to the entry of a low page obeys `Low`. -/
def LowSafe (Low : Nat → Nat → Prop) (s : VmState) : VmOp → Prop
  | .mapPage va p flags => va < 80 * 1024 * 1024 → Low (va / 4096) (pteOf p flags)
  | .unmapPage va => va < 80 * 1024 * 1024 → Low (va / 4096) 0
  | .allocMapPage va flags => va < 80 * 1024 * 1024 → ∀ q m', s.mach.allocPage = some (4096 * q, m') →
      q ≠ 0 → Low (va / 4096) (pteOf (4096 * q) flags)
  | _ => True

/-! ## 2. One call -/

theorem MachInv.switch (hM : MachInv L Low m spaces) {d : Nat} (hd : d ∈ L.kpd :: spaces) :
    MachInv L Low (vmmSwitchDirectory m (4096 * d)) spaces := by
  have hdir : (vmmSwitchDirectory m (4096 * d)).dir = d := Nat.mul_div_cancel_left _ (by norm_num)
  refine ⟨hM.paging, ?_, ?_, hM.vm⟩
  · rw [hdir]
    rfl
  · rwa [hdir]

/-- **Every call keeps the tables in order**, and returns if low pages are always present. -/
theorem vmStep_spec (hS : LowSpec T Low)
    (huser : ∀ {n e : Nat}, Low n e → Low n (e ||| pageUser)) {s : VmState}
    (hM : MachInv L Low s.mach s.spaces) {op : VmOp} (hargs : VmArgs L s op)
    (hlow : LowSafe Low s op) :
    Ensures T (vmStep L s op) (fun s' => MachInv L Low s'.mach s'.spaces) := by
  cases op with
  | createAddressSpace =>
    refine (vmmCreateAddressSpace_spec hS hM).map ?_
    rintro r (⟨rfl, -⟩ | ⟨q, hq, hr, hstep, -⟩)
    · exact hM
    · rw [hr, addSpace_page (isFrame_of_free hq).addr_ne_zero]
      exact hstep.inv
  | switchDirectory pageDir =>
    obtain ⟨d, hd, rfl⟩ := hargs
    exact .ret (hM.switch hd)
  | mapPage va p flags =>
    obtain ⟨hva, hp, -⟩ := hargs
    rcases Nat.lt_or_ge va (20480 * 4096) with hl | hh
    · exact (vmmMapPage_low hS hM hl hp (hlow hl)).map (fun r hr => hr.2.1.inv)
    · exact (vmmMapPage_high hS hM hva hh hp _).map (fun r hr => hr.1.inv)
  | unmapPage va =>
    rcases Nat.lt_or_ge va (20480 * 4096) with hl | hh
    · exact (vmmUnmapPage_low hS hM hl (hlow hl)).map (fun m' hstep => hstep.inv)
    · exact (vmmUnmapPage_high hS hM hargs hh).map (fun m' hm' => hm'.1.inv)
  | allocMapPage va flags =>
    rcases Nat.lt_or_ge va (20480 * 4096) with hl | hh
    · refine (vmmAllocMapPage_low hS hM hl (fun q hq hal => ?_)).map (fun r hstep => hstep.inv)
      obtain ⟨m₁, hal⟩ := hal
      have hq0 := (isFrame_of_free hq).1
      exact hlow hl q m₁ hal (by omega)
    · exact (vmmAllocMapPage_high hS hM hargs.1 hh _).map (fun r hr => hr.1.inv)
  | markUserRange start len =>
    exact (vmmMarkUserRange_spec hS huser hM hargs.1).map (fun m' hstep => hstep.inv)
  | allocPage =>
    simp only [vmStep]
    rcases allocPage_spec s.mach with ⟨halloc, -⟩ | ⟨q, -, bm, halloc, hbm⟩
    · rw [halloc]
      exact .ret hM
    · rw [halloc]
      exact .ret (hM.take hbm)
  | freePage addr =>
    simp only [vmStep]
    obtain ⟨bm, hfree, hcase⟩ := freePage_spec s.mach addr
    rw [hfree]
    refine .ret ⟨hM.paging, hM.cr3, hM.dir, ?_⟩
    rcases hcase with ⟨hfr, hbm⟩ | ⟨-, rfl⟩
    · simp only [hbm]
      exact hM.vm.give hfr hargs.2
    · exact hM.vm

/-- A rule for low pages may be traded for another that its entries also obey. -/
theorem MachInv.low_imp (hM : MachInv L Low m spaces)
    (himp : ∀ n < 20480, Low n (lowEntry L (tables m.mem) n) → Low' n (lowEntry L (tables m.mem) n)) :
    MachInv L Low' m spaces :=
  ⟨hM.paging, hM.cr3, hM.dir, ⟨hM.vm.free_frame, hM.vm.space, hM.vm.lowPde,
    fun n hn => himp n hn (hM.vm.lowPte n hn), hM.vm.table, hM.vm.inj⟩⟩

/-! ## 3. Isolation -/

/-- A low page may be absent, but is mapped to nothing but itself. -/
def SelfOrAbsent (n e : Nat) : Prop := present e → pfn e = n

theorem selfOrAbsent_spec : LowSpec False SelfOrAbsent := ⟨fun h hp => h hp, fun hT => hT.elim⟩

theorem selfOrAbsent_user {n e : Nat} (h : SelfOrAbsent n e) : SelfOrAbsent n (e ||| pageUser) := by
  intro hp
  rw [pfn_or _ (by norm_num)]
  exact h (((present_or _ _).mp hp).resolve_right (by decide))

/-- The legal calls of a history: addresses below 80 MB are only ever mapped to themselves. -/
def VmLegal (L : Layout) (s : VmState) (op : VmOp) : Prop :=
  VmArgs L s op ∧ match op with
    | .mapPage va p _ => va < 80 * 1024 * 1024 → p / 4096 = va / 4096
    | .allocMapPage va _ => va < 80 * 1024 * 1024 →
        ∀ p m', s.mach.allocPage = some (p, m') → p ≠ 0 → p / 4096 = va / 4096
    | _ => True

theorem VmLegal.lowSafe {s : VmState} {op : VmOp} (h : VmLegal L s op) :
    LowSafe SelfOrAbsent s op := by
  obtain ⟨hargs, hself⟩ := h
  cases op with
  | mapPage va p flags =>
    intro hl _
    rw [pteOf_pfn hargs.2.1]
    exact hself hl
  | unmapPage va => exact fun _ hp => absurd hp not_present_zero
  | allocMapPage va flags =>
    intro hl q m' hal hq _
    have hq32 : 4096 * q < 2 ^ 32 := by
      rcases allocPage_spec s.mach with ⟨h, -⟩ | ⟨q', hq', bm, h, -⟩
      · rw [hal, Option.some.injEq, Prod.mk.injEq] at h
        omega
      · rw [hal, Option.some.injEq, Prod.mk.injEq] at h
        have := (isFrame_of_free hq').2
        omega
    rw [pteOf_pfn hq32]
    exact hself hl (4096 * q) m' hal (by omega)
  | _ => trivial

/-- **The tables are in order in every reachable state.** -/
theorem machInv_reach {m₀ m₁ : Machine} (hboot : m₀.paging = false)
    (hinit : vmmInit L m₀ = some m₁) {s : VmState}
    (hr : Reach (vmStep L) (VmLegal L) ⟨m₁, []⟩ s) : MachInv L SelfOrAbsent s.mach s.spaces := by
  refine hr.inv (I := fun s => MachInv L SelfOrAbsent s.mach s.spaces) ?_ ?_
  · obtain ⟨m', hm', hM, -⟩ := vmmInit_spec (L := L) hboot
    obtain rfl := Option.some.inj (hinit.symm.trans hm')
    exact hM.low_imp (fun n _ h _ => h.2.2)
  · intro s op t hM hok hst
    exact (vmStep_spec selfOrAbsent_spec selfOrAbsent_user hM hok.1 hok.lowSafe).1 t hst

/-- Only the page of `v` in the current directory may walk differently. -/
def SameElsewhere (L : Layout) (s : VmState) (m' : Machine) (v : Nat) : Prop :=
  ∀ d ∈ L.kpd :: s.spaces, ∀ w < 2 ^ 32, (d ≠ s.mach.dir ∨ w / 4096 ≠ v / 4096) →
    (tables m'.mem).walk d w = (tables s.mach.mem).walk d w

/-- From entries to walks. -/
theorem walks_of_entries {s : VmState} {v : Nat} {e : Option Nat} (hv : v < 2 ^ 32)
    (hdir : s.mach.dir ∈ L.kpd :: s.spaces)
    (hentry : ∀ d ∈ L.kpd :: s.spaces, ∀ i j : Fin 1024, (tables m'.mem).entry d i j =
      if d = s.mach.dir ∧ i = dirIdx v ∧ j = tabIdx v then e
      else (tables s.mach.mem).entry d i j) :
    (∀ w < 2 ^ 32, w / 4096 = v / 4096 → (tables m'.mem).walk s.mach.dir w =
      e.map (fun e => 4096 * pfn e + w % 4096)) ∧ SameElsewhere L s m' v := by
  refine ⟨fun w hw hpage => ?_, fun d hd w hw hne => walk_congr ?_⟩
  · rw [Tables.walk, hentry _ hdir, if_pos ⟨rfl, (idx_eq_iff hw hv).mpr hpage⟩]
  · rw [hentry d hd, if_neg]
    rintro ⟨rfl, hidx⟩
    exact hne.elim (fun h => h rfl) (fun h => h ((idx_eq_iff hw hv).mp hidx))

/-- A complete low map is one where both functions return. -/
theorem machInv_total (hM : MachInv L SelfOrAbsent m spaces)
    (hfull : ∀ n < 20480, (tables m.mem).walk m.dir (4096 * n) ≠ none) :
    MachInv L (fun n e => present e ∧ pfn e = n) m spaces := by
  refine hM.low_imp (fun n hn h => ?_)
  suffices hp : present (lowEntry L (tables m.mem) n) from ⟨hp, h hp⟩
  by_contra hp
  have hentry := (hM.vm.low_entry hM.dir (show 4096 * n < 20480 * 4096 by omega)).2
  rw [Nat.mul_div_cancel_left n (by norm_num)] at hentry
  refine hfull n hn ?_
  rw [Tables.walk, Tables.entry, hentry, if_neg (fun hh => hp hh.2), Option.map_none]

/-- **Page-table algebra and isolation.**  In every state a legal history reaches, for every page
above 80 MB: a `vmm_map_page` that returns 0 takes exactly that page of the current directory to
the frame asked for, a `vmm_unmap_page` takes it to nothing, and every other page of the current
directory and every page of every other one walks as before.  Both return as long as the low map
is complete. -/
theorem page_table_isolation {m₀ m₁ : Machine} (hboot : m₀.paging = false)
    (hinit : vmmInit L m₀ = some m₁) {s : VmState}
    (hr : Reach (vmStep L) (VmLegal L) ⟨m₁, []⟩ s) {v p flags : Nat} (hv : v < 2 ^ 32)
    (hhigh : 80 * 1024 * 1024 ≤ v) (hp : p < 2 ^ 32) :
    (∀ m', vmmMapPage s.mach v p flags = some (0, m') →
      (∀ w < 2 ^ 32, w / 4096 = v / 4096 →
        (tables m'.mem).walk s.mach.dir w = some ((p &&& 0xFFFFF000) + w % 4096)) ∧
      SameElsewhere L s m' v) ∧
    (∀ m', vmmUnmapPage s.mach v = some m' →
      (∀ w < 2 ^ 32, w / 4096 = v / 4096 → (tables m'.mem).walk s.mach.dir w = none) ∧
      SameElsewhere L s m' v) ∧
    ((∀ n < 20480, (tables s.mach.mem).walk s.mach.dir (4096 * n) ≠ none) →
      (vmmMapPage s.mach v p flags).isSome ∧ (vmmUnmapPage s.mach v).isSome) := by
  have hM := machInv_reach hboot hinit hr
  refine ⟨fun m' hm' => ?_, fun m' hm' => ?_, fun hfull => ?_⟩
  · obtain ⟨-, hcase⟩ := (vmmMapPage_high selfOrAbsent_spec hM hv hhigh hp _).1 _ hm'
    rcases hcase with ⟨habs, -⟩ | ⟨-, hentry⟩
    · exact absurd habs (by norm_num)
    · obtain ⟨hpage, hrest⟩ := walks_of_entries hv hM.dir hentry
      refine ⟨fun w hw hwv => ?_, hrest⟩
      rw [hpage w hw hwv, Option.map_some, pteOf_pfn hp, and_frame_mask hp]
  · obtain ⟨-, hentry⟩ := (vmmUnmapPage_high selfOrAbsent_spec hM hv hhigh).1 m' hm'
    exact walks_of_entries hv hM.dir hentry
  · have hM' := machInv_total hM hfull
    have hS : LowSpec True (fun n e => present e ∧ pfn e = n) := ⟨fun h _ => h.2, fun _ h => h.1⟩
    exact ⟨(vmmMapPage_high hS hM' hv hhigh hp _).2 trivial,
      (vmmUnmapPage_high hS hM' hv hhigh).2 trivial⟩

/-- A kernel linked so that its tables end just below 2 MB. -/
def sampleLayout : Layout where
  kpd := 490
  kpt := 491
  trampoline := 0x100000
  kpd_low := by decide
  kpt_low := by decide
  apart := by decide
  kpd_frame := by decide
  kpt_frame := by decide
  trampoline_lt := by decide

/-- A machine before `vmm_init`. -/
def blankMachine : Machine := ⟨fun _ => 0, false, 0, Vector.replicate bitmapSize 0⟩

theorem page_table_isolation_sample : ∃ m₁ m', vmmInit sampleLayout blankMachine = some m₁ ∧
    vmmMapPage m₁ 0xD0000000 0x345678 pageWritable = some (0, m') ∧
    (tables m'.mem).walk 490 0xD0000ABC = some 0x345ABC ∧
    (tables m'.mem).walk 490 0xD0001000 = (tables m₁.mem).walk 490 0xD0001000 := by
  obtain ⟨m₁, hinit, hM, hcr3, hfree, -⟩ := vmmInit_spec (L := sampleLayout) (m := blankMachine) rfl
  have hdir : m₁.dir = 490 := by
    rw [Machine.dir, hcr3]
    rfl
  obtain ⟨⟨r, m'⟩, hmap, -, hcase⟩ := (vmmMapPage_high identity_spec hM
    (show 0xD0000000 < 2 ^ 32 by norm_num) (by norm_num) (show 0x345678 < 2 ^ 32 by norm_num)
    pageWritable).total trivial
  simp only at hcase
  rcases hcase with ⟨-, -, hempty⟩ | ⟨rfl, -⟩
  · rw [hfree] at hempty
    exact absurd hempty (by decide)
  · obtain ⟨hon, hoff⟩ := (page_table_isolation rfl hinit .refl (by norm_num) (by norm_num)
      (by norm_num)).1 m' hmap
    simp only [hdir] at hon
    refine ⟨m₁, m', hinit, hmap, hon 0xD0000ABC (by norm_num) (by norm_num), ?_⟩
    have hkpd : (490 : Nat) ∈ sampleLayout.kpd :: ([] : List Nat) := by simp [sampleLayout]
    exact hoff 490 hkpd 0xD0001000 (by norm_num) (Or.inr (by norm_num))

end JarvOs.Memory
