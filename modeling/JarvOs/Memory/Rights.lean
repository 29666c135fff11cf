/-
# Access rights (`vmm_map_page` and `vmm_mark_user_range` in `kernel/memory/vmm.c`)

The CPU grants what BOTH levels grant: a page is open to ring 3 if the user bit is set in its directory
entry and in its table entry.  `vmm_map_page` writes the flags it is asked for into the table entry; a
directory entry it makes is present and writable, and never has the user bit.  Only
`vmm_mark_user_range` sets that bit there, for a whole region of 4 MB.

* So a page mapped with `PAGE_USER` is open if and only if its region had been marked before
  (`rights_match_iff`).
* And marking one page of a region opens every page of it that was mapped with `PAGE_USER` but was not
  open yet.  With the rounding of the two ends, that is what decides whether a call opens exactly the
  pages it is asked for (`mark_user_range_exact_iff`).
-/
import JarvOs.Memory.EntryWords

namespace JarvOs.Memory

open JarvOs.Lib
open JarvOs.Syscall (user pdeAt pteAt)

variable {L : Layout} {m m' : Machine} {spaces : List Nat} {v w start len : Nat}

/-! ## 1. The rights of a mapped page -/

/-- Both levels grant access to ring 3. -/
def UserPage (m : Machine) (v : Nat) : Prop := user (pdeAt m v) ∧ user (pteAt m v)

/-- Both levels grant writes. -/
def WritablePage (m : Machine) (v : Nat) : Prop := writable (pdeAt m v) ∧ writable (pteAt m v)

/-- **The effective rights are those of the flags.** -/
def RightsMatch (m : Machine) (v flags : Nat) : Prop :=
  (UserPage m v ↔ user flags) ∧ (WritablePage m v ↔ writable flags)

/-- The bits of an entry below the frame are those of the flags. -/
theorem pteOf_testBit (p flags : Nat) {k : Nat} (hk : k < 12) (hk0 : k ≠ 0) :
    (pteOf p flags).testBit k = flags.testBit k := by
  have hmask : (0xFFFFF000 : Nat).testBit k = false ∧ (0xFFF : Nat).testBit k = true ∧
      (pagePresent : Nat).testBit k = false := by
    interval_cases k <;> simp_all <;> decide
  simp only [pteOf, Nat.testBit_or, Nat.testBit_and, hmask, Bool.and_false, Bool.and_true,
    Bool.false_or, Bool.or_false]

theorem pteOf_user (p flags : Nat) : user (pteOf p flags) ↔ user flags := by
  rw [user_iff, user_iff, pteOf_testBit p flags (by norm_num) (by norm_num)]

theorem pteOf_writable (p flags : Nat) : writable (pteOf p flags) ↔ writable flags := by
  rw [writable_iff, writable_iff, pteOf_testBit p flags (by norm_num) (by norm_num)]

/-- A directory entry made by `vmm_map_page` is closed to ring 3. -/
theorem pdeOf_not_user (t : Nat) : ¬ user (pdeOf t) := by
  have hpage : (4096 * t).testBit 2 = false := by
    rw [show 4096 * t = 2 ^ 12 * t by norm_num, Nat.testBit_two_pow_mul]
    simp
  rw [pdeOf, user_or, user_or]
  rintro ((h | h) | h)
  · rw [user_iff, hpage] at h
    cases h
  · exact absurd h (by decide)
  · exact absurd h (by decide)

/-- Directory entries are writable. -/
theorem VmInv.pde_writable {Low : Nat → Nat → Prop} {W : Tables} {free : Finset Nat} {d : Nat}
    {i : Fin 1024} (h : VmInv L Low W free spaces) (hd : d ∈ L.kpd :: spaces) (hp : present (W d i)) :
    writable (W d i) := by
  by_cases hi : (i : Nat) < 20
  · exact (h.lowPde d hd i hi).2.1
  · exact (h.table d hd i (by omega) hp).2.2.2.2

/-- **When a mapping has the rights it was asked for.**  In every state a legal history reaches, for
every address, frame and flags: after a `vmm_map_page` that returns 0 the effective rights of the page
are those of the flags, if and only if the flags do not contain `PAGE_USER` or the page lies in a region
whose directory entry has the bit already. -/
theorem rights_match_iff {m₀ m₁ : Machine} (hboot : m₀.paging = false)
    (hinit : vmmInit L m₀ = some m₁) {s : VmState}
    (hr : Reach (vmStep L) (VmLegal L) ⟨m₁, []⟩ s) {v p flags : Nat} (hv : v < 2 ^ 32)
    (hp : p < 2 ^ 32) (hmap : vmmMapPage s.mach v p flags = some (0, m')) :
    RightsMatch m' v flags ↔
      (user flags → present (pdeAt s.mach v) ∧ user (pdeAt s.mach v)) := by
  have hM := machInv_reach hboot hinit hr
  have hentered : Entered s.mach m' v (pteOf p flags) := by
    rcases (vmmMapPage_words selfOrAbsent_spec hM hv hp flags).1 _ hmap with hfail | ⟨-, h⟩
    · exact absurd (Prod.mk.inj hfail).1 (by norm_num)
    · exact h
  rw [RightsMatch, UserPage, WritablePage, hentered.pte, pteOf_user, pteOf_writable]
  rcases hentered.pde with ⟨hpres, hsame⟩ | ⟨habs, t, hnew⟩
  · have hw := hM.vm.pde_writable hM.dir hpres
    rw [hsame]
    constructor
    · rintro ⟨huser, -⟩ hflags
      exact ⟨hpres, (huser.mpr hflags).1⟩
    · intro hcond
      refine ⟨⟨fun h => h.2, fun h => ⟨(hcond h).2, h⟩⟩, ⟨fun h => h.2, fun h => ⟨hw, h⟩⟩⟩
  · rw [hnew]
    constructor
    · rintro ⟨huser, -⟩ hflags
      exact absurd (huser.mpr hflags).1 (pdeOf_not_user t)
    · intro hcond
      refine ⟨⟨fun h => h.2, fun h => absurd (hcond h).1 habs⟩, ⟨fun h => h.2, fun h => ⟨?_, h⟩⟩⟩
      exact pdeOf_writable t

/-- A page entered through a new table is closed to ring 3. -/
theorem Entered.closed {e : Nat} (h : Entered m m' v e) (hnew : ¬ present (pdeAt m v)) :
    ¬ UserPage m' v := by
  rintro ⟨huser, -⟩
  rcases h.pde with ⟨hp, -⟩ | ⟨-, t, ht⟩
  · exact hnew hp
  · exact pdeOf_not_user t (ht ▸ huser)

/-- A low page stays mapped to itself. -/
def Kept (n e : Nat) : Prop := present e ∧ pfn e = n

/-- The first mapping above 80 MB after `vmm_init`. -/
theorem fresh_mapping {v p : Nat} (hv : v < 2 ^ 32) (hhigh : 80 * 1024 * 1024 ≤ v) (hp : p < 2 ^ 32)
    (flags : Nat) : ∃ m₁ m₂, vmmInit sampleLayout blankMachine = some m₁ ∧
      vmmMapPage m₁ v p flags = some (0, m₂) ∧ ¬ present (pdeAt m₁ v) ∧
      Entered m₁ m₂ v (pteOf p flags) ∧ MachInv sampleLayout Kept m₂ [] := by
  obtain ⟨m₁, hinit, hM, hcr3, hfree, habove⟩ :=
    vmmInit_spec (L := sampleLayout) (m := blankMachine) rfl
  have hdir : m₁.dir = sampleLayout.kpd := by
    rw [Machine.dir, hcr3]
    rfl
  obtain ⟨⟨r, m₂⟩, hmap, ⟨hstep, hcase⟩, hwords⟩ := ((vmmMapPage_high identity_spec hM hv hhigh hp
    flags).and (vmmMapPage_words identity_spec hM hv hp flags)).total trivial
  simp only at hstep hcase hwords
  rcases hcase with ⟨-, -, hempty⟩ | ⟨rfl, -⟩
  · rw [hfree] at hempty
    exact absurd hempty (by decide)
  · rcases hwords with hfail | ⟨-, hentered⟩
    · exact absurd (Prod.mk.inj hfail).1 (by norm_num)
    · refine ⟨m₁, m₂, hinit, hmap, ?_, hentered, hstep.inv.low_imp (fun n _ h => ⟨h.1, h.2.2⟩)⟩
      rw [pdeAt, hdir]
      exact habove _ (dirIdx_high hv hhigh)

theorem rights_match_kernel_page : ∃ m₁ m₂, vmmInit sampleLayout blankMachine = some m₁ ∧
    vmmMapPage m₁ 0xD0000000 0x345000 pageWritable = some (0, m₂) ∧
    RightsMatch m₂ 0xD0000000 pageWritable := by
  obtain ⟨m₁, m₂, hinit, hmap, -⟩ := fresh_mapping (show 0xD0000000 < 2 ^ 32 by norm_num)
    (by norm_num) (show 0x345000 < 2 ^ 32 by norm_num) pageWritable
  refine ⟨m₁, m₂, hinit, hmap, ?_⟩
  exact (rights_match_iff rfl hinit .refl (by norm_num) (by norm_num) hmap).mpr
    (fun h => absurd h (by decide))

/-- **A user page that is not one.**  The first page above 80 MB is mapped with `PAGE_USER`, the call
returns 0, and the page is closed to ring 3. -/
theorem user_mapping_closed : ∃ m₁ m₂, vmmInit sampleLayout blankMachine = some m₁ ∧
    vmmMapPage m₁ 0xD0000000 0x345000 (pageUser ||| pageWritable) = some (0, m₂) ∧
    user (pageUser ||| pageWritable) ∧ ¬ UserPage m₂ 0xD0000000 := by
  obtain ⟨m₁, m₂, hinit, hmap, habs, hentered, -⟩ := fresh_mapping
    (show 0xD0000000 < 2 ^ 32 by norm_num) (by norm_num) (show 0x345000 < 2 ^ 32 by norm_num)
    (pageUser ||| pageWritable)
  exact ⟨m₁, m₂, hinit, hmap, by decide, hentered.closed habs⟩

/-! ## 2. Histories that keep the low map -/

theorem kept_spec : LowSpec True Kept := ⟨fun h _ => h.2, fun _ h => h.1⟩

theorem kept_user {n e : Nat} (h : Kept n e) : Kept n (e ||| pageUser) :=
  ⟨(present_or _ _).mpr (Or.inl h.1), (pfn_or _ (by norm_num)).trans h.2⟩

/-- The calls that edit entries. -/
def EditsEntries : VmOp → Prop
  | .mapPage .. => True
  | .unmapPage _ => True
  | .markUserRange .. => True
  | _ => False

/-- Entries are edited, and below 80 MB, where the tables lie, every page stays mapped to itself. -/
def EditLegal (L : Layout) (s : VmState) (op : VmOp) : Prop :=
  EditsEntries op ∧ VmArgs L s op ∧ LowSafe Kept s op

/-- **The low map is complete in every state such a history reaches.** -/
theorem kept_reach {m₀ m₁ : Machine} (hboot : m₀.paging = false) (hinit : vmmInit L m₀ = some m₁)
    {s : VmState} (hr : Reach (vmStep L) (EditLegal L) ⟨m₁, []⟩ s) :
    MachInv L Kept s.mach s.spaces := by
  refine hr.inv (I := fun s => MachInv L Kept s.mach s.spaces) ?_ ?_
  · obtain ⟨m', hm', hM, -⟩ := vmmInit_spec (L := L) hboot
    obtain rfl := Option.some.inj (hinit.symm.trans hm')
    exact hM.low_imp (fun n _ h => ⟨h.1, h.2.2⟩)
  · intro s op t hM hok hst
    exact (vmStep_spec kept_spec kept_user hM hok.2.1 hok.2.2).1 t hst

/-! ## 3. Marking a range -/

/-- The page of `v` is present. -/
def PresentPage (m : Machine) (v : Nat) : Prop := present (pdeAt m v) ∧ present (pteAt m v)

/-- Ring 3 reaches the page of `v`. -/
def Accessible (m : Machine) (v : Nat) : Prop := PresentPage m v ∧ UserPage m v

/-- The page of `v` meets the bytes `[start, start + len)`. -/
def InRange (start len v : Nat) : Prop :=
  max start (v / 4096 * 4096) < min (start + len) (v / 4096 * 4096 + 4096)

instance (start len v : Nat) : Decidable (InRange start len v) := inferInstanceAs (Decidable (_ < _))

/-- **What a call is for**: the present pages of the range are open, and every other page is as open as
it was. -/
structure OpensExactly (m m' : Machine) (start len : Nat) : Prop where
  inside : ∀ w < 2 ^ 32, InRange start len w → PresentPage m w → Accessible m' w
  outside : ∀ w < 2 ^ 32, ¬ InRange start len w → (Accessible m' w ↔ Accessible m w)

/-- What decides it.  The end of the range must not lie in the last page of the address space, unless
the range is open already; and no closed page outside of the range is one of the pages marked, or lies
in a region that is marked and has the user bit in its own entry. -/
structure RangeSafe (m : Machine) (start len : Nat) : Prop where
  wraps : 2 ^ 32 - 4096 < start + len →
    ∀ w < 2 ^ 32, InRange start len w → PresentPage m w → Accessible m w
  spills : ∀ w < 2 ^ 32, ¬ InRange start len w → PresentPage m w → ¬ Accessible m w →
    Touches (markedPages start len) w →
    w / 4096 ∉ markedPages start len ∧ ¬ user (pteAt m w)

/-- The pages marked, when rounding up the end does not wrap. -/
theorem mem_markedPages {q : Nat} (hend : start + len ≤ 2 ^ 32 - 4096) :
    q ∈ markedPages start len ↔ start / 4096 ≤ q ∧ q < (start + len + 0xFFF) / 4096 := by
  rw [markedPages, Set.mem_Ico, add32_of_lt (show start + len < 2 ^ 32 by omega),
    add32_of_lt (by omega)]

/-- A range that ends in the last page of the address space is not walked at all. -/
theorem markedPages_wrapped (hend : start + len ≤ 2 ^ 32) (hwrap : 2 ^ 32 - 4096 < start + len) :
    markedPages start len = ∅ := by
  have hzero : add32 (add32 start len) 0xFFF / 4096 = 0 := by
    unfold add32
    omega
  rw [markedPages, hzero]
  exact Set.Ico_eq_empty (by omega)

theorem touches_of_mem {S : Set Nat} (h : w / 4096 ∈ S) : Touches S w :=
  ⟨w / 4096, h, by omega⟩

/-- Which pages are open after the pages of `S` have been marked. -/
theorem Marks.accessible_iff {S : Set Nat} (h : Marks S m m') (hw : w < 2 ^ 32) :
    Accessible m' w ↔ PresentPage m w ∧ (user (pdeAt m w) ∨ Touches S w) ∧
      (user (pteAt m w) ∨ w / 4096 ∈ S) := by
  have hpde := h.pde w hw
  unfold Accessible PresentPage UserPage
  rw [hpde.present, hpde.user]
  by_cases hp : present (pdeAt m w)
  · have hpte := h.pte w hw hp
    rw [hpte.present, hpte.user]
    simp only [hp, true_and]
  · simp only [hp, false_and]

/-- **Marking opens exactly the range** if and only if the range is safe. -/
theorem Marks.opensExactly_iff (h : Marks (markedPages start len) m m') (hend : start + len ≤ 2 ^ 32) :
    OpensExactly m m' start len ↔ RangeSafe m start len := by
  constructor
  · rintro ⟨hin, hout⟩
    refine ⟨fun hwrap w hw hr hp => ?_, fun w hw hr hp hclosed ht => ?_⟩
    · have hopen := (h.accessible_iff hw).mp (hin w hw hr hp)
      rw [markedPages_wrapped hend hwrap] at hopen
      obtain ⟨-, hd | ⟨q, hq, -⟩, ht | ht⟩ := hopen
      · exact ⟨hp, hd, ht⟩
      · exact absurd ht (Set.notMem_empty _)
      · exact absurd hq (Set.notMem_empty _)
      · exact absurd ht (Set.notMem_empty _)
    · have hstill : ¬ Accessible m' w := fun hopen => hclosed ((hout w hw hr).mp hopen)
      rw [h.accessible_iff hw] at hstill
      refine ⟨fun hmem => hstill ⟨hp, Or.inr ht, Or.inr hmem⟩, fun hu => hstill ⟨hp, Or.inr ht, Or.inl hu⟩⟩
  · rintro ⟨hwraps, hspills⟩
    refine ⟨fun w hw hr hp => ?_, fun w hw hr => ?_⟩
    · rw [h.accessible_iff hw]
      by_cases hwrap : 2 ^ 32 - 4096 < start + len
      · obtain ⟨-, hd, ht⟩ := hwraps hwrap w hw hr hp
        exact ⟨hp, Or.inl hd, Or.inl ht⟩
      · have hmem : w / 4096 ∈ markedPages start len := by
          rw [mem_markedPages (by omega)]
          unfold InRange at hr
          omega
        exact ⟨hp, Or.inr (touches_of_mem hmem), Or.inr hmem⟩
    · rw [h.accessible_iff hw]
      constructor
      · rintro ⟨hp, hd, ht⟩
        by_contra hclosed
        by_cases htouch : Touches (markedPages start len) w
        · obtain ⟨hno, hnu⟩ := hspills w hw hr hp hclosed htouch
          exact ht.elim hnu hno
        · refine hclosed ⟨hp, hd.resolve_right htouch, ht.resolve_right ?_⟩
          exact fun hmem => htouch (touches_of_mem hmem)
      · rintro ⟨hp, hd, ht⟩
        exact ⟨hp, Or.inl hd, Or.inl ht⟩

/-- **When a call opens exactly its range.**  In every state that `vmm_init` and calls that edit entries
lead to, for every range that ends at or below 2^32: `vmm_mark_user_range` returns, and opens the
present pages of the range and no others, if and only if the range is safe. -/
theorem mark_user_range_exact_iff {m₀ m₁ : Machine} (hboot : m₀.paging = false)
    (hinit : vmmInit L m₀ = some m₁) {s : VmState}
    (hr : Reach (vmStep L) (EditLegal L) ⟨m₁, []⟩ s) {start len : Nat} (hstart : start < 2 ^ 32)
    (hend : start + len ≤ 2 ^ 32) :
    ∃ m', vmmMarkUserRange s.mach start len = some m' ∧
      (OpensExactly s.mach m' start len ↔ RangeSafe s.mach start len) := by
  have hM := kept_reach hboot hinit hr
  obtain ⟨m', hrun, hmarks⟩ :=
    (vmmMarkUserRange_marks kept_spec kept_user hM hstart len).total trivial
  exact ⟨m', hrun, hmarks.opensExactly_iff hend⟩

/-- The page just mapped is present. -/
theorem Entered.present_page {p flags : Nat} (h : Entered m m' v (pteOf p flags)) : PresentPage m' v := by
  refine ⟨?_, h.pte ▸ pteOf_present p flags⟩
  rcases h.pde with ⟨hp, hsame⟩ | ⟨-, t, hnew⟩
  · exact hsame ▸ hp
  · exact hnew ▸ pdeOf_present t

/-- In a new table no other page is present. -/
theorem Entered.lone {e : Nat} (h : Entered m m' v e) (hv : v < 2 ^ 32) (hnew : ¬ present (pdeAt m v))
    (hw : w < 2 ^ 32) (hregion : v / 4096 / 1024 = w / 2 ^ 22) (hne : w / 4096 ≠ v / 4096) :
    ¬ PresentPage m' w := by
  rintro ⟨hpde, hpte⟩
  rcases h.rest w hw hne hpde with hzero | ⟨hold, -⟩
  · rw [hzero] at hpte
    exact not_present_zero hpte
  · rw [pdeAt, (dirIdx_eq_iff hv hw).mpr hregion] at hold
    exact hnew hold

theorem mark_user_range_one_page : ∃ m₁ m₂ m₃, vmmInit sampleLayout blankMachine = some m₁ ∧
    vmmMapPage m₁ 0xD0000000 0x345000 pageWritable = some (0, m₂) ∧
    vmmMarkUserRange m₂ 0xD0000000 4096 = some m₃ ∧ Accessible m₃ 0xD0000000 := by
  obtain ⟨m₁, m₂, hinit, hmap, habs, hentered, -⟩ := fresh_mapping
    (show 0xD0000000 < 2 ^ 32 by norm_num) (by norm_num) (show 0x345000 < 2 ^ 32 by norm_num) pageWritable
  have hr : Reach (vmStep sampleLayout) (EditLegal sampleLayout) ⟨m₁, []⟩ ⟨m₂, []⟩ := by
    refine .tail (o := .mapPage 0xD0000000 0x345000 pageWritable) .refl ⟨trivial, ?_, ?_⟩ ?_
    · exact ⟨by norm_num, by norm_num, by norm_num⟩
    · intro hlow
      exact absurd hlow (by norm_num)
    · simp only [vmStep, hmap, Option.map_some]
  obtain ⟨m₃, hmark, hiff⟩ := mark_user_range_exact_iff rfl hinit hr
    (show 0xD0000000 < 2 ^ 32 by norm_num) (show 0xD0000000 + 4096 ≤ 2 ^ 32 by norm_num)
  refine ⟨m₁, m₂, m₃, hinit, hmap, hmark, ?_⟩
  refine (hiff.mpr ⟨fun h => absurd h (by norm_num), ?_⟩).inside _ (by norm_num) (by decide)
    hentered.present_page
  rintro w hw hout hpage - ⟨q, hq, hregion⟩
  rw [mem_markedPages (by norm_num)] at hq
  refine absurd hpage (hentered.lone (by norm_num) habs hw (by omega) ?_)
  unfold InRange at hout
  omega

/-- **Too much and too little.**  A page mapped with `PAGE_USER`, closed because its region is, becomes
open when its neighbour is marked; and the last page of the address space stays closed when it is
marked itself. -/
theorem mark_user_range_inexact :
    (∃ m₁ m₂ m₃, vmmInit sampleLayout blankMachine = some m₁ ∧
      vmmMapPage m₁ 0xD0000000 0x345000 pageUser = some (0, m₂) ∧
      vmmMarkUserRange m₂ 0xD0001000 4096 = some m₃ ∧
      ¬ InRange 0xD0001000 4096 0xD0000000 ∧ ¬ Accessible m₂ 0xD0000000 ∧
      Accessible m₃ 0xD0000000) ∧
    (∃ m₁ m₂ m₃, vmmInit sampleLayout blankMachine = some m₁ ∧
      vmmMapPage m₁ 0xFFFFF000 0x345000 0 = some (0, m₂) ∧
      vmmMarkUserRange m₂ 0xFFFFF000 4096 = some m₃ ∧
      InRange 0xFFFFF000 4096 0xFFFFF000 ∧ PresentPage m₂ 0xFFFFF000 ∧
      ¬ Accessible m₃ 0xFFFFF000) := by
  refine ⟨?_, ?_⟩
  · obtain ⟨m₁, m₂, hinit, hmap, habs, hentered, hM⟩ := fresh_mapping
      (show 0xD0000000 < 2 ^ 32 by norm_num) (by norm_num) (show 0x345000 < 2 ^ 32 by norm_num) pageUser
    obtain ⟨m₃, hmark, hmarks⟩ := (vmmMarkUserRange_marks kept_spec kept_user hM
      (show 0xD0001000 < 2 ^ 32 by norm_num) 4096).total trivial
    refine ⟨m₁, m₂, m₃, hinit, hmap, hmark, by decide, fun h => hentered.closed habs h.2, ?_⟩
    refine (hmarks.accessible_iff (by norm_num)).mpr ⟨hentered.present_page, Or.inr ?_, Or.inl ?_⟩
    · exact ⟨0xD0001, (mem_markedPages (by norm_num)).mpr (by norm_num), by norm_num⟩
    · rw [hentered.pte, pteOf_user]
      decide
  · obtain ⟨m₁, m₂, hinit, hmap, habs, hentered, hM⟩ := fresh_mapping
      (show 0xFFFFF000 < 2 ^ 32 by norm_num) (by norm_num) (show 0x345000 < 2 ^ 32 by norm_num) 0
    obtain ⟨m₃, hmark, hmarks⟩ := (vmmMarkUserRange_marks kept_spec kept_user hM
      (show 0xFFFFF000 < 2 ^ 32 by norm_num) 4096).total trivial
    refine ⟨m₁, m₂, m₃, hinit, hmap, hmark, by decide, hentered.present_page, ?_⟩
    rw [hmarks.accessible_iff (by norm_num), hentered.pte, pteOf_user,
      markedPages_wrapped (by norm_num) (by norm_num)]
    rintro ⟨-, -, hu | hu⟩
    · exact absurd hu (by decide)
    · exact absurd hu (Set.notMem_empty _)

end JarvOs.Memory
