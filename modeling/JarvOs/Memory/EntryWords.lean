/-
# What the calls of `vmm.c` leave in the entries

`VmmSpec` says which WALKS a call changes.  Access rights and the software lookup look closer: at the
user and writable bits of both levels, and at entries that are not present at all.  This module says
what `vmm_map_page`, `vmm_unmap_page` and `vmm_mark_user_range` do to the two words the current
directory has for an address (`pdeAt`, `pteAt`).

Everything rests on two facts about the tables of one directory: none of them is the directory, and no
two directory entries share one (`VmInv.dir_ne_target`, `VmInv.table_inj`).  So a store to an entry is seen
at one page, and a store to a directory entry in one region of 4 MB.
-/
import JarvOs.Memory.AddressSpaces
import JarvOs.Syscall.Write

namespace JarvOs.Memory

open JarvOs.Lib
open JarvOs.Syscall (user pdeAt pteAt)

variable {L : Layout} {T : Prop} {Low : Nat → Nat → Prop} {m m' : Machine} {spaces : List Nat}

/-! ## 1. The tables of one directory -/

section Tables

variable {W : Tables} {free : Finset Nat} {d t : Nat} {i i' : Fin 1024}

/-- Two entries of a directory do not share a table. -/
theorem VmInv.table_inj (h : VmInv L Low W free spaces) (hd : d ∈ L.kpd :: spaces)
    (hp : present (W d i)) (hp' : present (W d i')) (heq : pfn (W d i) = pfn (W d i')) : i = i' := by
  by_cases hi : (i : Nat) < 20 <;> by_cases hi' : (i' : Nat) < 20
  · rw [(h.lowPde d hd i hi).2.2, (h.lowPde d hd i' hi').2.2] at heq
    exact Fin.ext (by omega)
  · rw [(h.lowPde d hd i hi).2.2] at heq
    exact absurd (heq ▸ kpt_static L hi) (h.table d hd i' (by omega) hp').2.2.2.1
  · rw [(h.lowPde d hd i' hi').2.2] at heq
    exact absurd (heq ▸ kpt_static L hi') (h.table d hd i (by omega) hp).2.2.2.1
  · exact (h.inj d hd d hd i i' (by omega) (by omega) hp hp' heq).2

end Tables

/-! ## 2. One store -/

/-- **A store to a table entry** changes the entry of one page, and no directory entry. -/
theorem setPte_words (hM : MachInv L Low m spaces) {i : Fin 1024}
    (hp : present (tables m.mem m.dir i)) (j : Fin 1024) {e : Nat} (he : e < 2 ^ 32)
    (hm' : m' = { m with mem := setWord m.mem (4096 * pfn (tables m.mem m.dir i) + 4 * j) e }) :
    (∀ w, pdeAt m' w = pdeAt m w) ∧ ∀ w, present (pdeAt m w) →
      pteAt m' w = if dirIdx w = i ∧ tabIdx w = j then e else pteAt m w := by
  have htab : tables m'.mem = (tables m.mem).set (pfn (tables m.mem m.dir i)) j e := by
    rw [hm']
    exact tables_setWord _ _ _ he
  have hdir : m'.dir = m.dir := by rw [hm', Machine.dir, Machine.dir]
  have hpde : ∀ w, pdeAt m' w = pdeAt m w := by
    intro w
    rw [pdeAt, htab, hdir, set_page_ne (hM.vm.dir_ne_target hM.dir hp hM.dir)]
    rfl
  refine ⟨hpde, ?_⟩
  intro w hw
  rw [pteAt, hpde, htab]
  by_cases hs : dirIdx w = i ∧ tabIdx w = j
  · obtain ⟨rfl, rfl⟩ := hs
    rw [if_pos ⟨rfl, rfl⟩]
    exact set_same _ _ _ _
  · rw [if_neg hs, set_other]
    · rfl
    · rintro ⟨heq, hj⟩
      exact hs ⟨hM.vm.table_inj hM.dir hw hp heq, hj⟩

/-- **A store to the flags of a directory entry** is seen in one region, and in no table. -/
theorem setPde_words (hM : MachInv L Low m spaces) {i : Fin 1024} {e : Nat} (he : e < 2 ^ 32)
    (hpfn : pfn e = pfn (tables m.mem m.dir i))
    (hm' : m' = { m with mem := setWord m.mem (4096 * m.dir + 4 * i) e }) :
    (∀ w, pdeAt m' w = if dirIdx w = i then e else pdeAt m w) ∧
      ∀ w, present (pdeAt m w) → pteAt m' w = pteAt m w := by
  have htab : tables m'.mem = (tables m.mem).set m.dir i e := by
    rw [hm']
    exact tables_setWord _ _ _ he
  have hdir : m'.dir = m.dir := by rw [hm', Machine.dir, Machine.dir]
  have hpde : ∀ w, pdeAt m' w = if dirIdx w = i then e else pdeAt m w := by
    intro w
    rw [pdeAt, htab, hdir]
    by_cases hw : dirIdx w = i
    · rw [if_pos hw, hw, set_same]
    · rw [if_neg hw, set_other (fun hh => hw hh.2)]
      rfl
  refine ⟨hpde, ?_⟩
  intro w hw
  have hsame : pfn (pdeAt m' w) = pfn (pdeAt m w) := by
    rw [hpde]
    split
    · rename_i hwi
      rw [hpfn, pdeAt, hwi]
    · rfl
  have hne : pfn (pdeAt m w) ≠ m.dir := (hM.vm.dir_ne_target hM.dir hw hM.dir).symm
  rw [pteAt, hsame, htab, set_page_ne hne]
  rfl

/-! ## 3. `vmm_map_page` and `vmm_unmap_page` -/

/-- The words of `m'` after `e` has been entered for `v`: through the table there was, or through a new
one that is empty otherwise. -/
structure Entered (m m' : Machine) (v e : Nat) : Prop where
  dir : m'.dir = m.dir
  pde : (present (pdeAt m v) ∧ pdeAt m' v = pdeAt m v) ∨
    (¬ present (pdeAt m v) ∧ ∃ t, pdeAt m' v = pdeOf t)
  pte : pteAt m' v = e
  rest : ∀ w < 2 ^ 32, w / 4096 ≠ v / 4096 → present (pdeAt m' w) →
    pteAt m' w = 0 ∨ (present (pdeAt m w) ∧ pteAt m' w = pteAt m w)

/-- A store through a present directory entry. -/
theorem entered_of_store (hM : MachInv L Low m spaces) {v e : Nat} (hv : v < 2 ^ 32) (he : e < 2 ^ 32)
    (hp : present (pdeAt m v))
    (hm' : m' = { m with mem := setWord m.mem (4096 * pfn (pdeAt m v) + 4 * (tabIdx v : Nat)) e }) :
    Entered m m' v e := by
  obtain ⟨hpde, hpte⟩ := setPte_words hM hp (tabIdx v) he hm'
  refine ⟨by rw [hm', Machine.dir, Machine.dir], Or.inl ⟨hp, hpde v⟩, ?_, ?_⟩
  · rw [hpte v hp, if_pos ⟨rfl, rfl⟩]
  · intro w hw hne hpw
    rw [hpde] at hpw
    refine Or.inr ⟨hpw, ?_⟩
    rw [hpte w hpw, if_neg]
    exact fun hidx => hne ((idx_eq_iff hw hv).mp hidx)

/-- The words after a fresh table has been hooked in. -/
theorem hook_words (hM : MachInv L Low m spaces) {i : Fin 1024} {t : Nat}
    (ht : t ∈ freeFrames m.bitmap) (hcr3 : m'.cr3 = m.cr3)
    (htab : tables m'.mem = hookTables (tables m.mem) m.dir i t) :
    (∀ w, pdeAt m' w = if dirIdx w = i then pdeOf t else pdeAt m w) ∧
      (∀ w, dirIdx w = i → pteAt m' w = 0) ∧
      ∀ w, dirIdx w ≠ i → present (pdeAt m w) → pteAt m' w = pteAt m w := by
  have hnot := hM.vm.not_inUse_of_free ht
  have hdt : m.dir ≠ t := fun h => hnot (h ▸ inUse_dir hM.dir)
  have hdir : m'.dir = m.dir := by rw [Machine.dir, hcr3, Machine.dir]
  have hpde : ∀ w, pdeAt m' w = if dirIdx w = i then pdeOf t else pdeAt m w := by
    intro w
    rw [pdeAt, htab, hdir, hookTables]
    by_cases hw : dirIdx w = i
    · rw [if_pos hw, hw, set_same]
    · rw [if_neg hw, set_other (fun hh => hw hh.2), if_neg hdt]
      rfl
  refine ⟨hpde, ?_, ?_⟩
  · intro w hw
    rw [pteAt, hpde, if_pos hw, pdeOf_pfn, htab, hookTables, set_page_ne hdt.symm, if_pos rfl]
  · intro w hw hpw
    have hne : pfn (pdeAt m w) ≠ m.dir := (hM.vm.dir_ne_target hM.dir hpw hM.dir).symm
    have hnt : pfn (pdeAt m w) ≠ t := fun h => hnot (h ▸ hM.vm.inUse_table hM.dir hpw)
    rw [pteAt, hpde, if_neg hw, htab, hookTables, set_page_ne hne, if_neg hnt]
    rfl

/-- Entering a page in a table that has just been hooked in. -/
theorem entered_of_hook {m₁ : Machine} {v e t : Nat} (hM : MachInv L Low m spaces)
    (hp : ¬ present (pdeAt m v)) (ht : t ∈ freeFrames m.bitmap) (hcr3 : m₁.cr3 = m.cr3)
    (htab : tables m₁.mem = hookTables (tables m.mem) m.dir (dirIdx v) t) (h : Entered m₁ m' v e) :
    Entered m m' v e := by
  obtain ⟨hpde, hzero, hpte⟩ := hook_words hM ht hcr3 htab
  have hnow : pdeAt m₁ v = pdeOf t := by rw [hpde, if_pos rfl]
  refine ⟨h.dir.trans (by rw [Machine.dir, hcr3, Machine.dir]), Or.inr ⟨hp, t, ?_⟩, h.pte, ?_⟩
  · rcases h.pde with ⟨-, hsame⟩ | ⟨hnp, -⟩
    · rw [hsame, hnow]
    · exact absurd (hnow ▸ pdeOf_present t) hnp
  · intro w hw hne hpw
    rcases h.rest w hw hne hpw with h0 | ⟨hp₁, hsame⟩
    · exact Or.inl h0
    · by_cases hi : dirIdx w = dirIdx v
      · rw [hsame, hzero w hi]
        exact Or.inl rfl
      · rw [hpde, if_neg hi] at hp₁
        exact Or.inr ⟨hp₁, hsame.trans (hpte w hi hp₁)⟩

/-- **`vmm_map_page`, word by word**: the entry is made, or nothing is. -/
theorem vmmMapPage_words (hS : LowSpec T Low) (hM : MachInv L Low m spaces) {v p : Nat}
    (hv : v < 2 ^ 32) (hp32 : p < 2 ^ 32) (flags : Nat) :
    Ensures T (vmmMapPage m v p flags) (fun r =>
      r = (-1, m) ∨ (r.1 = 0 ∧ Entered m r.2 v (pteOf p flags))) := by
  unfold vmmMapPage
  simp only [shift_dirIdx hv, shift_tabIdx, Option.bind_eq_bind]
  by_cases hp : present (pdeAt m v)
  · refine (vmmEnsureTable_spec hS hM (dirIdx v)).bind ?_
    rintro ⟨r, m₁⟩ ⟨-, -, hsame, hcase⟩
    obtain rfl : m₁ = m := hsame hp
    simp only at hcase
    rcases hcase with ⟨-, -, -, hnp⟩ | ⟨rfl, -⟩
    · exact absurd hp hnp
    · refine (store_entry hS hM hp (tabIdx v) _).bind ?_
      rintro _ rfl
      exact .ret (Or.inr ⟨rfl, entered_of_store hM hv (pteOf_lt hp32 flags) hp rfl⟩)
  · rcases allocPage_spec m with ⟨-, hempty⟩ | ⟨t, ht, bm, halloc, hbm⟩
    · refine (vmmEnsureTable_out hS hM hp hempty).bind ?_
      rintro _ rfl
      exact .ret (Or.inl rfl)
    · refine ((vmmEnsureTable_spec hS hM (dirIdx v)).and
        (vmmEnsureTable_fresh hS hM hp ht halloc hbm)).bind ?_
      rintro ⟨r, m₁⟩ ⟨⟨hstep, -⟩, mem, heq, htab⟩
      obtain ⟨rfl, hm₁⟩ := Prod.mk.inj heq
      have htab₁ : tables m₁.mem = hookTables (tables m.mem) m.dir (dirIdx v) t := by
        rw [hm₁]
        exact htab
      have hnow : pdeAt m₁ v = pdeOf t :=
        ((hook_words hM ht hstep.cr3 htab₁).1 v).trans (if_pos rfl)
      have hp₁ : present (pdeAt m₁ v) := hnow ▸ pdeOf_present t
      have hstore := store_entry hS hstep.inv hp₁ (tabIdx v) (pteOf p flags)
      rw [show tables m₁.mem m₁.dir (dirIdx v) = pdeOf t from hnow] at hstore
      refine hstore.bind ?_
      rintro _ rfl
      refine .ret (Or.inr ⟨rfl, entered_of_hook hM hp ht hstep.cr3 htab₁
        (entered_of_store hstep.inv hv (pteOf_lt hp32 flags) hp₁ ?_)⟩)
      rw [hnow]

/-- **`vmm_unmap_page`, word by word**: an empty entry, or nothing where there is no table. -/
theorem vmmUnmapPage_words (hS : LowSpec T Low) (hM : MachInv L Low m spaces) {v : Nat}
    (hv : v < 2 ^ 32) :
    Ensures T (vmmUnmapPage m v) (fun m' => m' = m ∨ Entered m m' v 0) := by
  simp only [vmmUnmapPage, shift_dirIdx hv, shift_tabIdx, Option.bind_eq_bind]
  refine (load32_dir hS hM (dirIdx v)).bind ?_
  rintro _ rfl
  by_cases hp : present (tables m.mem m.dir (dirIdx v))
  · rw [if_neg hp]
    refine (store_entry hS hM hp (tabIdx v) 0).mono ?_
    rintro _ rfl
    exact Or.inr (entered_of_store hM hv (by norm_num) hp rfl)
  · rw [if_pos (not_not.mp hp)]
    exact .ret (Or.inl rfl)

/-- **`vmm_get_physical_address`** returns the frame of the table entry, present or not. -/
theorem vmmGetPhysicalAddress_spec (hS : LowSpec T Low) (hM : MachInv L Low m spaces) {v : Nat}
    (hv : v < 2 ^ 32) :
    Ensures T (vmmGetPhysicalAddress m v)
      (· = if present (pdeAt m v) then 4096 * pfn (pteAt m v) else 0) := by
  simp only [vmmGetPhysicalAddress, shift_dirIdx hv, shift_tabIdx, Option.bind_eq_bind]
  refine (load32_dir hS hM (dirIdx v)).bind ?_
  rintro _ rfl
  by_cases hp : present (tables m.mem m.dir (dirIdx v))
  · rw [if_neg hp, if_pos (show present (pdeAt m v) from hp), and_frame_mask (tables_lt _ _ _)]
    have hlow := hM.vm.inUse_low (hM.vm.inUse_table hM.dir hp)
    refine (load32_low hS hM hlow (tabIdx v)).bind ?_
    rintro _ rfl
    exact .ret (and_frame_mask (tables_lt _ _ _))
  · rw [if_pos (not_not.mp hp), if_neg (show ¬ present (pdeAt m v) from hp)]
    exact .ret rfl

/-! ## 4. `vmm_mark_user_range` -/

theorem user_iff (e : Nat) : user e ↔ e.testBit 2 = true := and_two_pow_ne_zero e 2

theorem user_or (e r : Nat) : user (e ||| r) ↔ user e ∨ user r := by
  simp only [user_iff, Nat.testBit_or, Bool.or_eq_true]

/-- The entry `e'` is `e` with the user bit set if `u`. -/
structure Flagged (u : Prop) (e e' : Nat) : Prop where
  present : present e' ↔ present e
  pfn : pfn e' = pfn e
  user : user e' ↔ user e ∨ u

theorem Flagged.unmarked {u : Prop} (hu : ¬ u) (e : Nat) : Flagged u e e :=
  ⟨Iff.rfl, rfl, by simp [hu]⟩

theorem Flagged.marked {u : Prop} (hu : u) (e : Nat) : Flagged u e (e ||| pageUser) := by
  refine ⟨?_, pfn_or _ (by norm_num), ?_⟩
  · simp [present_or, show ¬ Lib.present pageUser by decide]
  · simp [user_or, show Syscall.user pageUser by decide, hu]

theorem Flagged.trans {u u' : Prop} {e e' e'' : Nat} (h : Flagged u e e') (h' : Flagged u' e' e'') :
    Flagged (u ∨ u') e e'' :=
  ⟨h'.present.trans h.present, h'.pfn.trans h.pfn, by rw [h'.user, h.user, or_assoc]⟩

theorem Flagged.congr {u u' : Prop} {e e' : Nat} (h : Flagged u e e') (hu : u ↔ u') :
    Flagged u' e e' := ⟨h.present, h.pfn, by rw [h.user, hu]⟩

/-- Some page of `S` lies in the 4 MB region of `w`. -/
def Touches (S : Set Nat) (w : Nat) : Prop := ∃ q ∈ S, q / 1024 = w / 2 ^ 22

/-- **The pages of `S` have been marked**: where the directory has a table for them, the directory entry
of their region and their own entry have got the user bit, and nothing else has changed. -/
structure Marks (S : Set Nat) (m m' : Machine) : Prop where
  dir : m'.dir = m.dir
  pde : ∀ w < 2 ^ 32, Flagged (present (pdeAt m w) ∧ Touches S w) (pdeAt m w) (pdeAt m' w)
  pte : ∀ w < 2 ^ 32, present (pdeAt m w) → Flagged (w / 4096 ∈ S) (pteAt m w) (pteAt m' w)

theorem Marks.none (m : Machine) : Marks ∅ m m where
  dir := rfl
  pde w _ := .unmarked (fun h => by simp [Touches] at h) _
  pte w _ _ := .unmarked (Set.notMem_empty _) _

/-- Marking some pages and then others. -/
theorem Marks.trans {S S' : Set Nat} {m'' : Machine} (h : Marks S m m') (h' : Marks S' m' m'') :
    Marks (S ∪ S') m m'' where
  dir := h'.dir.trans h.dir
  pde w hw := by
    refine ((h.pde w hw).trans (h'.pde w hw)).congr ?_
    simp only [(h.pde w hw).present, Touches, Set.mem_union, or_and_right, exists_or, and_or_left]
  pte w hw hp := by
    have hp' : present (pdeAt m' w) := (h.pde w hw).present.mpr hp
    exact ((h.pte w hw hp).trans (h'.pte w hw hp')).congr Iff.rfl

theorem dirIdx_eq_iff {v w : Nat} (hv : v < 2 ^ 32) (hw : w < 2 ^ 32) :
    dirIdx w = dirIdx v ↔ v / 4096 / 1024 = w / 2 ^ 22 := by
  rw [Fin.ext_iff, dirIdx_val hv, dirIdx_val hw]
  omega

/-- **One round marks one page.** -/
theorem markUserPage_marks (hS : LowSpec T Low) (hM : MachInv L Low m spaces) {addr : Nat}
    (haddr : addr < 2 ^ 32) :
    Ensures T (markUserPage m m.cr3 addr) (fun m' => Marks {addr / 4096} m m') := by
  refine (markUserPage_run hS hM haddr).mono ?_
  have htouch : ∀ w < 2 ^ 32, Touches {addr / 4096} w ↔ dirIdx w = dirIdx addr := by
    intro w hw
    simp only [Touches, Set.mem_singleton_iff, exists_eq_left, dirIdx_eq_iff haddr hw]
  rintro m' (⟨hnp, rfl⟩ | ⟨hp, m₁, hstep, hm₁, hp₁, hm'⟩)
  · refine ⟨rfl, fun w hw => .unmarked ?_ _, fun w hw hpw => .unmarked ?_ _⟩
    · rintro ⟨hpw, ht⟩
      rw [pdeAt, (htouch w hw).mp ht] at hpw
      exact hnp hpw
    · intro hin
      have hidx := ((idx_eq_iff hw haddr).mpr hin).1
      rw [pdeAt, hidx] at hpw
      exact hnp hpw
  · obtain ⟨hpde₁, hpte₁⟩ := setPde_words hM (or_user_lt (tables_lt _ _ _)) (pfn_or _ (by norm_num)) hm₁
    obtain ⟨hpde₂, hpte₂⟩ := setPte_words hstep.inv hp₁ (tabIdx addr) (or_user_lt (tables_lt _ _ _)) hm'
    refine ⟨by rw [← hstep.dir, hm', Machine.dir, Machine.dir], fun w hw => ?_, fun w hw hpw => ?_⟩
    · rw [hpde₂, hpde₁]
      split
      · rename_i hi
        rw [← hi]
        refine .marked ⟨?_, (htouch w hw).mpr hi⟩ _
        rw [pdeAt, hi]
        exact hp
      · rename_i hi
        exact .unmarked (fun h => hi ((htouch w hw).mp h.2)) _
    · have hpw₁ : present (pdeAt m₁ w) := by
        rw [hpde₁]
        split
        · exact (present_or _ _).mpr (Or.inl hp)
        · exact hpw
      have hsame := hpte₁ w hpw
      rw [hpte₂ w hpw₁]
      split
      · rename_i hidx
        rw [← hidx.1, ← hidx.2, show tables m₁.mem (pfn (tables m₁.mem m₁.dir (dirIdx w))) (tabIdx w) =
          pteAt m w from hsame]
        exact .marked ((idx_eq_iff hw haddr).mp hidx) _
      · rename_i hidx
        rw [hsame]
        exact .unmarked (fun hin => hidx ((idx_eq_iff hw haddr).mpr hin)) _

/-- The pages `vmm_mark_user_range` walks over: both ends rounded to pages, the end in 32 bits. -/
def markedPages (start len : Nat) : Set Nat :=
  Set.Ico (start / 4096) (add32 (add32 start len) 0xFFF / 4096)

/-- **`vmm_mark_user_range` marks its pages**, and comes to an end. -/
theorem vmmMarkUserRange_marks (hS : LowSpec T Low)
    (huser : ∀ {n e : Nat}, Low n e → Low n (e ||| pageUser)) (hM : MachInv L Low m spaces)
    {start : Nat} (hstart : start < 2 ^ 32) (len : Nat) :
    Ensures T (vmmMarkUserRange m start len) (fun m' => Marks (markedPages start len) m m') := by
  have hend := add32_lt (add32 start len) 0xFFF
  unfold vmmMarkUserRange vmmGetCurrentDirectory markedPages
  simp only [and_page_mask hstart, and_page_mask hend]
  generalize add32 (add32 start len) 0xFFF = stop at hend ⊢
  have hround : ∀ (m₁ : Machine) (a : Nat), a < stop / 4096 * 4096 →
      (VmStep L Low m spaces m₁ spaces ∧ start / 4096 ≤ a / 4096 ∧
        Marks (Set.Ico (start / 4096) (a / 4096)) m m₁) →
      Ensures T (markUserPage m₁ m.cr3 a) (fun m' => VmStep L Low m spaces m' spaces ∧
        start / 4096 ≤ (a + 0x1000) / 4096 ∧
        Marks (Set.Ico (start / 4096) ((a + 0x1000) / 4096)) m m') := by
    rintro m₁ a hlt ⟨hstep, hle, hmarks⟩
    rw [← hstep.cr3]
    refine ((markUserPage_spec hS huser hstep.inv (by omega)).and
      (markUserPage_marks hS hstep.inv (by omega))).mono ?_
    rintro m' ⟨hstep', hmarks'⟩
    have hgrow : Set.Ico (start / 4096) (a / 4096) ∪ {a / 4096} =
        Set.Ico (start / 4096) ((a + 0x1000) / 4096) := by
      ext q
      simp only [Set.mem_union, Set.mem_Ico, Set.mem_singleton_iff]
      omega
    refine ⟨hstep.trans hstep', by omega, ?_⟩
    rw [← hgrow]
    exact hmarks.trans hmarks'
  have hfirst : Set.Ico (start / 4096) (start / 4096 * 4096 / 4096) = ∅ := by
    rw [Nat.mul_div_cancel _ (by norm_num), Set.Ico_self]
  refine (markUserPages_rule (by omega) (Nat.dvd_mul_left _ _) hround (2 ^ 20 + 1) m _
    (Nat.dvd_mul_left _ _) (by omega)
    ⟨VmStep.refl hM, by omega, by rw [hfirst]; exact Marks.none m⟩).mono ?_
  rintro m' ⟨-, -, hmarks⟩
  have hlast : Set.Ico (start / 4096) (max (start / 4096 * 4096) (stop / 4096 * 4096) / 4096) =
      Set.Ico (start / 4096) (stop / 4096) := by
    ext q
    simp only [Set.mem_Ico]
    omega
  rwa [hlast] at hmarks

end JarvOs.Memory
