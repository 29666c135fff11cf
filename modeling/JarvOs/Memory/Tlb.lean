/-
# The translation buffer (`invlpg` and the loads of CR3 in `kernel/memory/vmm.c`)

The processor does not walk the tables for every access.  It keeps what it has found in its translation
buffer, takes in what it likes, drops what it likes, and never looks whether the tables have changed:
whoever changes them has to say so.  A load of CR3 empties the buffer, `invlpg` drops one page.

The rest of this development walks the tables for every access.  `tlb_coherent` is why it may.  Over every
run of calls and of the processor's own moves, what the buffer holds for a page is what the tables hold:
the same frame, the same right to write, and no access for ring 3 that the tables do not give.  The last
is not an equality.  `vmm_mark_user_range` sets the user bit in a directory entry and drops the pages of
its range only, so another page of those 4 MB can be open in the tables and still closed in the buffer.
-/
import JarvOs.Lib.Cache
import JarvOs.Memory.Rights

namespace JarvOs.Memory

open JarvOs.Lib
open JarvOs.Syscall (user pdeAt pteAt)

/-! ## 1. The buffer -/

/-- What the walk of a page ends with. -/
structure Grant where
  frame : Nat
  writable : Bool
  user : Bool
deriving DecidableEq, Repr

/-- The walk of page `q`. -/
def grant (m : Machine) (q : Nat) : Option Grant :=
  let pde := pdeAt m (4096 * q)
  let pte := pteAt m (4096 * q)
  if q < 2 ^ 20 ∧ present pde ∧ present pte then
    some ⟨pfn pte, writable pde && writable pte, user pde && user pte⟩
  else none

/-- The same page, and no more for ring 3. -/
structure Grant.Le (g g' : Grant) : Prop where
  frame : g.frame = g'.frame
  writable : g.writable = g'.writable
  user : g.user = true → g'.user = true

abbrev Tlb := Nat → Option Grant

/-- The machine with its buffer. -/
structure Buffered where
  vm : VmState
  tlb : Tlb

/-- A call of `vmm.c` or `pmm.c`, `vmm_flush_tlb`, or the processor takes a page in or drops one. -/
inductive TlbOp
  | call (op : VmOp)
  | flushTlb
  | fill (q : Nat)
  | evict (q : Nat)

/-- The `invlpg` at the end of `vmm_map_page`. -/
def mapInvalidates (m : Machine) (va p flags : Nat) (tlb : Tlb) : Tlb :=
  if (vmmMapPage m va p flags).map Prod.fst = some 0 then Function.update tlb (va / 4096) none else tlb

/-- The buffer after a call on `m`. -/
def invalidate (m : Machine) (tlb : Tlb) : VmOp → Tlb
  | .switchDirectory _ => fun _ => none
  | .mapPage va p flags => mapInvalidates m va p flags tlb
  | .unmapPage va =>
    match m.load32 (add32 (vmmGetCurrentDirectory m) (4 * (va >>> 22))) with
    | some pde => if pde &&& pagePresent = 0 then tlb else Function.update tlb (va / 4096) none
    | none => tlb
  | .allocMapPage va flags =>
    match m.allocPage with
    | some (physAddr, m) => if physAddr = 0 then tlb else mapInvalidates m va physAddr flags tlb
    | none => tlb
  | .markUserRange start len => fun q =>
    -- a page whose directory entry is not present is skipped
    if start / 4096 ≤ q ∧ q < add32 (add32 start len) 0xFFF / 4096 ∧ present (pdeAt m (4096 * q)) then none
    else tlb q
  | .createAddressSpace => tlb
  | .allocPage => tlb
  | .freePage _ => tlb

def tlbStep (L : Layout) (s : Buffered) : TlbOp → Option Buffered
  | .call op => (vmStep L s.vm op).map (fun vm => ⟨vm, invalidate s.vm.mach s.tlb op⟩)
  | .flushTlb => some { s with tlb := fun _ => none }
  | .fill q => (grant s.vm.mach q).map (fun g => { s with tlb := Function.update s.tlb q (some g) })
  | .evict q => some { s with tlb := Function.update s.tlb q none }

/-- Calls are legal, and the processor does what it likes. -/
def TlbLegal (L : Layout) (s : Buffered) : TlbOp → Prop
  | .call op => VmLegal L s.vm op
  | _ => True

/-! ## 2. Changes of the tables -/

variable {L : Layout} {T : Prop} {Low : Nat → Nat → Prop} {m m' m'' : Machine} {spaces : List Nat}
  {q v : Nat} {g : Grant} {tlb : Tlb}

theorem Grant.Le.refl (g : Grant) : g.Le g := ⟨rfl, rfl, id⟩

theorem Grant.Le.trans {g g' g'' : Grant} (h : g.Le g') (h' : g'.Le g'') : g.Le g'' :=
  ⟨h.frame.trans h'.frame, h.writable.trans h'.writable, fun hu => h'.user (h.user hu)⟩

theorem grant_eq_some : grant m q = some g ↔ q < 2 ^ 20 ∧ present (pdeAt m (4096 * q)) ∧
    present (pteAt m (4096 * q)) ∧ g = ⟨pfn (pteAt m (4096 * q)),
      writable (pdeAt m (4096 * q)) && writable (pteAt m (4096 * q)),
      user (pdeAt m (4096 * q)) && user (pteAt m (4096 * q))⟩ := by
  simp only [grant, Option.ite_none_right_eq_some, Option.some.injEq, and_assoc]
  rw [eq_comm (a := g)]

/-- A table entry is replaced: what was mapped elsewhere is mapped as it was. -/
def KeepsOthers (m m' : Machine) (v : Nat) : Prop :=
  ∀ w < 2 ^ 32, w / 4096 ≠ v / 4096 → present (pdeAt m w) → pdeAt m' w = pdeAt m w ∧ pteAt m' w = pteAt m w

theorem KeepsOthers.grant (h : KeepsOthers m m' v) (hq : q ≠ v / 4096) (hg : grant m q = some g) :
    Memory.grant m' q = some g := by
  obtain ⟨hlt, hpde, hpte, rfl⟩ := grant_eq_some.mp hg
  obtain ⟨hpde', hpte'⟩ := h (4096 * q) (by omega) (by omega) hpde
  rw [grant_eq_some, hpde', hpte']
  exact ⟨hlt, hpde, hpte, rfl⟩

theorem keepsOthers_store (hM : MachInv L Low m spaces) {e : Nat} (hv : v < 2 ^ 32) (he : e < 2 ^ 32)
    (hp : present (pdeAt m v))
    (hm' : m' = { m with mem := setWord m.mem (4096 * pfn (pdeAt m v) + 4 * (tabIdx v : Nat)) e }) :
    KeepsOthers m m' v := by
  obtain ⟨hpde, hpte⟩ := setPte_words hM hp (tabIdx v) he hm'
  intro w hw hne hpw
  refine ⟨hpde w, ?_⟩
  rw [hpte w hpw, if_neg (fun hidx => hne ((idx_eq_iff hw hv).mp hidx))]

/-- A new table is for a region that had none. -/
theorem keepsOthers_hook {t : Nat} (hM : MachInv L Low m spaces) (hp : ¬ present (pdeAt m v))
    (ht : t ∈ freeFrames m.bitmap) (hcr3 : m'.cr3 = m.cr3)
    (htab : tables m'.mem = hookTables (tables m.mem) m.dir (dirIdx v) t) (h : KeepsOthers m' m'' v) :
    KeepsOthers m m'' v := by
  obtain ⟨hpde, -, hpte⟩ := hook_words hM ht hcr3 htab
  intro w hw hne hpw
  have hi : dirIdx w ≠ dirIdx v := fun hi => hp (by rwa [pdeAt, hi] at hpw)
  have hsame : pdeAt m' w = pdeAt m w := by rw [hpde, if_neg hi]
  obtain ⟨hpde', hpte'⟩ := h w hw hne (hsame ▸ hpw)
  exact ⟨hpde'.trans hsame, hpte'.trans (hpte w hi hpw)⟩

/-- **`vmm_map_page`** changes the page it flushes, and if it fails none. -/
theorem vmmMapPage_keeps (hS : LowSpec T Low) (hM : MachInv L Low m spaces) {v p : Nat}
    (hv : v < 2 ^ 32) (hp32 : p < 2 ^ 32) (flags : Nat) :
    Ensures T (vmmMapPage m v p flags) (fun r => r = (-1, m) ∨ (r.1 = 0 ∧ KeepsOthers m r.2 v)) := by
  unfold vmmMapPage
  simp only [shift_dirIdx hv, shift_tabIdx, Option.bind_eq_bind]
  by_cases hp : present (pdeAt m v)
  · refine (vmmEnsureTable_spec hS hM (dirIdx v)).bind ?_
    rintro ⟨r, m₁⟩ ⟨-, -, hsame, hcase⟩
    obtain rfl : m₁ = m := hsame hp
    simp only at hcase
    rcases hcase with ⟨-, -, -, hnp⟩ | ⟨rfl, -⟩
    · exact absurd hp hnp
    · refine (store_entry hS hM hp (tabIdx v) _).bind ?_
      rintro _ rfl
      exact .ret (Or.inr ⟨rfl, keepsOthers_store hM hv (pteOf_lt hp32 flags) hp rfl⟩)
  · rcases allocPage_spec m with ⟨-, hempty⟩ | ⟨t, ht, bm, halloc, hbm⟩
    · refine (vmmEnsureTable_out hS hM hp hempty).bind ?_
      rintro _ rfl
      exact .ret (Or.inl rfl)
    · refine ((vmmEnsureTable_spec hS hM (dirIdx v)).and
        (vmmEnsureTable_fresh hS hM hp ht halloc hbm)).bind ?_
      rintro ⟨r, m₁⟩ ⟨⟨hstep, -⟩, mem, heq, htab⟩
      obtain ⟨rfl, hm₁⟩ := Prod.mk.inj heq
      have htab₁ : tables m₁.mem = hookTables (tables m.mem) m.dir (dirIdx v) t := by
        rw [hm₁]
        exact htab
      have hnow : pdeAt m₁ v = pdeOf t := ((hook_words hM ht hstep.cr3 htab₁).1 v).trans (if_pos rfl)
      have hp₁ : present (pdeAt m₁ v) := hnow ▸ pdeOf_present t
      have hstore := store_entry hS hstep.inv hp₁ (tabIdx v) (pteOf p flags)
      rw [show tables m₁.mem m₁.dir (dirIdx v) = pdeOf t from hnow] at hstore
      refine hstore.bind ?_
      rintro _ rfl
      refine .ret (Or.inr ⟨rfl, keepsOthers_hook hM hp ht hstep.cr3 htab₁
        (keepsOthers_store hstep.inv hv (pteOf_lt hp32 flags) hp₁ ?_)⟩)
      rw [hnow]

/-- **`vmm_unmap_page`** changes the page it flushes, and without a table none. -/
theorem vmmUnmapPage_keeps (hS : LowSpec T Low) (hM : MachInv L Low m spaces) (hv : v < 2 ^ 32)
    (h : vmmUnmapPage m v = some m') : ∃ pde,
      m.load32 (add32 (vmmGetCurrentDirectory m) (4 * (v >>> 22))) = some pde ∧
      (if pde &&& pagePresent = 0 then m' = m else KeepsOthers m m' v) := by
  simp only [vmmUnmapPage, shift_dirIdx hv, shift_tabIdx, Option.bind_eq_bind] at h ⊢
  obtain ⟨pde, hload, hrest⟩ := Option.bind_eq_some_iff.mp h
  obtain rfl := (load32_dir hS hM (dirIdx v)).1 pde hload
  refine ⟨_, hload, ?_⟩
  by_cases hp : present (tables m.mem m.dir (dirIdx v))
  · rw [if_neg hp] at hrest ⊢
    exact keepsOthers_store hM hv (by norm_num) hp ((store_entry hS hM hp (tabIdx v) 0).1 _ hrest)
  · rw [if_pos (not_not.mp hp)] at hrest ⊢
    exact (Option.some.inj hrest).symm

/-- The user bit, set or not. -/
def Grows (e e' : Nat) : Prop := e' = e ∨ e' = e ||| pageUser

theorem Grows.trans {e e' e'' : Nat} (h : Grows e e') (h' : Grows e' e'') : Grows e e'' := by
  rcases h with rfl | rfl
  · exact h'
  · rcases h' with rfl | rfl
    · exact Or.inr rfl
    · refine Or.inr ?_
      rw [Nat.or_assoc, Nat.or_self]

theorem Grows.spec {e e' : Nat} (h : Grows e e') :
    (present e → present e') ∧ pfn e' = pfn e ∧ (writable e' ↔ writable e) ∧ (user e → user e') := by
  rcases h with rfl | rfl
  · exact ⟨id, rfl, Iff.rfl, id⟩
  · refine ⟨fun h => (present_or _ _).mpr (Or.inl h), pfn_or _ (by norm_num), ?_,
      fun h => (user_or _ _).mpr (Or.inl h)⟩
    rw [writable_or]
    exact or_iff_left (by decide)

/-- Nothing but user bits is set in the entries of the directory. -/
def GrowsOnly (m m' : Machine) : Prop :=
  ∀ w < 2 ^ 32, present (pdeAt m w) → Grows (pdeAt m w) (pdeAt m' w) ∧ Grows (pteAt m w) (pteAt m' w)

theorem GrowsOnly.trans (h : GrowsOnly m m') (h' : GrowsOnly m' m'') : GrowsOnly m m'' := by
  intro w hw hp
  obtain ⟨hpde, hpte⟩ := h w hw hp
  obtain ⟨hpde', hpte'⟩ := h' w hw (hpde.spec.1 hp)
  exact ⟨hpde.trans hpde', hpte.trans hpte'⟩

theorem GrowsOnly.grant (h : GrowsOnly m m') (hg : grant m q = some g) :
    ∃ g', Memory.grant m' q = some g' ∧ g.Le g' := by
  obtain ⟨hlt, hpde, hpte, rfl⟩ := grant_eq_some.mp hg
  obtain ⟨hpdes, hptes⟩ := h (4096 * q) (by omega) hpde
  obtain ⟨hpde', -, hwpde, hupde⟩ := hpdes.spec
  obtain ⟨hpte', hframe, hwpte, hupte⟩ := hptes.spec
  refine ⟨_, grant_eq_some.mpr ⟨hlt, hpde' hpde, hpte' hpte, rfl⟩, hframe.symm, ?_, ?_⟩
  · simp only [hwpde, hwpte]
  · simp only [Bool.and_eq_true, decide_eq_true_eq]
    exact fun hu => ⟨hupde hu.1, hupte hu.2⟩

/-- One round of `vmm_mark_user_range`. -/
theorem markUserPage_grows (hS : LowSpec T Low) (hM : MachInv L Low m spaces) {addr : Nat}
    (haddr : addr < 2 ^ 32) : Ensures T (markUserPage m m.cr3 addr) (fun m' => GrowsOnly m m') := by
  refine (markUserPage_run hS hM haddr).mono ?_
  rintro m' (⟨-, rfl⟩ | ⟨hp, m₁, hstep, hm₁, hp₁, hm'⟩)
  · exact fun w _ _ => ⟨Or.inl rfl, Or.inl rfl⟩
  · obtain ⟨hpde₁, hpte₁⟩ := setPde_words hM (or_user_lt (tables_lt _ _ _)) (pfn_or _ (by norm_num)) hm₁
    obtain ⟨hpde₂, hpte₂⟩ := setPte_words hstep.inv hp₁ (tabIdx addr) (or_user_lt (tables_lt _ _ _)) hm'
    intro w hw hpw
    have hgrows : Grows (pdeAt m w) (pdeAt m₁ w) := by
      rw [hpde₁]
      split
      · next hi => exact Or.inr (by rw [pdeAt, hi])
      · exact Or.inl rfl
    refine ⟨by rwa [hpde₂], ?_⟩
    rw [hpte₂ w (hgrows.spec.1 hpw), ← hpte₁ w hpw]
    split
    · next hidx =>
      rw [← hidx.1, ← hidx.2]
      exact Or.inr rfl
    · exact Or.inl rfl

/-- **`vmm_mark_user_range`** sets user bits and changes nothing else. -/
theorem vmmMarkUserRange_grows (hS : LowSpec T Low)
    (huser : ∀ {n e : Nat}, Low n e → Low n (e ||| pageUser)) (hM : MachInv L Low m spaces)
    {start len : Nat} (hstart : start < 2 ^ 32) :
    Ensures T (vmmMarkUserRange m start len) (fun m' => GrowsOnly m m') := by
  have hend := add32_lt (add32 start len) 0xFFF
  unfold vmmMarkUserRange vmmGetCurrentDirectory
  simp only [and_page_mask hstart, and_page_mask hend]
  refine (markUserPages_rule (I := fun _ m' => VmStep L Low m spaces m' spaces ∧ GrowsOnly m m')
    (by omega) (Nat.dvd_mul_left _ _) ?_ _ m _ (Nat.dvd_mul_left _ _) (by omega)
    ⟨VmStep.refl hM, fun w _ _ => ⟨Or.inl rfl, Or.inl rfl⟩⟩).mono (fun m' h => h.2)
  rintro m₁ addr hlt ⟨hstep, hgrows⟩
  rw [← hstep.cr3]
  refine ((markUserPage_spec hS huser hstep.inv (by omega)).and
    (markUserPage_grows hS hstep.inv (by omega))).mono ?_
  exact fun m' h => ⟨hstep.trans h.1, hgrows.trans h.2⟩

/-- Pages that are neither directories nor tables may change. -/
theorem grant_of_inUse (hM : MachInv L Low m spaces) (hcr3 : m'.cr3 = m.cr3)
    (h : ∀ p, InUse L (tables m.mem) spaces p → ∀ i, tables m'.mem p i = tables m.mem p i)
    (hg : grant m q = some g) : grant m' q = some g := by
  obtain ⟨hlt, hpde, hpte, rfl⟩ := grant_eq_some.mp hg
  have hdir : m'.dir = m.dir := by rw [Machine.dir, Machine.dir, hcr3]
  have hpde' : pdeAt m' (4096 * q) = pdeAt m (4096 * q) := by
    rw [pdeAt, hdir, h _ (inUse_dir hM.dir)]
    rfl
  have hpte' : pteAt m' (4096 * q) = pteAt m (4096 * q) := by
    rw [pteAt, hpde', h (pfn (pdeAt m (4096 * q))) (hM.vm.inUse_table hM.dir hpde)]
    rfl
  rw [grant_eq_some, hpde', hpte']
  exact ⟨hlt, hpde, hpte, rfl⟩

/-- **`vmm_create_address_space`** writes to a free frame. -/
theorem vmmCreateAddressSpace_off (hS : LowSpec T Low) (hM : MachInv L Low m spaces) :
    Ensures T (vmmCreateAddressSpace L m) (fun r => r.2.cr3 = m.cr3 ∧
      ∀ p, InUse L (tables m.mem) spaces p → ∀ i, tables r.2.mem p i = tables m.mem p i) := by
  rcases allocPage_spec m with ⟨halloc, hempty⟩ | ⟨q, hq, bm, halloc, hbm⟩
  · refine .of_eq (a := (0, m)) ?_ ⟨rfl, fun _ _ _ => rfl⟩
    simp only [vmmCreateAddressSpace, halloc, Option.bind_eq_bind, Option.bind_some, if_true]
  · have hfr := isFrame_of_free hq
    have hnot := hM.vm.not_inUse_of_free hq
    have hstat : ¬ L.Static q := fun h => hnot (Or.inl h)
    have hspace : q ∉ spaces := fun h => hnot (Or.inr (Or.inl h))
    have hkq : L.kpd ≠ q := fun h => hstat (Or.inl h.symm)
    simp only [vmmCreateAddressSpace, halloc, Option.bind_eq_bind, Option.bind_some,
      if_neg hfr.addr_ne_zero]
    refine (fillPage_spec hS (hM.take hbm) (fun _ => by norm_num) (le_refl 1024) hfr.low hstat
      hspace).bind ?_
    rintro _ ⟨hM₁, mem₁, rfl, htab₁⟩
    refine (copyPage_spec hS (n := 20) (by norm_num) hfr.low L.kpd_low hkq hstat hspace
      (fun i => tables_lt _ _ i) 20 0 _ (le_refl 20) hM₁ rfl).bind ?_
    rintro _ ⟨hM₂, mem₂, rfl, htab₂⟩
    simp only at htab₁ htab₂
    refine .ret ⟨rfl, fun p hp i => ?_⟩
    have hne : p ≠ q := fun h => hnot (h ▸ hp)
    simp only [htab₂]
    rw [fillTables_page _ _ _ (by norm_num), if_neg (fun h => hne h.1), htab₁,
      fillTables_page _ _ _ (le_refl 1024), if_neg (fun h => hne h.1)]

/-! ## 3. Runs -/

/-- The buffer is coherent with the tables. -/
abbrev TlbCoherent (m : Machine) (tlb : Tlb) : Prop := Coherent Grant.Le (grant m) tlb

/-- What is still mapped as it was. -/
theorem TlbCoherent.keep {tlb' : Tlb} (h : TlbCoherent m tlb)
    (hsub : ∀ q g, tlb' q = some g → tlb q = some g)
    (hgrant : ∀ q g, tlb' q ≠ none → grant m q = some g → grant m' q = some g) : TlbCoherent m' tlb' :=
  Coherent.change Grant.Le.trans h hsub
    (fun q _ g' hq hg => ⟨g', hgrant q g' (by simp [hq]) hg, Grant.Le.refl g'⟩)

/-- One page is invalidated and the others are kept. -/
theorem TlbCoherent.drop_one (h : TlbCoherent m tlb) (hkeeps : KeepsOthers m m' v) :
    TlbCoherent m' (Function.update tlb (v / 4096) none) := by
  refine TlbCoherent.keep h (fun q g hq => (update_none_eq_some.mp hq).2) (fun q g hq hg => ?_)
  obtain ⟨g', hg'⟩ := Option.ne_none_iff_exists'.mp hq
  exact hkeeps.grant (update_none_eq_some.mp hg').1 hg

theorem TlbCoherent.map (hS : LowSpec T Low) (hM : MachInv L Low m spaces) (h : TlbCoherent m tlb)
    {p flags : Nat} {r : Int} (hv : v < 2 ^ 32) (hp : p < 2 ^ 32)
    (hmap : vmmMapPage m v p flags = some (r, m')) :
    TlbCoherent m' (mapInvalidates m v p flags tlb) := by
  rw [mapInvalidates, hmap, Option.map_some]
  rcases (vmmMapPage_keeps hS hM hv hp flags).1 _ hmap with hfail | ⟨hzero, hkeeps⟩
  · obtain ⟨rfl, rfl⟩ := Prod.mk.inj hfail
    rw [if_neg (by simp)]
    exact h
  · simp only at hzero
    rw [hzero, if_pos rfl]
    exact h.drop_one hkeeps

/-- **One call** keeps the buffer coherent. -/
theorem tlbCoherent_call {s t : VmState} {op : VmOp} (hM : MachInv L SelfOrAbsent s.mach s.spaces)
    (h : TlbCoherent s.mach tlb) (hok : VmLegal L s op) (hstep : vmStep L s op = some t) :
    TlbCoherent t.mach (invalidate s.mach tlb op) := by
  cases op with
  | createAddressSpace =>
    obtain ⟨r, hr, rfl⟩ := Option.map_eq_some_iff.mp hstep
    obtain ⟨hcr3, hoff⟩ := (vmmCreateAddressSpace_off selfOrAbsent_spec hM).1 r hr
    exact h.keep (fun _ _ hq => hq) (fun q g _ hg => grant_of_inUse hM hcr3 hoff hg)
  | switchDirectory pageDir => exact coherent_empty _ _
  | mapPage va p flags =>
    obtain ⟨⟨r, m₁⟩, hr, rfl⟩ := Option.map_eq_some_iff.mp hstep
    exact h.map selfOrAbsent_spec hM hok.1.1 hok.1.2.1 hr
  | unmapPage va =>
    obtain ⟨m₁, hr, rfl⟩ := Option.map_eq_some_iff.mp hstep
    obtain ⟨pde, hload, hcase⟩ := vmmUnmapPage_keeps selfOrAbsent_spec hM hok.1 hr
    simp only [invalidate, hload]
    split_ifs at hcase ⊢
    · exact hcase ▸ h
    · exact h.drop_one hcase
  | allocMapPage va flags =>
    obtain ⟨⟨r, m₁⟩, hr, rfl⟩ := Option.map_eq_some_iff.mp hstep
    rcases allocPage_spec s.mach with ⟨halloc, -⟩ | ⟨q, hq, bm, halloc, hbm⟩
    · simp only [vmmAllocMapPage, halloc, Option.bind_eq_bind, Option.bind_some, if_true,
        Option.some.injEq, Prod.mk.injEq] at hr
      simp only [invalidate, halloc, if_true]
      exact hr.2 ▸ h
    · have hfr := isFrame_of_free hq
      simp only [vmmAllocMapPage, halloc, Option.bind_eq_bind, Option.bind_some,
        if_neg hfr.addr_ne_zero] at hr
      simp only [invalidate, halloc, if_neg hfr.addr_ne_zero]
      obtain ⟨⟨r', m₂⟩, hmap, hrest⟩ := Option.bind_eq_some_iff.mp hr
      have hcoh : TlbCoherent m₂ (mapInvalidates { s.mach with bitmap := bm } va (4096 * q) flags tlb) :=
        TlbCoherent.map selfOrAbsent_spec (hM.take hbm) h hok.1.1 hfr.addr_lt hmap
      -- giving the page back changes no table
      split_ifs at hrest
      · obtain ⟨m₃, hfree, heq⟩ := Option.bind_eq_some_iff.mp hrest
        obtain ⟨bm', -, rfl⟩ := Option.map_eq_some_iff.mp hfree
        obtain ⟨-, rfl⟩ := Prod.mk.inj (Option.some.inj heq)
        exact hcoh
      · obtain ⟨-, rfl⟩ := Prod.mk.inj (Option.some.inj hrest)
        exact hcoh
  | markUserRange start len =>
    obtain ⟨m₁, hr, rfl⟩ := Option.map_eq_some_iff.mp hstep
    have hgrows := (vmmMarkUserRange_grows selfOrAbsent_spec selfOrAbsent_user hM hok.1.1).1 m₁ hr
    refine Coherent.change Grant.Le.trans h (fun q g hq => ?_) (fun q _ g _ hg => hgrows.grant hg)
    simp only [invalidate] at hq
    split_ifs at hq
    exact hq
  | allocPage =>
    obtain ⟨r, hr, rfl⟩ := Option.map_eq_some_iff.mp hstep
    obtain ⟨bm, -, rfl⟩ := Option.map_eq_some_iff.mp hr
    exact h
  | freePage addr =>
    obtain ⟨m₁, hr, rfl⟩ := Option.map_eq_some_iff.mp hstep
    obtain ⟨bm, -, rfl⟩ := Option.map_eq_some_iff.mp hr
    exact h

/-- The processor's own moves keep it coherent, too. -/
theorem tlbCoherent_step {s t : Buffered} {op : TlbOp} (hM : MachInv L SelfOrAbsent s.vm.mach s.vm.spaces)
    (h : TlbCoherent s.vm.mach s.tlb) (hok : TlbLegal L s op) (hstep : tlbStep L s op = some t) :
    MachInv L SelfOrAbsent t.vm.mach t.vm.spaces ∧ TlbCoherent t.vm.mach t.tlb := by
  cases op with
  | call op =>
    obtain ⟨vm, hvm, rfl⟩ := Option.map_eq_some_iff.mp hstep
    have hlegal : VmLegal L s.vm op := hok
    exact ⟨(vmStep_spec selfOrAbsent_spec selfOrAbsent_user hM hlegal.1 hlegal.lowSafe).1 vm hvm,
      tlbCoherent_call hM h hlegal hvm⟩
  | flushTlb =>
    obtain rfl := Option.some.inj hstep
    exact ⟨hM, coherent_empty _ _⟩
  | fill q =>
    obtain ⟨g, hg, rfl⟩ := Option.map_eq_some_iff.mp hstep
    exact ⟨hM, h.fill Grant.Le.refl hg⟩
  | evict q =>
    obtain rfl := Option.some.inj hstep
    exact ⟨hM, h.drop q⟩

/-- **The buffer never errs but on the safe side.**  Over every run of legal calls from `vmm_init` on,
with pages taken in and dropped at any time: if the buffer holds a page then the tables map it, to the same
frame and with the same right to write, and ring 3 gets no access from the buffer that it does not get from
the tables. -/
theorem tlb_coherent {m₀ m₁ : Machine} (hboot : m₀.paging = false) (hinit : vmmInit L m₀ = some m₁)
    {s : Buffered} (hr : Reach (tlbStep L) (TlbLegal L) ⟨⟨m₁, []⟩, fun _ => none⟩ s)
    (hq : s.tlb q = some g) :
    (∀ v, v / 4096 = q → s.vm.mach.translate v = some (4096 * g.frame + v % 4096)) ∧
    (g.writable = true ↔ WritablePage s.vm.mach (4096 * q)) ∧
    (g.user = true → UserPage s.vm.mach (4096 * q)) := by
  have hinv : MachInv L SelfOrAbsent s.vm.mach s.vm.spaces ∧ TlbCoherent s.vm.mach s.tlb := by
    refine hr.inv (I := fun s => MachInv L SelfOrAbsent s.vm.mach s.vm.spaces ∧
      TlbCoherent s.vm.mach s.tlb) ⟨machInv_reach hboot hinit .refl, coherent_empty _ _⟩ ?_
    exact fun s op t hs hok hstep => tlbCoherent_step hs.1 hs.2 hok hstep
  obtain ⟨g', hg', hle⟩ := hinv.2 q g hq
  obtain ⟨hlt, hpde, hpte, rfl⟩ := grant_eq_some.mp hg'
  refine ⟨fun v hv => ?_, ?_, fun hu => ?_⟩
  · have hv32 : v < 2 ^ 32 := by omega
    have hpage : v / 4096 = 4096 * q / 4096 := by omega
    obtain ⟨hi, hj⟩ := (idx_eq_iff hv32 (by omega)).mpr hpage
    rw [Machine.translate, hinv.1.paging, if_pos rfl, Tables.walk, hi, hj,
      entry_of_present hpde hpte, Option.map_some, hle.frame]
    rfl
  · rw [hle.writable, WritablePage, Bool.and_eq_true, decide_eq_true_eq, decide_eq_true_eq]
  · simpa [UserPage] using hle.user hu

/-- After `vmm_init` the processor takes in page 5. -/
theorem tlb_coherent_fill : ∃ m₁ s g, vmmInit sampleLayout blankMachine = some m₁ ∧
    Reach (tlbStep sampleLayout) (TlbLegal sampleLayout) ⟨⟨m₁, []⟩, fun _ => none⟩ s ∧
    s.tlb 5 = some g ∧ s.vm.mach.translate 0x5123 = some (4096 * g.frame + 0x123) := by
  obtain ⟨m₁, hinit, hM, -⟩ := vmmInit_spec (L := sampleLayout) (m := blankMachine) rfl
  have hlow : 4096 * 5 < 20480 * 4096 := by norm_num
  obtain ⟨hpde, hentry⟩ := hM.vm.low_entry hM.dir hlow
  have hpte : present (pteAt m₁ (4096 * 5)) := by
    rw [pteAt, pdeAt, hentry]
    exact (hM.vm.lowPte _ (by norm_num)).1
  obtain ⟨g, hgrant⟩ : ∃ g, grant m₁ 5 = some g := ⟨_, grant_eq_some.mpr ⟨by norm_num, hpde, hpte, rfl⟩⟩
  have hreach : Reach (tlbStep sampleLayout) (TlbLegal sampleLayout) ⟨⟨m₁, []⟩, fun _ => none⟩
      ⟨⟨m₁, []⟩, Function.update (fun _ => none) 5 (some g)⟩ :=
    .tail .refl (o := .fill 5) trivial (by rw [tlbStep, hgrant, Option.map_some])
  have hheld : Function.update (fun _ => none) 5 (some g) 5 = some g := Function.update_self ..
  exact ⟨m₁, _, g, hinit, hreach, hheld, (tlb_coherent rfl hinit hreach hheld).1 0x5123 rfl⟩

end JarvOs.Memory
