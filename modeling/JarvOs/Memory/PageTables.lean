/-
# The state of the page tables

What `vmm.c` keeps true of its directories and tables, as a statement about the words of memory.

`VmInv L Low W free spaces`: the kernel's directory and every directory in `spaces` share the
twenty low tables of `kernel_page_table`, whose entries satisfy `Low`; above them every present
directory entry of every directory points to a table frame of its OWN, taken from the allocator
and used for nothing else.  That last clause is what makes one address space's edits invisible in
the others, and it is why the only thing the invariant asks of the allocator is which frames are
still free.

Two parameters let the same lemmas serve where low pages may be unmapped and where they may not:
`Low n e` says what the entry `e` of low page `n` may be, and `T` (in `LowSpec`) whether that
includes being present.
-/
import JarvOs.Memory.Vmm
import JarvOs.Lib.Ensures

namespace JarvOs.Memory

open JarvOs.Lib

/-! ## 1. Frames as page numbers -/

/-- The pages whose bit is 1. -/
def freeFrames (bm : Bitmap) : Finset Nat := (freePages bm).image (· + 256)

theorem frameAddr_eq (p : Nat) : frameAddr p = 4096 * (p + 256) := by
  simp only [frameAddr, memoryStartAddr, pageSize]
  omega

theorem mem_freeFrames {bm : Bitmap} {q : Nat} :
    q ∈ freeFrames bm ↔ 256 ≤ q ∧ q - 256 ∈ freePages bm := by
  simp only [freeFrames, Finset.mem_image]
  constructor
  · rintro ⟨p, hp, rfl⟩
    exact ⟨Nat.le_add_left 256 p, by rwa [Nat.add_sub_cancel]⟩
  · rintro ⟨h, hp⟩
    exact ⟨q - 256, hp, Nat.sub_add_cancel h⟩

/-- A page of the memory `pmm.c` manages. -/
def IsFrame (q : Nat) : Prop := 256 ≤ q ∧ q < 16384

theorem isFrame_of_free {bm : Bitmap} {q : Nat} (h : q ∈ freeFrames bm) : IsFrame q := by
  obtain ⟨h1, h2⟩ := mem_freeFrames.mp h
  have := lt_of_mem_freePages h2
  rw [numberOfPages_eq] at this
  exact ⟨h1, by omega⟩

theorem card_freeFrames_le (bm : Bitmap) : (freeFrames bm).card ≤ numberOfPages := by
  have hsub : freeFrames bm ⊆ Finset.Ico 256 16384 := fun q hq =>
    Finset.mem_Ico.mpr (isFrame_of_free hq)
  calc (freeFrames bm).card ≤ (Finset.Ico 256 16384).card := Finset.card_le_card hsub
    _ = numberOfPages := by rw [Nat.card_Ico, numberOfPages_eq]

/-- **`pmm_alloc_page`** takes a free page, or there is none. -/
theorem allocPage_spec (m : Machine) :
    (m.allocPage = some (0, m) ∧ freeFrames m.bitmap = ∅) ∨
      ∃ q ∈ freeFrames m.bitmap, ∃ bm, m.allocPage = some (4096 * q, { m with bitmap := bm }) ∧
        freeFrames bm = (freeFrames m.bitmap).erase q := by
  rcases pmmAllocPage_spec m.bitmap with ⟨hempty, h⟩ | ⟨hne, bm, h, hfree⟩
  · left
    rw [Machine.allocPage, h, Option.map_some]
    exact ⟨rfl, by rw [freeFrames, hempty, Finset.image_empty]⟩
  · right
    refine ⟨(freePages m.bitmap).min' hne + 256, ?_, bm, ?_, ?_⟩
    · exact Finset.mem_image_of_mem _ (Finset.min'_mem _ hne)
    · rw [Machine.allocPage, h, Option.map_some, frameAddr_eq]
    · rw [freeFrames, freeFrames, hfree,
        Finset.image_erase (fun _ _ h => Nat.add_right_cancel h)]

/-- The lowest free page is taken. -/
theorem allocPage_first {m : Machine} {n : Nat} (hn : n < 16384)
    (hfree : freeFrames m.bitmap = Finset.Ico n 16384) :
    ∃ bm, m.allocPage = some (4096 * n, { m with bitmap := bm }) ∧
      freeFrames bm = Finset.Ico (n + 1) 16384 := by
  have hmem : n ∈ freeFrames m.bitmap := hfree ▸ Finset.mem_Ico.mpr ⟨le_refl n, hn⟩
  obtain ⟨h256, hpage⟩ := mem_freeFrames.mp hmem
  obtain ⟨bm, h, hbm⟩ := pmmAllocPage_least ⟨n - 256, hpage⟩
  have hmin : (freePages m.bitmap).min' ⟨n - 256, hpage⟩ = n - 256 := by
    refine le_antisymm (Finset.min'_le _ _ hpage) ?_
    have hin := Finset.mem_image_of_mem (· + 256) (Finset.min'_mem _ ⟨n - 256, hpage⟩)
    rw [← freeFrames, hfree, Finset.mem_Ico] at hin
    omega
  refine ⟨bm, ?_, ?_⟩
  · rw [Machine.allocPage, h, Option.map_some, frameAddr_eq, hmin, Nat.sub_add_cancel h256]
  · have himage : freeFrames bm = (freeFrames m.bitmap).erase n := by
      rw [freeFrames, freeFrames, hbm, Finset.image_erase (fun _ _ h => Nat.add_right_cancel h),
        hmin, Nat.sub_add_cancel h256]
    rw [himage, hfree]
    ext q
    simp only [Finset.mem_erase, Finset.mem_Ico]
    omega

/-- A 32-bit store that does not wrap. -/
theorem put32_of_le (m : Machine) {va : Nat} (hva : va + 4 ≤ 2 ^ 32) (v : Nat) :
    m.put32 va v = (m.translate va).bind (fun a₀ => (m.translate (va + 1)).bind (fun a₁ =>
      (m.translate (va + 2)).bind (fun a₂ => (m.translate (va + 3)).bind (fun a₃ =>
        some { m with mem := setByte (setByte (setByte (setByte m.mem a₀ (byteOf v 0)) a₁
          (byteOf v 1)) a₂ (byteOf v 2)) a₃ (byteOf v 3) })))) := by
  have h1 : add32 va 1 = va + 1 := add32_of_lt (by omega)
  have h2 : add32 va 2 = va + 2 := add32_of_lt (by omega)
  have h3 : add32 va 3 = va + 3 := add32_of_lt (by omega)
  simp only [Machine.put32, h1, h2, h3, Option.bind_eq_bind]

/-- Only memory has changed. -/
def OnlyMem (m m' : Machine) : Prop := ∃ mem, m' = { m with mem := mem }

theorem OnlyMem.trans {m m' m'' : Machine} (h : OnlyMem m m') (h' : OnlyMem m' m'') : OnlyMem m m'' := by
  obtain ⟨mem, rfl⟩ := h
  obtain ⟨mem', rfl⟩ := h'
  exact ⟨mem', rfl⟩

theorem onlyMem_store32 {m m' : Machine} {va v : Nat} (h : m.store32 va v = some m') : OnlyMem m m' := by
  have h' : m.put32 va v = some m' := h
  simp only [Machine.put32, Option.bind_eq_bind, Option.bind_eq_some_iff, Option.some.injEq] at h'
  obtain ⟨_, -, _, -, _, -, _, -, rfl⟩ := h'
  exact ⟨_, rfl⟩

theorem onlyMem_fillWords {base : Nat} {f : Nat → Nat} :
    ∀ (n : Nat) {m m' : Machine} {i : Nat}, Machine.fillWords base f m i n = some m' → OnlyMem m m' := by
  intro n
  induction n with
  | zero =>
    intro m m' i h
    obtain rfl := Option.some.inj h
    exact ⟨_, rfl⟩
  | succ n ih =>
    intro m m' i h
    obtain ⟨m₁, hst, hrest⟩ := Option.bind_eq_some_iff.mp h
    exact (onlyMem_store32 hst).trans (ih hrest)

theorem onlyMem_copyWords {dest src : Nat} :
    ∀ (n : Nat) {m m' : Machine} {i : Nat}, Machine.copyWords dest src m i n = some m' →
      OnlyMem m m' := by
  intro n
  induction n with
  | zero =>
    intro m m' i h
    obtain rfl := Option.some.inj h
    exact ⟨_, rfl⟩
  | succ n ih =>
    intro m m' i h
    simp only [Machine.copyWords, Option.bind_eq_bind, Option.bind_eq_some_iff] at h
    obtain ⟨_, -, m₁, hst, hrest⟩ := h
    exact (onlyMem_store32 hst).trans (ih hrest)

/-- **`pmm_free_page`** gives a managed page back, and does nothing elsewhere. -/
theorem freePage_spec (m : Machine) (a : Nat) :
    ∃ bm, m.freePage a = some { m with bitmap := bm } ∧
      ((IsFrame (a / 4096) ∧ freeFrames bm = insert (a / 4096) (freeFrames m.bitmap)) ∨
        (¬ IsFrame (a / 4096) ∧ bm = m.bitmap)) := by
  obtain ⟨bm, h, hcase⟩ := pmmFreePage_spec m.bitmap a
  have hiff : Managed a ↔ IsFrame (a / 4096) := by
    simp only [Managed, IsFrame, memoryStartAddr, memoryEndAddr]
    omega
  refine ⟨bm, by rw [Machine.freePage, h, Option.map_some], ?_⟩
  rcases hcase with ⟨hm, hfree⟩ | ⟨hm, rfl⟩
  · refine Or.inl ⟨hiff.mp hm, ?_⟩
    have hpage : pageOf a + 256 = a / 4096 := by
      simp only [Managed, pageOf, memoryStartAddr, pageSize] at hm ⊢
      omega
    rw [freeFrames, freeFrames, hfree, Finset.image_insert, hpage]
  · exact Or.inr ⟨fun hf => hm (hiff.mpr hf), rfl⟩

/-! ## 2. The invariant -/

/-- The pages of the two static arrays. -/
def Layout.Static (L : Layout) (q : Nat) : Prop := q = L.kpd ∨ (L.kpt ≤ q ∧ q < L.kpt + 20)

/-- The entry of low page `n`. -/
def lowEntry (L : Layout) (W : Tables) (n : Nat) : Nat := W (L.kpt + n / 1024) (Fin.ofNat 1024 n)

/-- The directories and tables of a kernel with the address spaces `spaces`. -/
structure VmInv (L : Layout) (Low : Nat → Nat → Prop) (W : Tables) (free : Finset Nat)
    (spaces : List Nat) : Prop where
  free_frame : ∀ q ∈ free, IsFrame q ∧ ¬ L.Static q
  space : ∀ d ∈ spaces, IsFrame d ∧ d ∉ free ∧ ¬ L.Static d
  lowPde : ∀ d ∈ L.kpd :: spaces, ∀ i : Fin 1024, (i : Nat) < 20 →
    present (W d i) ∧ writable (W d i) ∧ pfn (W d i) = L.kpt + i
  lowPte : ∀ n < 20480, Low n (lowEntry L W n)
  table : ∀ d ∈ L.kpd :: spaces, ∀ i : Fin 1024, 20 ≤ (i : Nat) → present (W d i) →
    IsFrame (pfn (W d i)) ∧ pfn (W d i) ∉ free ∧ pfn (W d i) ∉ spaces ∧
      ¬ L.Static (pfn (W d i)) ∧ writable (W d i)
  inj : ∀ d ∈ L.kpd :: spaces, ∀ d' ∈ L.kpd :: spaces, ∀ i i' : Fin 1024, 20 ≤ (i : Nat) →
    20 ≤ (i' : Nat) → present (W d i) → present (W d' i') → pfn (W d i) = pfn (W d' i') →
    d = d' ∧ i = i'

/-- The pages that are directories or tables. -/
def InUse (L : Layout) (W : Tables) (spaces : List Nat) (q : Nat) : Prop :=
  L.Static q ∨ q ∈ spaces ∨ ∃ d ∈ L.kpd :: spaces, ∃ i : Fin 1024, 20 ≤ (i : Nat) ∧
    present (W d i) ∧ q = pfn (W d i)

section Facts

variable {L : Layout} {Low : Nat → Nat → Prop} {W W' : Tables} {free : Finset Nat}
  {spaces : List Nat} {d q t : Nat} {i j : Fin 1024}

theorem dirs_cons (hd : d ∈ L.kpd :: spaces) : d ∈ L.kpd :: q :: spaces := by
  rcases List.mem_cons.mp hd with rfl | hd
  · exact List.mem_cons_self
  · exact List.mem_cons_of_mem _ (List.mem_cons_of_mem _ hd)

theorem dirs_of_ne (hd : d ∈ L.kpd :: q :: spaces) (hdq : d ≠ q) : d ∈ L.kpd :: spaces := by
  rcases List.mem_cons.mp hd with rfl | hd
  · exact List.mem_cons_self
  · exact List.mem_cons_of_mem _ ((List.mem_cons.mp hd).resolve_left hdq)

theorem kpt_static (L : Layout) {k : Nat} (hk : k < 20) : L.Static (L.kpt + k) :=
  Or.inr ⟨Nat.le_add_right _ _, by omega⟩

/-- A directory is not one of the low tables. -/
theorem VmInv.dir_ne_lowTable (h : VmInv L Low W free spaces) (hd : d ∈ L.kpd :: spaces) :
    ¬ (L.kpt ≤ d ∧ d < L.kpt + 20) := by
  rcases List.mem_cons.mp hd with rfl | hd
  · have := L.apart
    omega
  · exact fun hs => (h.space d hd).2.2 (Or.inr hs)

theorem VmInv.not_inUse_of_free (h : VmInv L Low W free spaces) (hq : q ∈ free) :
    ¬ InUse L W spaces q := by
  rintro (hs | hs | ⟨d, hd, i, hi, hp, rfl⟩)
  · exact (h.free_frame q hq).2 hs
  · exact (h.space q hs).2.1 hq
  · exact (h.table d hd i hi hp).2.1 hq

theorem inUse_dir (hd : d ∈ L.kpd :: spaces) : InUse L W spaces d := by
  rcases List.mem_cons.mp hd with rfl | hd
  · exact Or.inl (Or.inl rfl)
  · exact Or.inr (Or.inl hd)

/-- What a present directory entry points to is in use. -/
theorem VmInv.inUse_table (h : VmInv L Low W free spaces) (hd : d ∈ L.kpd :: spaces)
    (hp : present (W d i)) : InUse L W spaces (pfn (W d i)) := by
  by_cases hi : (i : Nat) < 20
  · rw [(h.lowPde d hd i hi).2.2]
    exact Or.inl (kpt_static L hi)
  · exact Or.inr (Or.inr ⟨d, hd, i, by omega, hp, rfl⟩)

/-- The invariant looks at directories and low tables only. -/
theorem VmInv.of_dirs (h : VmInv L Low W free spaces)
    (hdir : ∀ d ∈ L.kpd :: spaces, ∀ i, W' d i = W d i)
    (hlow : ∀ n < 20480, Low n (lowEntry L W' n)) : VmInv L Low W' free spaces := by
  refine ⟨h.free_frame, h.space, ?_, hlow, ?_, ?_⟩
  · intro d hd i hi
    rw [hdir d hd i]
    exact h.lowPde d hd i hi
  · intro d hd i hi
    rw [hdir d hd i]
    exact h.table d hd i hi
  · intro d hd d' hd' i i' hi hi'
    rw [hdir d hd i, hdir d' hd' i']
    exact h.inj d hd d' hd' i i' hi hi'

theorem VmInv.congr (h : VmInv L Low W free spaces)
    (hW : ∀ q, L.Static q ∨ q ∈ spaces → ∀ i, W' q i = W q i) : VmInv L Low W' free spaces := by
  refine h.of_dirs (fun d hd i => ?_) (fun n hn => ?_)
  · rcases List.mem_cons.mp hd with rfl | hd
    · exact hW _ (Or.inl (Or.inl rfl)) i
    · exact hW _ (Or.inr hd) i
  · rw [lowEntry, hW _ (Or.inl (kpt_static L (by omega)))]
    exact h.lowPte n hn

/-- No walk changes as long as the pages in use do not. -/
theorem VmInv.entry_congr (h : VmInv L Low W free spaces) (hd : d ∈ L.kpd :: spaces)
    (hW : ∀ q, InUse L W spaces q → ∀ i, W' q i = W q i) :
    W'.entry d i j = W.entry d i j :=
  Lib.entry_congr (hW d (inUse_dir hd) i) (fun hp => hW _ (h.inUse_table hd hp) j)

theorem VmInv.shrink {free' : Finset Nat} (h : VmInv L Low W free spaces) (hsub : free' ⊆ free) :
    VmInv L Low W free' spaces :=
  ⟨fun q hq => h.free_frame q (hsub hq),
    fun d hd => ⟨(h.space d hd).1, fun hm => (h.space d hd).2.1 (hsub hm), (h.space d hd).2.2⟩,
    h.lowPde, h.lowPte,
    fun d hd i hi hp => ⟨(h.table d hd i hi hp).1, fun hm => (h.table d hd i hi hp).2.1 (hsub hm),
      (h.table d hd i hi hp).2.2⟩, h.inj⟩

/-- Giving back a page that is neither directory nor table. -/
theorem VmInv.give (h : VmInv L Low W free spaces) (hq : IsFrame q) (hnot : ¬ InUse L W spaces q) :
    VmInv L Low W (insert q free) spaces := by
  refine ⟨fun p hp => ?_, fun d hd => ?_, h.lowPde, h.lowPte, fun d hd i hi hp => ?_, h.inj⟩
  · rcases Finset.mem_insert.mp hp with rfl | hp
    · exact ⟨hq, fun hs => hnot (Or.inl hs)⟩
    · exact h.free_frame p hp
  · obtain ⟨h1, h2, h3⟩ := h.space d hd
    refine ⟨h1, fun hm => ?_, h3⟩
    rcases Finset.mem_insert.mp hm with rfl | hm
    · exact hnot (Or.inr (Or.inl hd))
    · exact h2 hm
  · obtain ⟨h1, h2, h3⟩ := h.table d hd i hi hp
    refine ⟨h1, fun hm => ?_, h3⟩
    rcases Finset.mem_insert.mp hm with heq | hm
    · exact hnot (Or.inr (Or.inr ⟨d, hd, i, hi, hp, heq.symm⟩))
    · exact h2 hm

/-! ## 3. Edits of one word -/

/-- The entry a last-level word is. -/
def asEntry (v : Nat) : Option Nat := if present v then some v else none

theorem VmInv.table_ne_dir (h : VmInv L Low W free spaces) (hd : d ∈ L.kpd :: spaces)
    (hi : 20 ≤ (i : Nat)) (hp : present (W d i)) {d' : Nat} (hd' : d' ∈ L.kpd :: spaces) :
    d' ≠ pfn (W d i) := by
  obtain ⟨-, -, h2, h3, -⟩ := h.table d hd i hi hp
  rintro rfl
  rcases List.mem_cons.mp hd' with heq | hd'
  · exact h3 (Or.inl heq)
  · exact h2 hd'

/-- No directory is what a present entry points to, be it a low table or another one. -/
theorem VmInv.dir_ne_target (h : VmInv L Low W free spaces) (hd : d ∈ L.kpd :: spaces)
    (hp : present (W d i)) {d' : Nat} (hd' : d' ∈ L.kpd :: spaces) : d' ≠ pfn (W d i) := by
  by_cases hi : (i : Nat) < 20
  · rw [(h.lowPde d hd i hi).2.2]
    rintro rfl
    exact h.dir_ne_lowTable hd' ⟨Nat.le_add_right _ _, by omega⟩
  · exact h.table_ne_dir hd (by omega) hp hd'

/-- A store to a directory leaves the low tables alone. -/
theorem VmInv.lowEntry_set_dir (h : VmInv L Low W free spaces) (hd : d ∈ L.kpd :: spaces) {n v : Nat}
    (hn : n < 20480) : lowEntry L (W.set d i v) n = lowEntry L W n := by
  rw [lowEntry, set_page_ne (fun heq => h.dir_ne_lowTable hd (by omega)), lowEntry]

/-- **Writing an entry of a high table** changes one walk of one directory. -/
theorem VmInv.setPte (h : VmInv L Low W free spaces) (hd : d ∈ L.kpd :: spaces)
    (hi : 20 ≤ (i : Nat)) (hp : present (W d i)) (j : Fin 1024) (v : Nat) :
    VmInv L Low (W.set (pfn (W d i)) j v) free spaces ∧
      ∀ d' ∈ L.kpd :: spaces, ∀ i' j' : Fin 1024,
        (W.set (pfn (W d i)) j v).entry d' i' j' =
          if d' = d ∧ i' = i ∧ j' = j then asEntry v else W.entry d' i' j' := by
  have hne : ∀ d' ∈ L.kpd :: spaces, d' ≠ pfn (W d i) := fun d' => h.table_ne_dir hd hi hp
  obtain ⟨-, -, -, hstat, -⟩ := h.table d hd i hi hp
  refine ⟨h.congr fun q hq i' => set_page_ne ?_, fun d' hd' i' j' => ?_⟩
  · rcases hq with hq | hq
    · rintro rfl
      exact hstat hq
    · exact hne q (List.mem_cons_of_mem _ hq)
  · have hdir : W.set (pfn (W d i)) j v d' i' = W d' i' := set_page_ne (hne d' hd')
    by_cases hsame : d' = d ∧ i' = i
    · obtain ⟨rfl, rfl⟩ := hsame
      by_cases hj : j' = j
      · subst hj
        rw [if_pos ⟨rfl, rfl, rfl⟩, Tables.entry, hdir, set_same, asEntry]
        simp only [hp, true_and]
      · rw [if_neg (fun hh => hj hh.2.2)]
        exact Lib.entry_congr hdir (fun _ => set_other (fun hh => hj hh.2))
    · rw [if_neg (fun hh => hsame ⟨hh.1, hh.2.1⟩)]
      refine Lib.entry_congr hdir (fun hp' => set_page_ne fun heq => ?_)
      -- another directory word leads to another table
      by_cases hi' : (i' : Nat) < 20
      · rw [(h.lowPde d' hd' i' hi').2.2] at heq
        exact hstat (heq ▸ kpt_static L hi')
      · exact hsame (h.inj d' hd' d hd i' i (by omega) hi hp' hp heq)

/-- **Writing the entry of a low page** within what `Low` allows changes no high walk. -/
theorem VmInv.setLow {n v : Nat} (h : VmInv L Low W free spaces) (hn : n < 20480) (hv : Low n v) :
    VmInv L Low (W.set (L.kpt + n / 1024) (Fin.ofNat 1024 n) v) free spaces ∧
      ∀ d' ∈ L.kpd :: spaces, ∀ i' j' : Fin 1024, 20 ≤ (i' : Nat) →
        (W.set (L.kpt + n / 1024) (Fin.ofNat 1024 n) v).entry d' i' j' = W.entry d' i' j' := by
  have hs : L.Static (L.kpt + n / 1024) := kpt_static L (by omega)
  have hdir : ∀ d ∈ L.kpd :: spaces, ∀ i,
      W.set (L.kpt + n / 1024) (Fin.ofNat 1024 n) v d i = W d i := fun d hd i =>
    set_page_ne fun heq => h.dir_ne_lowTable hd ⟨by omega, by omega⟩
  refine ⟨h.of_dirs hdir (fun k hk => ?_), fun d hd i' j' hi' => ?_⟩
  · by_cases hkn : k = n
    · rw [lowEntry, hkn, set_same]
      exact hv
    · rw [lowEntry, set_other (fun hh => hkn ?_)]
      · exact h.lowPte k hk
      · have h2 := Fin.ext_iff.mp hh.2
        simp only [Fin.val_ofNat] at h2
        omega
  · refine Lib.entry_congr (hdir d hd i') (fun hp => set_page_ne fun heq => ?_)
    exact (h.table d hd i' hi' hp).2.2.2.1 (heq ▸ hs)

/-- **Changing the flags of a present directory entry** changes no walk. -/
theorem VmInv.setFlags {v : Nat} (h : VmInv L Low W free spaces) (hd : d ∈ L.kpd :: spaces)
    (hp : present (W d i)) (hv : pfn v = pfn (W d i)) (hpv : present v)
    (hwv : writable (W d i) → writable v) :
    VmInv L Low (W.set d i v) free spaces ∧
      ∀ d' ∈ L.kpd :: spaces, ∀ i' j' : Fin 1024,
        (W.set d i v).entry d' i' j' = W.entry d' i' j' := by
  -- every directory word keeps its target and stays present, writable if it was
  have hdir : ∀ d' i', pfn (W.set d i v d' i') = pfn (W d' i') ∧
      (present (W.set d i v d' i') ↔ present (W d' i')) ∧
      (writable (W d' i') → writable (W.set d i v d' i')) := fun d' i' => by
    by_cases hs : d' = d ∧ i' = i
    · obtain ⟨rfl, rfl⟩ := hs
      rw [set_same]
      exact ⟨hv, ⟨fun _ => hp, fun _ => hpv⟩, hwv⟩
    · rw [set_other hs]
      exact ⟨rfl, Iff.rfl, id⟩
  refine ⟨⟨h.free_frame, h.space, ?_, ?_, ?_, ?_⟩, fun d' hd' i' j' => ?_⟩
  · intro d' hd' i' hi'
    obtain ⟨h1, h2, h3⟩ := h.lowPde d' hd' i' hi'
    obtain ⟨e1, e2, e3⟩ := hdir d' i'
    exact ⟨e2.mpr h1, e3 h2, e1.trans h3⟩
  · intro n hn
    rw [h.lowEntry_set_dir hd hn]
    exact h.lowPte n hn
  · intro d' hd' i' hi' hp'
    obtain ⟨h1, h2, h3, h4, h5⟩ := h.table d' hd' i' hi' ((hdir d' i').2.1.mp hp')
    rw [(hdir d' i').1]
    exact ⟨h1, h2, h3, h4, (hdir d' i').2.2 h5⟩
  · intro d₁ hd₁ d₂ hd₂ i₁ i₂ hi₁ hi₂ hp₁ hp₂ heq
    rw [(hdir d₁ i₁).1, (hdir d₂ i₂).1] at heq
    exact h.inj d₁ hd₁ d₂ hd₂ i₁ i₂ hi₁ hi₂ ((hdir d₁ i₁).2.1.mp hp₁) ((hdir d₂ i₂).2.1.mp hp₂) heq
  · have htab : present (W d' i') → W.set d i v (pfn (W d' i')) j' = W (pfn (W d' i')) j' :=
      fun hp' => set_page_ne (h.dir_ne_target hd' hp' hd).symm
    by_cases hp' : present (W d' i')
    · have hp'' := (hdir d' i').2.1.mpr hp'
      simp only [Tables.entry, hp', hp'', true_and, (hdir d' i').1, htab hp']
    · rw [entry_of_absent hp', entry_of_absent (fun hh => hp' ((hdir d' i').2.1.mp hh))]

/-- **Hooking an empty frame into a directory** as a new table changes no walk. -/
theorem VmInv.addTable {v : Nat} (h : VmInv L Low W free spaces) (hd : d ∈ L.kpd :: spaces)
    (hi : 20 ≤ (i : Nat)) (hnp : ¬ present (W d i)) (ht : t ∈ free)
    (hzero : ∀ j, ¬ present (W t j)) (hv : pfn v = t) (hwv : writable v) :
    VmInv L Low (W.set d i v) (free.erase t) spaces ∧
      ∀ d' ∈ L.kpd :: spaces, ∀ i' j' : Fin 1024,
        (W.set d i v).entry d' i' j' = W.entry d' i' j' := by
  obtain ⟨htf, hts⟩ := h.free_frame t ht
  have hnot := h.not_inUse_of_free ht
  have htd : ∀ d' ∈ L.kpd :: spaces, d' ≠ t := fun d' hd' heq => hnot (heq ▸ inUse_dir hd')
  have hmem : ∀ q, q ∉ free → q ∉ free.erase t := fun q hq hm => hq (Finset.mem_of_mem_erase hm)
  refine ⟨⟨fun q hq => h.free_frame q (Finset.mem_of_mem_erase hq), fun d' hd' => ?_, ?_, ?_, ?_, ?_⟩,
    fun d' hd' i' j' => ?_⟩
  · obtain ⟨h1, h2, h3⟩ := h.space d' hd'
    exact ⟨h1, hmem _ h2, h3⟩
  · intro d' hd' i' hi'
    rw [set_other (fun hh => by rw [hh.2] at hi'; omega)]
    exact h.lowPde d' hd' i' hi'
  · intro n hn
    rw [h.lowEntry_set_dir hd hn]
    exact h.lowPte n hn
  · intro d' hd' i' hi' hp'
    by_cases hs : d' = d ∧ i' = i
    · obtain ⟨rfl, rfl⟩ := hs
      rw [set_same, hv]
      exact ⟨htf, fun hm => (Finset.mem_erase.mp hm).1 rfl, fun hm => hnot (Or.inr (Or.inl hm)), hts,
        hwv⟩
    · rw [set_other hs] at hp' ⊢
      obtain ⟨h1, h2, h3⟩ := h.table d' hd' i' hi' hp'
      exact ⟨h1, hmem _ h2, h3⟩
  · -- the old tables are in use, so none of them is `t`
    have hold : ∀ d' ∈ L.kpd :: spaces, ∀ i' : Fin 1024, 20 ≤ (i' : Nat) → present (W d' i') →
        pfn (W d' i') ≠ t := fun d' hd' i' _ hp' heq => hnot (heq ▸ h.inUse_table hd' hp')
    intro d₁ hd₁ d₂ hd₂ i₁ i₂ hi₁ hi₂ hp₁ hp₂ heq
    by_cases hs₁ : d₁ = d ∧ i₁ = i <;> by_cases hs₂ : d₂ = d ∧ i₂ = i
    · exact ⟨hs₁.1.trans hs₂.1.symm, hs₁.2.trans hs₂.2.symm⟩
    · rw [set_other hs₂] at hp₂ heq
      rw [hs₁.1, hs₁.2, set_same, hv] at heq
      exact absurd heq.symm (hold d₂ hd₂ i₂ hi₂ hp₂)
    · rw [set_other hs₁] at hp₁ heq
      rw [hs₂.1, hs₂.2, set_same, hv] at heq
      exact absurd heq (hold d₁ hd₁ i₁ hi₁ hp₁)
    · rw [set_other hs₁] at hp₁ heq
      rw [set_other hs₂] at hp₂ heq
      exact h.inj d₁ hd₁ d₂ hd₂ i₁ i₂ hi₁ hi₂ hp₁ hp₂ heq
  · by_cases hs : d' = d ∧ i' = i
    · obtain ⟨rfl, rfl⟩ := hs
      rw [entry_of_absent hnp]
      unfold Tables.entry
      rw [set_same, hv, set_page_ne (htd d' hd').symm, if_neg (fun hh => hzero j' hh.2)]
    · exact Lib.entry_congr (set_other hs)
        (fun hp' => set_page_ne (h.dir_ne_target hd' hp' hd).symm)

/-- **A new directory** in a free frame: the kernel's low entries and nothing else. -/
theorem VmInv.addSpace (h : VmInv L Low W free spaces) (hq : q ∈ free)
    (hoff : ∀ q', q' ≠ q → ∀ i, W' q' i = W q' i)
    (hlow : ∀ i : Fin 1024, (i : Nat) < 20 → W' q i = W L.kpd i)
    (hhigh : ∀ i : Fin 1024, 20 ≤ (i : Nat) → ¬ present (W' q i)) :
    VmInv L Low W' (free.erase q) (q :: spaces) ∧
      ∀ d' ∈ L.kpd :: spaces, ∀ i' j' : Fin 1024, W'.entry d' i' j' = W.entry d' i' j' := by
  obtain ⟨hqf, hqs⟩ := h.free_frame q hq
  have hnot := h.not_inUse_of_free hq
  have hsame : ∀ q', InUse L W spaces q' → ∀ i, W' q' i = W q' i := fun q' hu =>
    hoff q' (fun heq => hnot (heq ▸ hu))
  have hmem : ∀ q', q' ∉ free → q' ∉ free.erase q :=
    fun q' hq' hm => hq' (Finset.mem_of_mem_erase hm)
  -- the directories afterwards: the new one, or an old one whose words are as before
  have hsplit : ∀ d ∈ L.kpd :: q :: spaces, d = q ∨ d ∈ L.kpd :: spaces ∧ ∀ i, W' d i = W d i := by
    intro d hd
    by_cases hdq : d = q
    · exact Or.inl hdq
    · exact Or.inr ⟨dirs_of_ne hd hdq, hsame d (inUse_dir (dirs_of_ne hd hdq))⟩
  refine ⟨⟨fun p hp => h.free_frame p (Finset.mem_of_mem_erase hp), fun d hd => ?_, fun d hd i hi => ?_,
    fun n hn => ?_, fun d hd i hi hp => ?_, ?_⟩, fun d hd i j => h.entry_congr hd hsame⟩
  · rcases List.mem_cons.mp hd with rfl | hd
    · exact ⟨hqf, fun hm => (Finset.mem_erase.mp hm).1 rfl, hqs⟩
    · obtain ⟨h1, h2, h3⟩ := h.space d hd
      exact ⟨h1, hmem _ h2, h3⟩
  · rcases hsplit d hd with rfl | ⟨hd', hW⟩
    · rw [hlow i hi]
      exact h.lowPde L.kpd (by simp) i hi
    · rw [hW i]
      exact h.lowPde d hd' i hi
  · rw [lowEntry, hsame _ (Or.inl (kpt_static L (by omega)))]
    exact h.lowPte n hn
  · rcases hsplit d hd with rfl | ⟨hd', hW⟩
    · exact absurd hp (hhigh i hi)
    · rw [hW i] at hp ⊢
      obtain ⟨h1, h2, h3, h4⟩ := h.table d hd' i hi hp
      refine ⟨h1, hmem _ h2, fun hm => ?_, h4⟩
      rcases List.mem_cons.mp hm with heq | hm
      · exact h2 (heq ▸ hq)
      · exact h3 hm
  · intro d₁ hd₁ d₂ hd₂ i₁ i₂ hi₁ hi₂ hp₁ hp₂ heq
    rcases hsplit d₁ hd₁ with rfl | ⟨hd₁', hW₁⟩
    · exact absurd hp₁ (hhigh i₁ hi₁)
    · rcases hsplit d₂ hd₂ with rfl | ⟨hd₂', hW₂⟩
      · exact absurd hp₂ (hhigh i₂ hi₂)
      · rw [hW₁] at hp₁ heq
        rw [hW₂] at hp₂ heq
        exact h.inj d₁ hd₁' d₂ hd₂' i₁ i₂ hi₁ hi₂ hp₁ hp₂ heq

end Facts

end JarvOs.Memory
