/-
# What the functions of `vmm.c` do to the page tables

Each function is run once, symbolically, against the state of `VmInv`.  The bridge from code to
tables is short: directories, tables and frames all lie below 80 MB, where an address that
translates at all translates to itself, so every load and store of `vmm.c` IS an access to the
page it names (`load32_low`, `store32_low`).  What a function then does is one of the edits of
the previous module, or a few in a row.

`VmStep` collects what holds of all of them: the invariant, and the frame -- a byte of a page that
is neither in use as directory or table nor free is not touched.
-/
import JarvOs.Memory.PageTables

namespace JarvOs.Memory

open JarvOs.Lib

/-! ## 1. Machines with paging on -/

/-- What the entry of a low page may be: if it is present, it is the identity; and it is present
if `T`. -/
structure LowSpec (T : Prop) (Low : Nat → Nat → Prop) : Prop where
  identity : ∀ {n e : Nat}, Low n e → present e → pfn e = n
  total : ∀ {n e : Nat}, T → Low n e → present e

/-- Paging is on, CR3 holds one of the directories, and the tables are in order. -/
structure MachInv (L : Layout) (Low : Nat → Nat → Prop) (m : Machine) (spaces : List Nat) :
    Prop where
  paging : m.paging = true
  cr3 : m.cr3 = 4096 * m.dir
  dir : m.dir ∈ L.kpd :: spaces
  vm : VmInv L Low (tables m.mem) (freeFrames m.bitmap) spaces

variable {L : Layout} {T : Prop} {Low : Nat → Nat → Prop} {m m' m'' : Machine}
  {spaces spaces' spaces'' : List Nat}

theorem dirIdx_high {va : Nat} (hva : va < 2 ^ 32) (hhigh : 20480 * 4096 ≤ va) :
    20 ≤ (dirIdx va : Nat) := by
  rw [dirIdx_val hva]
  omega

theorem dirIdx_low {va : Nat} (hlow : va < 20480 * 4096) : (dirIdx va : Nat) < 20 := by
  rw [dirIdx_val (by omega)]
  omega

/-- The walk of a low address, in any directory, ends at the entry of its low page. -/
theorem VmInv.low_entry {W : Tables} {free : Finset Nat} (h : VmInv L Low W free spaces)
    {d va : Nat} (hd : d ∈ L.kpd :: spaces) (hva : va < 20480 * 4096) :
    present (W d (dirIdx va)) ∧ W (pfn (W d (dirIdx va))) (tabIdx va) =
      lowEntry L W (va / 4096) := by
  obtain ⟨hp, -, hpfn⟩ := h.lowPde d hd (dirIdx va) (dirIdx_low hva)
  refine ⟨hp, ?_⟩
  rw [hpfn, lowEntry, dirIdx_val (by omega), Nat.div_div_eq_div_mul]
  rfl

/-- Below 80 MB an address that translates is its own translation. -/
theorem translate_low (hS : LowSpec T Low) (hM : MachInv L Low m spaces) {va : Nat}
    (hva : va < 20480 * 4096) : Ensures T (m.translate va) (· = va) := by
  obtain ⟨hp, hentry⟩ := hM.vm.low_entry hM.dir hva
  have hlow := hM.vm.lowPte (va / 4096) (by omega)
  rw [Machine.translate, if_pos hM.paging]
  by_cases hpte : present (lowEntry L (tables m.mem) (va / 4096))
  · refine .of_eq (walk_of_entry (Lib.entry_of_present hp ?_)) ?_
    · rw [hentry]
      exact hpte
    · rw [hentry, hS.identity hlow hpte]
      omega
  · refine ⟨fun a ha => ?_, fun hT => absurd (hS.total hT hlow) hpte⟩
    have hnone : (tables m.mem).entry m.dir (dirIdx va) (tabIdx va) = none := by
      rw [Tables.entry, hentry, if_neg (fun hh => hpte hh.2)]
    rw [Tables.walk, hnone] at ha
    exact absurd ha (by simp)

theorem store32_of_translate {va v : Nat} (hva : va + 4 ≤ 2 ^ 32)
    (h : ∀ k < 4, Ensures T (m.translate (va + k)) (· = va + k)) :
    Ensures T (m.store32 va v) (· = { m with mem := setWord m.mem va v }) := by
  have h0 := h 0 (by norm_num)
  rw [Nat.add_zero] at h0
  have hput : m.store32 va v = _ := put32_of_le m hva v
  rw [hput]
  refine h0.bind ?_
  rintro _ rfl
  refine (h 1 (by norm_num)).bind ?_
  rintro _ rfl
  refine (h 2 (by norm_num)).bind ?_
  rintro _ rfl
  refine (h 3 (by norm_num)).bind ?_
  rintro _ rfl
  exact .ret (by rw [setByte_four])

theorem load32_of_translate {va : Nat} (hva : va + 4 ≤ 2 ^ 32)
    (h : ∀ k < 4, Ensures T (m.translate (va + k)) (· = va + k)) :
    Ensures T (m.load32 va) (· = pword m.mem va) := by
  have hget : ∀ k < 4, Ensures T (mmu.get m (va + k)) (· = m.mem (va + k)) := fun k hk =>
    (h k hk).map (fun a ha => by rw [ha])
  have h0 := hget 0 (by norm_num)
  rw [Nat.add_zero] at h0
  rw [Machine.load32, ByteEnv.get32_of_le mmu m hva]
  refine h0.bind ?_
  rintro _ rfl
  refine (hget 1 (by norm_num)).bind ?_
  rintro _ rfl
  refine (hget 2 (by norm_num)).bind ?_
  rintro _ rfl
  refine (hget 3 (by norm_num)).bind ?_
  rintro _ rfl
  exact .ret rfl

/-- **A store of `vmm.c`** to word `i` of a low page. -/
theorem store32_low (hS : LowSpec T Low) (hM : MachInv L Low m spaces) {q : Nat} (hq : q < 20480)
    (i : Fin 1024) (v : Nat) :
    Ensures T (m.store32 (add32 (4096 * q) (4 * i)) v)
      (· = { m with mem := setWord m.mem (4096 * q + 4 * i) v }) := by
  have hi := i.isLt
  rw [add32_of_lt (by omega)]
  exact store32_of_translate (by omega) (fun k hk => translate_low hS hM (by omega))

/-- **A load of `vmm.c`** from word `i` of a low page. -/
theorem load32_low (hS : LowSpec T Low) (hM : MachInv L Low m spaces) {q : Nat} (hq : q < 20480)
    (i : Fin 1024) :
    Ensures T (m.load32 (add32 (4096 * q) (4 * i))) (· = tables m.mem q i) := by
  have hi := i.isLt
  rw [add32_of_lt (by omega)]
  exact load32_of_translate (by omega) (fun k hk => translate_low hS hM (by omega))

/-! ## 2. Loops over pages -/

/-- The words `i` to `i + n` from page `q` on replaced by `f`. -/
def fillTables (W : Tables) (q : Nat) (f : Nat → Nat) (i n : Nat) : Tables := fun q' j =>
  if q ≤ q' ∧ i ≤ 1024 * (q' - q) + j ∧ 1024 * (q' - q) + j < i + n then f (1024 * (q' - q) + j)
  else W q' j

theorem fillTables_zero (W : Tables) (q : Nat) (f : Nat → Nat) (i : Nat) :
    fillTables W q f i 0 = W := by
  funext q' j
  rw [fillTables, if_neg (by omega)]

theorem fillTables_succ (W : Tables) (q : Nat) (f : Nat → Nat) (i n : Nat) :
    fillTables (W.set (q + i / 1024) (Fin.ofNat 1024 i) (f i)) q f (i + 1) n =
      fillTables W q f i (n + 1) := by
  funext q' j
  have hj := j.isLt
  by_cases hi : q ≤ q' ∧ 1024 * (q' - q) + j = i
  · have hset : q' = q + i / 1024 ∧ j = Fin.ofNat 1024 i := by
      refine ⟨by omega, Fin.ext ?_⟩
      simp only [Fin.val_ofNat]
      omega
    rw [fillTables, fillTables, if_neg (by omega), if_pos (by omega), hset.1, hset.2, set_same,
      ← hset.1, ← hset.2, hi.2]
  · have hset : ¬ (q' = q + i / 1024 ∧ j = Fin.ofNat 1024 i) := by
      rintro ⟨h1, h2⟩
      have h2 := Fin.ext_iff.mp h2
      simp only [Fin.val_ofNat] at h2
      omega
    by_cases hin : q ≤ q' ∧ i + 1 ≤ 1024 * (q' - q) + j ∧ 1024 * (q' - q) + j < i + 1 + n
    · rw [fillTables, fillTables, if_pos hin, if_pos (by omega)]
    · rw [fillTables, fillTables, if_neg hin, if_neg (by omega), set_other hset]

/-- **A filling loop**, under any invariant `I` of machines that makes its stores go where they
point and that they keep. -/
theorem fillWords_spec {I : Machine → Prop} {q a b : Nat} {f : Nat → Nat}
    (hf : ∀ k, f k < 2 ^ 32) (hq : 4096 * q + 4 * b ≤ 2 ^ 32)
    (hstore : ∀ (m : Machine) (k : Nat), I m → a ≤ k → k < b →
      Ensures T (m.store32 (4096 * q + 4 * k) (f k)) (fun m' =>
        m' = { m with mem := setWord m.mem (4096 * q + 4 * k) (f k) } ∧ I m')) :
    ∀ (n i : Nat) (m : Machine), a ≤ i → i + n ≤ b → I m →
      Ensures T (Machine.fillWords (4096 * q) f m i n) (fun m' => I m' ∧
        ∃ mem, m' = { m with mem := mem } ∧ tables mem = fillTables (tables m.mem) q f i n) := by
  intro n
  induction n with
  | zero =>
    intro i m _ _ hI
    exact .ret ⟨hI, m.mem, rfl, (fillTables_zero _ _ _ _).symm⟩
  | succ n ih =>
    intro i m hlo hhi hI
    rw [Machine.fillWords, add32_of_lt (by omega)]
    refine (hstore m i hI hlo (by omega)).bind ?_
    rintro _ ⟨rfl, hI'⟩
    refine (ih (i + 1) _ (by omega) (by omega) hI').mono ?_
    rintro m' ⟨hI'', mem, rfl, htab⟩
    refine ⟨hI'', mem, rfl, ?_⟩
    have hsplit : 4096 * q + 4 * i = 4096 * (q + i / 1024) + 4 * ((Fin.ofNat 1024 i : Fin 1024) : Nat) := by
      simp only [Fin.val_ofNat]
      omega
    rw [htab]
    simp only
    rw [hsplit, tables_setWord _ _ _ (hf i), fillTables_succ]

theorem fillTables_page (W : Tables) (q : Nat) (f : Nat → Nat) {n : Nat} (hn : n ≤ 1024) (q' : Nat)
    (j : Fin 1024) : fillTables W q f 0 n q' j = if q' = q ∧ (j : Nat) < n then f j else W q' j := by
  have hj := j.isLt
  by_cases h : q' = q ∧ (j : Nat) < n
  · obtain ⟨rfl, hjn⟩ := h
    rw [if_pos ⟨rfl, hjn⟩, fillTables, if_pos (by omega), Nat.sub_self, Nat.mul_zero, Nat.zero_add]
  · rw [if_neg h, fillTables, if_neg (by omega)]

/-! ## 3. What every function keeps -/

/-- The effect of a function of `vmm.c` on a machine: the tables stay in order, frames are only
taken, what becomes a directory or table was one or was free, and no other page is touched. -/
structure VmStep (L : Layout) (Low : Nat → Nat → Prop) (m : Machine) (spaces : List Nat)
    (m' : Machine) (spaces' : List Nat) : Prop where
  inv : MachInv L Low m' spaces'
  cr3 : m'.cr3 = m.cr3
  free : freeFrames m'.bitmap ⊆ freeFrames m.bitmap
  used : ∀ q, InUse L (tables m'.mem) spaces' q →
    InUse L (tables m.mem) spaces q ∨ q ∈ freeFrames m.bitmap
  frame : ∀ q, ¬ InUse L (tables m.mem) spaces q → q ∉ freeFrames m.bitmap →
    ∀ i, tables m'.mem q i = tables m.mem q i

theorem VmStep.refl (hM : MachInv L Low m spaces) : VmStep L Low m spaces m spaces :=
  ⟨hM, rfl, subset_rfl, fun _ h => Or.inl h, fun _ _ _ _ => rfl⟩

theorem VmStep.trans (h₁ : VmStep L Low m spaces m' spaces')
    (h₂ : VmStep L Low m' spaces' m'' spaces'') : VmStep L Low m spaces m'' spaces'' := by
  refine ⟨h₂.inv, h₂.cr3.trans h₁.cr3, h₂.free.trans h₁.free, fun q hq => ?_, fun q hu hf i => ?_⟩
  · rcases h₂.used q hq with h | h
    · exact h₁.used q h
    · exact Or.inr (h₁.free h)
  · have hu' : ¬ InUse L (tables m'.mem) spaces' q := fun h => (h₁.used q h).elim hu hf
    rw [h₂.frame q hu' (fun h => hf (h₁.free h)) i, h₁.frame q hu hf i]

theorem VmStep.dir (h : VmStep L Low m spaces m' spaces') : m'.dir = m.dir := by
  rw [Machine.dir, Machine.dir, h.cr3]

/-- Directories decide what is in use. -/
theorem inUse_congr {W W' : Tables} {q : Nat} (hW : ∀ d ∈ L.kpd :: spaces, ∀ i, W' d i = W d i)
    (h : InUse L W' spaces q) : InUse L W spaces q := by
  rcases h with h | h | ⟨d, hd, i, hi, hp, rfl⟩
  · exact Or.inl h
  · exact Or.inr (Or.inl h)
  · rw [hW d hd i] at hp ⊢
    exact Or.inr (Or.inr ⟨d, hd, i, hi, hp, rfl⟩)

/-- Every page the tables are about lies below 80 MB. -/
theorem VmInv.inUse_low {W : Tables} {free : Finset Nat} (h : VmInv L Low W free spaces) {q : Nat}
    (hu : InUse L W spaces q) : q < 20480 := by
  have h1 := L.kpd_low
  have h2 := L.kpt_low
  rcases hu with (rfl | hs) | hs | ⟨d, hd, i, hi, hp, rfl⟩
  · exact h1
  · omega
  · have := (h.space q hs).1.2
    omega
  · have := (h.table d hd i hi hp).1.2
    omega

theorem MachInv.dir_low (hM : MachInv L Low m spaces) : m.dir < 20480 :=
  hM.vm.inUse_low (inUse_dir hM.dir)

/-- **An entry of the directory in `cr3`**, read at the address the VMM uses. -/
theorem load32_dir (hS : LowSpec T Low) (hM : MachInv L Low m spaces) (i : Fin 1024) :
    Ensures T (m.load32 (add32 (vmmGetCurrentDirectory m) (4 * i))) (· = tables m.mem m.dir i) := by
  rw [show vmmGetCurrentDirectory m = 4096 * m.dir from hM.cr3]
  exact load32_low hS hM hM.dir_low i

/-- One store to a page in use, given what it does to the tables. -/
theorem VmStep.of_setWord (hM : MachInv L Low m spaces) {q : Nat} {i : Fin 1024} {v : Nat}
    (hv : v < 2 ^ 32) (hq : InUse L (tables m.mem) spaces q)
    (hvm : VmInv L Low ((tables m.mem).set q i v) (freeFrames m.bitmap) spaces)
    (hused : ∀ p, InUse L ((tables m.mem).set q i v) spaces p → InUse L (tables m.mem) spaces p) :
    VmStep L Low m spaces { m with mem := setWord m.mem (4096 * q + 4 * i) v } spaces := by
  have htab := tables_setWord m.mem q i hv
  refine ⟨⟨hM.paging, hM.cr3, hM.dir, ?_⟩, rfl, subset_rfl, fun p hp => Or.inl (hused p ?_),
    fun p hu _ j => ?_⟩
  · simp only [htab]
    exact hvm
  · simpa only [htab] using hp
  · simp only [htab]
    exact set_page_ne (fun heq => hu (heq ▸ hq))

/-- Taking a frame. -/
theorem MachInv.take (hM : MachInv L Low m spaces) {q : Nat} {bm : Bitmap}
    (hbm : freeFrames bm = (freeFrames m.bitmap).erase q) :
    MachInv L Low { m with bitmap := bm } spaces :=
  ⟨hM.paging, hM.cr3, hM.dir, by
    simp only [hbm]
    exact hM.vm.shrink (Finset.erase_subset _ _)⟩

/-- Filling a page that is neither a directory nor a low table. -/
theorem fillPage_spec (hS : LowSpec T Low) (hM : MachInv L Low m spaces) {q n : Nat} {f : Nat → Nat}
    (hf : ∀ k, f k < 2 ^ 32) (hn : n ≤ 1024) (hq : q < 20480) (hstat : ¬ L.Static q)
    (hspace : q ∉ spaces) :
    Ensures T (Machine.fillWords (4096 * q) f m 0 n) (fun m' => MachInv L Low m' spaces ∧
      ∃ mem, m' = { m with mem := mem } ∧ tables mem = fillTables (tables m.mem) q f 0 n) := by
  refine fillWords_spec (I := fun m => MachInv L Low m spaces) (a := 0) (b := 1024) hf (by omega)
    (fun m k hM _ hk => ?_) n 0 m (le_refl 0) (by omega) hM
  have hst := store32_low hS hM hq ⟨k, hk⟩ (f k)
  rw [add32_of_lt (by simp only; omega)] at hst
  refine hst.mono ?_
  rintro _ rfl
  refine ⟨rfl, hM.paging, hM.cr3, hM.dir, ?_⟩
  have htab := tables_setWord m.mem q ⟨k, hk⟩ (hf k)
  simp only at htab ⊢
  rw [htab]
  refine hM.vm.congr (fun p hp i => set_page_ne ?_)
  rintro rfl
  exact hp.elim hstat hspace

/-- Copying the first words of one page to another that is neither a directory nor a low table. -/
theorem copyPage_spec (hS : LowSpec T Low) {q s n : Nat} (hn : n ≤ 1024) (hq : q < 20480)
    (hs : s < 20480) (hsq : s ≠ q) (hstat : ¬ L.Static q) (hspace : q ∉ spaces) {S : Fin 1024 → Nat}
    (hS32 : ∀ i, S i < 2 ^ 32) :
    ∀ (k i : Nat) (m : Machine), i + k ≤ n → MachInv L Low m spaces → tables m.mem s = S →
      Ensures T (Machine.copyWords (4096 * q) (4096 * s) m i k) (fun m' =>
        MachInv L Low m' spaces ∧ ∃ mem, m' = { m with mem := mem } ∧
          tables mem = fillTables (tables m.mem) q (fun k => S (Fin.ofNat 1024 k)) i k) := by
  intro k
  induction k with
  | zero =>
    intro i m _ hM _
    exact .ret ⟨hM, m.mem, rfl, (fillTables_zero _ _ _ _).symm⟩
  | succ k ih =>
    intro i m hi hM hsrc
    have hi' : i < 1024 := by omega
    rw [Machine.copyWords]
    refine (load32_low hS hM hs ⟨i, hi'⟩).bind ?_
    rintro _ rfl
    have hval : tables m.mem s ⟨i, hi'⟩ = S (Fin.ofNat 1024 i) := by
      rw [hsrc]
      congr 1
      exact Fin.ext (Nat.mod_eq_of_lt hi').symm
    rw [hval]
    refine (store32_low hS hM hq ⟨i, hi'⟩ _).bind ?_
    rintro _ rfl
    have htab := tables_setWord m.mem q ⟨i, hi'⟩ (hS32 (Fin.ofNat 1024 i))
    simp only at htab
    have hM' : MachInv L Low
        { m with mem := setWord m.mem (4096 * q + 4 * i) (S (Fin.ofNat 1024 i)) } spaces := by
      refine ⟨hM.paging, hM.cr3, hM.dir, ?_⟩
      simp only [htab]
      refine hM.vm.congr (fun p hp j => set_page_ne ?_)
      rintro rfl
      exact hp.elim hstat hspace
    refine (ih (i + 1) _ (by omega) hM' ?_).mono ?_
    · simp only [htab]
      funext j
      rw [set_page_ne hsq, hsrc]
    · rintro m' ⟨hM'', mem, rfl, hmem⟩
      refine ⟨hM'', mem, rfl, ?_⟩
      rw [hmem]
      simp only [htab]
      rw [← fillTables_succ, Nat.div_eq_of_lt hi', Nat.add_zero]
      congr 2
      exact Fin.ext (Nat.mod_eq_of_lt hi').symm

/-! ## 4. The functions -/

theorem IsFrame.addr_ne_zero {q : Nat} (h : IsFrame q) : 4096 * q ≠ 0 := by
  have := h.1
  omega

theorem IsFrame.addr_lt {q : Nat} (h : IsFrame q) : 4096 * q < 2 ^ 32 := by
  have := h.2
  omega

theorem IsFrame.low {q : Nat} (h : IsFrame q) : q < 20480 := by
  have := h.2
  omega

/-- `vmm_create_address_space` takes a frame if there is one. -/
theorem createAddressSpace_frames {dir : Nat} (h : vmmCreateAddressSpace L m = some (dir, m')) :
    m'.cr3 = m.cr3 ∧ (freeFrames m.bitmap = ∅ ∧ freeFrames m'.bitmap = ∅ ∨
      ∃ q ∈ freeFrames m.bitmap, freeFrames m'.bitmap = (freeFrames m.bitmap).erase q) := by
  unfold vmmCreateAddressSpace at h
  rcases allocPage_spec m with ⟨halloc, hempty⟩ | ⟨q, hq, bm, halloc, hbm⟩
  · simp only [halloc, Option.bind_eq_bind, Option.bind_some, if_true, Option.some.injEq,
      Prod.mk.injEq] at h
    obtain ⟨-, rfl⟩ := h
    exact ⟨rfl, Or.inl ⟨hempty, hempty⟩⟩
  · simp only [halloc, Option.bind_eq_bind, Option.bind_some,
      if_neg (isFrame_of_free hq).addr_ne_zero, Option.bind_eq_some_iff, Option.some.injEq,
      Prod.mk.injEq] at h
    obtain ⟨m₁, hfill, m₂, hcopy, -, rfl⟩ := h
    obtain ⟨mem, rfl⟩ := (onlyMem_fillWords _ hfill).trans (onlyMem_copyWords _ hcopy)
    exact ⟨rfl, Or.inr ⟨q, hq, hbm⟩⟩

/-- **`vmm_create_address_space`**: out of memory, or a directory in a fresh frame; no walk of the
directories there were changes, and the new one has nothing above 80 MB. -/
theorem vmmCreateAddressSpace_spec (hS : LowSpec T Low) (hM : MachInv L Low m spaces) :
    Ensures T (vmmCreateAddressSpace L m) (fun r =>
      (r = (0, m) ∧ freeFrames m.bitmap = ∅) ∨
        ∃ q ∈ freeFrames m.bitmap, r.1 = 4096 * q ∧ VmStep L Low m spaces r.2 (q :: spaces) ∧
          (∀ d ∈ L.kpd :: spaces, ∀ i j : Fin 1024,
            (tables r.2.mem).entry d i j = (tables m.mem).entry d i j) ∧
          (∀ i j : Fin 1024, 20 ≤ (i : Nat) → (tables r.2.mem).entry q i j = none) ∧
          freeFrames r.2.bitmap = (freeFrames m.bitmap).erase q) := by
  rcases allocPage_spec m with ⟨halloc, hempty⟩ | ⟨q, hq, bm, halloc, hbm⟩
  · refine .of_eq ?_ (Or.inl ⟨rfl, hempty⟩)
    simp only [vmmCreateAddressSpace, halloc, Option.bind_eq_bind, Option.bind_some, if_true]
  · have hfr := isFrame_of_free hq
    have hnot := hM.vm.not_inUse_of_free hq
    have hstat : ¬ L.Static q := fun h => hnot (Or.inl h)
    have hspace : q ∉ spaces := fun h => hnot (Or.inr (Or.inl h))
    have hkq : L.kpd ≠ q := fun h => hstat (Or.inl h.symm)
    simp only [vmmCreateAddressSpace, halloc, Option.bind_eq_bind, Option.bind_some,
      if_neg hfr.addr_ne_zero]
    refine (fillPage_spec hS (hM.take hbm) (fun _ => by norm_num) (le_refl 1024) hfr.low hstat
      hspace).bind ?_
    rintro _ ⟨hM₁, mem₁, rfl, htab₁⟩
    -- the kernel's directory is another page, so clearing has left it alone
    have hkpd : tables mem₁ L.kpd = tables m.mem L.kpd := by
      funext i
      rw [htab₁, fillTables_page _ _ _ (le_refl 1024), if_neg (fun h => hkq h.1)]
    refine (copyPage_spec hS (n := 20) (by norm_num) hfr.low L.kpd_low hkq hstat hspace
      (fun i => tables_lt _ _ i) 20 0 _ (le_refl 20) hM₁ hkpd).bind ?_
    rintro _ ⟨hM₂, mem₂, rfl, htab₂⟩
    simp only at htab₁ htab₂ hM₂
    refine .ret (Or.inr ⟨q, hq, rfl, ?_⟩)
    have hW : ∀ q' (i : Fin 1024), tables mem₂ q' i = if q' = q then
        (if (i : Nat) < 20 then tables m.mem L.kpd i else 0) else tables m.mem q' i := by
      intro q' i
      have hi := i.isLt
      rw [htab₂, fillTables_page _ _ _ (by norm_num), htab₁, fillTables_page _ _ _ (le_refl 1024)]
      by_cases hqq : q' = q
      · by_cases hi20 : (i : Nat) < 20
        · rw [if_pos ⟨hqq, hi20⟩, if_pos hqq, if_pos hi20]
          congr 1
          exact Fin.ext (Nat.mod_eq_of_lt hi)
        · rw [if_neg (fun h => hi20 h.2), if_pos ⟨hqq, hi⟩, if_pos hqq, if_neg hi20]
      · rw [if_neg (fun h => hqq h.1), if_neg (fun h => hqq h.1), if_neg hqq]
    have hoff : ∀ q', q' ≠ q → ∀ i, tables mem₂ q' i = tables m.mem q' i := fun q' hne i => by
      rw [hW, if_neg hne]
    have hhigh : ∀ i : Fin 1024, 20 ≤ (i : Nat) → ¬ present (tables mem₂ q i) := fun i hi => by
      rw [hW, if_pos rfl, if_neg (by omega)]
      exact not_present_zero
    obtain ⟨hvm, hentry⟩ := hM.vm.addSpace hq hoff
      (fun i hi => by rw [hW, if_pos rfl, if_pos hi]) hhigh
    refine ⟨⟨⟨hM.paging, hM.cr3, dirs_cons hM.dir, ?_⟩, rfl, ?_, fun p hp => ?_,
      fun p hu hf i => ?_⟩, hentry, fun i j hi => entry_of_absent (hhigh i hi), hbm⟩
    · simp only [hbm]
      exact hvm
    · simp only [hbm]
      exact Finset.erase_subset _ _
    · rcases hp with hp | hp | ⟨d, hd, i, hi, hp, rfl⟩
      · exact Or.inl (Or.inl hp)
      · rcases List.mem_cons.mp hp with rfl | hp
        · exact Or.inr hq
        · exact Or.inl (Or.inr (Or.inl hp))
      · by_cases hdq : d = q
        · subst hdq
          exact absurd hp (hhigh i hi)
        · simp only [hoff d hdq] at hp ⊢
          exact Or.inl (Or.inr (Or.inr ⟨d, dirs_of_ne hd hdq, i, hi, hp, rfl⟩))
    · exact hoff p (fun heq => hf (heq ▸ hq)) i

/-- The directory entry of a table `vmm_map_page` allocates. -/
def pdeOf (t : Nat) : Nat := 4096 * t ||| pagePresent ||| pageWritable

theorem pdeOf_lt {t : Nat} (ht : IsFrame t) : pdeOf t < 2 ^ 32 :=
  or_low_lt (or_low_lt ht.addr_lt (by norm_num)) (by norm_num)

theorem pdeOf_pfn (t : Nat) : pfn (pdeOf t) = t := by
  rw [pdeOf, pfn_or _ (by norm_num), pfn_or _ (by norm_num), pfn_page]

theorem pdeOf_present (t : Nat) : present (pdeOf t) :=
  (present_or _ _).mpr (Or.inl ((present_or _ _).mpr (Or.inr (by decide))))

theorem pdeOf_writable (t : Nat) : writable (pdeOf t) := (writable_or _ _).mpr (Or.inr (by decide))

/-- The words after the fresh page `t` has been cleared and entered in directory `d`. -/
def hookTables (W : Tables) (d : Nat) (i : Fin 1024) (t : Nat) : Tables :=
  Tables.set (fun q j => if q = t then 0 else W q j) d i (pdeOf t)

/-- **A page table is allocated**: the frame is cleared, then entered in the directory. -/
theorem vmmEnsureTable_fresh (hS : LowSpec T Low) (hM : MachInv L Low m spaces) {i : Fin 1024}
    (hp : ¬ present (tables m.mem m.dir i)) {t : Nat} {bm : Bitmap} (ht : t ∈ freeFrames m.bitmap)
    (halloc : m.allocPage = some (4096 * t, { m with bitmap := bm }))
    (hbm : freeFrames bm = (freeFrames m.bitmap).erase t) :
    Ensures T (vmmEnsureTable m (vmmGetCurrentDirectory m) i) (fun r =>
      ∃ mem, r = (some (pdeOf t), { m with mem := mem, bitmap := bm }) ∧
        tables mem = hookTables (tables m.mem) m.dir i t) := by
  have hdlow := hM.dir_low
  have hfr := isFrame_of_free ht
  have hnot := hM.vm.not_inUse_of_free ht
  rw [show vmmGetCurrentDirectory m = 4096 * m.dir from hM.cr3, vmmEnsureTable]
  refine (load32_low hS hM hdlow i).bind ?_
  rintro _ rfl
  rw [if_pos (not_not.mp hp)]
  simp only [halloc, Option.bind_eq_bind, Option.bind_some, if_neg hfr.addr_ne_zero]
  refine (fillPage_spec hS (hM.take hbm) (fun _ => by norm_num) (le_refl 1024) hfr.low
    (fun h => hnot (Or.inl h)) (fun h => hnot (Or.inr (Or.inl h)))).bind ?_
  rintro _ ⟨hM₁, mem₁, rfl, htab₁⟩
  have hclear : tables mem₁ = fun q j => if q = t then 0 else tables m.mem q j := by
    funext q j
    rw [htab₁, fillTables_page _ _ _ (le_refl 1024)]
    simp only [j.isLt, and_true]
  refine (store32_low hS hM₁ hdlow i _).bind ?_
  rintro _ rfl
  refine .ret ⟨_, rfl, ?_⟩
  rw [hookTables, ← hclear]
  exact tables_setWord mem₁ m.dir i (pdeOf_lt hfr)

/-- With no frame left for a table nothing happens. -/
theorem vmmEnsureTable_out (hS : LowSpec T Low) (hM : MachInv L Low m spaces) {i : Fin 1024}
    (hp : ¬ present (tables m.mem m.dir i)) (hempty : freeFrames m.bitmap = ∅) :
    Ensures T (vmmEnsureTable m (vmmGetCurrentDirectory m) i) (· = (none, m)) := by
  rw [vmmEnsureTable]
  refine (load32_dir hS hM i).bind ?_
  rintro _ rfl
  rw [if_pos (not_not.mp hp)]
  rcases allocPage_spec m with ⟨halloc, -⟩ | ⟨t, ht, -⟩
  · simp only [halloc, Option.bind_eq_bind, Option.bind_some, if_true]
    exact .ret rfl
  · rw [hempty] at ht
    exact absurd ht (Finset.notMem_empty t)

/-- The first half of **`vmm_map_page`**: afterwards the directory entry is present, or memory is
out and nothing has changed.  No walk changes either way. -/
theorem vmmEnsureTable_spec (hS : LowSpec T Low) (hM : MachInv L Low m spaces) (i : Fin 1024) :
    Ensures T (vmmEnsureTable m (vmmGetCurrentDirectory m) i) (fun r =>
      VmStep L Low m spaces r.2 spaces ∧
      (∀ d ∈ L.kpd :: spaces, ∀ i' j' : Fin 1024,
        (tables r.2.mem).entry d i' j' = (tables m.mem).entry d i' j') ∧
      (present (tables m.mem m.dir i) → r.2 = m) ∧
      ((r.1 = none ∧ r.2 = m ∧ freeFrames m.bitmap = ∅ ∧ ¬ present (tables m.mem m.dir i)) ∨
        (r.1 = some (tables r.2.mem m.dir i) ∧ present (tables r.2.mem m.dir i)))) := by
  by_cases hp : present (tables m.mem m.dir i)
  · rw [vmmEnsureTable]
    refine (load32_dir hS hM i).bind ?_
    rintro _ rfl
    rw [if_neg hp]
    exact .ret ⟨VmStep.refl hM, fun _ _ _ _ => rfl, fun _ => rfl, Or.inr ⟨rfl, hp⟩⟩
  · have hi : 20 ≤ (i : Nat) := by
      by_contra hlt
      exact hp (hM.vm.lowPde m.dir hM.dir i (by omega)).1
    rcases allocPage_spec m with ⟨-, hempty⟩ | ⟨t, ht, bm, halloc, hbm⟩
    · refine (vmmEnsureTable_out hS hM hp hempty).mono ?_
      rintro _ rfl
      exact ⟨VmStep.refl hM, fun _ _ _ _ => rfl, fun _ => rfl, Or.inl ⟨rfl, rfl, hempty, hp⟩⟩
    · have hnot := hM.vm.not_inUse_of_free ht
      refine (vmmEnsureTable_fresh hS hM hp ht halloc hbm).mono ?_
      rintro _ ⟨mem, rfl, htab⟩
      -- first the fresh page is cleared, which touches nothing in use; then it is hooked in
      have hsame : ∀ q, InUse L (tables m.mem) spaces q → ∀ j,
          (if q = t then 0 else tables m.mem q j) = tables m.mem q j :=
        fun q hu j => if_neg (fun h : q = t => hnot (h ▸ hu))
      have hvm₁ := hM.vm.congr
        (fun q hq => hsame q (hq.elim Or.inl (fun h => Or.inr (Or.inl h))))
      obtain ⟨hvm₂, hentry₂⟩ := hvm₁.addTable hM.dir hi
        (by rwa [hsame _ (inUse_dir hM.dir)]) ht
        (fun j => by rw [if_pos rfl]; exact not_present_zero) (pdeOf_pfn t) (pdeOf_writable t)
      simp only [htab]
      refine ⟨⟨⟨hM.paging, hM.cr3, hM.dir, ?_⟩, rfl, ?_, fun q hq => ?_, fun q hu hf j => ?_⟩,
        fun d hd i' j' => ?_, fun hp' => absurd hp' hp, Or.inr ?_⟩
      · simp only [htab, hbm]
        exact hvm₂
      · simp only [hbm]
        exact Finset.erase_subset _ _
      · simp only [htab, hookTables] at hq
        rcases hq with hq | hq | ⟨d, hd, i', hi', hp', rfl⟩
        · exact Or.inl (Or.inl hq)
        · exact Or.inl (Or.inr (Or.inl hq))
        · by_cases hs : d = m.dir ∧ i' = i
          · rw [hs.1, hs.2, set_same, pdeOf_pfn]
            exact Or.inr ht
          · rw [set_other hs, hsame _ (inUse_dir hd)] at hp' ⊢
            exact Or.inl (Or.inr (Or.inr ⟨d, hd, i', hi', hp', rfl⟩))
      · simp only [htab, hookTables]
        rw [set_page_ne (fun h : q = m.dir => hu (by rw [h]; exact inUse_dir hM.dir)),
          if_neg (fun h : q = t => hf (h ▸ ht))]
      · rw [hookTables, hentry₂ d hd i' j']
        exact hM.vm.entry_congr hd hsame
      · rw [hookTables, set_same]
        exact ⟨rfl, pdeOf_present t⟩

/-- The entry `vmm_map_page` writes. -/
def pteOf (physAddr flags : Nat) : Nat :=
  (physAddr &&& 0xFFFFF000) ||| (flags &&& 0xFFF) ||| pagePresent

theorem pteOf_lt {p : Nat} (hp : p < 2 ^ 32) (flags : Nat) : pteOf p flags < 2 ^ 32 := by
  have hflags : flags &&& 0xFFF < 4096 := by
    rw [and_low_mask]
    exact Nat.mod_lt _ (by norm_num)
  exact or_low_lt (or_low_lt (lt_of_le_of_lt Nat.and_le_left hp) hflags) (by norm_num)

theorem pteOf_present (p flags : Nat) : present (pteOf p flags) :=
  (present_or _ _).mpr (Or.inr (by decide))

theorem pteOf_pfn {p : Nat} (hp : p < 2 ^ 32) (flags : Nat) : pfn (pteOf p flags) = pfn p := by
  have hflags : flags &&& 0xFFF < 4096 := by
    rw [and_low_mask]
    exact Nat.mod_lt _ (by norm_num)
  rw [pteOf, pfn_or _ (by norm_num), pfn_or _ hflags, pfn_mask hp]

/-- The entry of a frame leads to it. -/
theorem IsFrame.pteOf_pfn {q : Nat} (h : IsFrame q) (flags : Nat) : pfn (pteOf (4096 * q) flags) = q := by
  rw [Memory.pteOf_pfn h.addr_lt, pfn_page]

/-- A store to an entry of a high table. -/
theorem VmStep.setPte (hM : MachInv L Low m spaces) {d v : Nat} {i : Fin 1024}
    (hd : d ∈ L.kpd :: spaces) (hi : 20 ≤ (i : Nat)) (hp : present (tables m.mem d i))
    (j : Fin 1024) (hv : v < 2 ^ 32) :
    VmStep L Low m spaces
        { m with mem := setWord m.mem (4096 * pfn (tables m.mem d i) + 4 * j) v } spaces ∧
      ∀ d' ∈ L.kpd :: spaces, ∀ i' j' : Fin 1024,
        (tables (setWord m.mem (4096 * pfn (tables m.mem d i) + 4 * j) v)).entry d' i' j' =
          if d' = d ∧ i' = i ∧ j' = j then asEntry v else (tables m.mem).entry d' i' j' := by
  obtain ⟨hvm, hentry⟩ := hM.vm.setPte hd hi hp j v
  refine ⟨VmStep.of_setWord hM hv (hM.vm.inUse_table hd hp) hvm (fun q hq => ?_), ?_⟩
  · exact inUse_congr (fun d' hd' i' => set_page_ne (hM.vm.table_ne_dir hd hi hp hd')) hq
  · rw [tables_setWord _ _ _ hv]
    exact hentry

/-- Where the entry of low page `n` lies. -/
def lowEntryAddr (L : Layout) (n : Nat) : Nat :=
  4096 * (L.kpt + n / 1024) + 4 * ((Fin.ofNat 1024 n : Fin 1024) : Nat)

/-- A store to the entry of a low page. -/
theorem VmStep.setLow (hM : MachInv L Low m spaces) {n v : Nat} (hn : n < 20480) (hlow : Low n v)
    (hv : v < 2 ^ 32) :
    VmStep L Low m spaces { m with mem := setWord m.mem (lowEntryAddr L n) v } spaces ∧
      ∀ d' ∈ L.kpd :: spaces, ∀ i' j' : Fin 1024, 20 ≤ (i' : Nat) →
        (tables (setWord m.mem (lowEntryAddr L n) v)).entry d' i' j' =
          (tables m.mem).entry d' i' j' := by
  obtain ⟨hvm, hentry⟩ := hM.vm.setLow hn hlow
  refine ⟨VmStep.of_setWord hM hv (Or.inl (kpt_static L (by omega))) hvm (fun q hq => ?_), ?_⟩
  · refine inUse_congr (fun d' hd' i' => set_page_ne fun heq => ?_) hq
    exact hM.vm.dir_ne_lowTable hd' ⟨by omega, by omega⟩
  · rw [lowEntryAddr, tables_setWord _ _ _ hv]
    exact hentry

/-- The word of a low page's entry, as `vmm_map_page` and `vmm_unmap_page` address it. -/
theorem lowEntry_addr (hM : MachInv L Low m spaces) {va : Nat} (hlow : va < 20480 * 4096) :
    4096 * pfn (tables m.mem m.dir (dirIdx va)) + 4 * ((tabIdx va : Fin 1024) : Nat) =
      lowEntryAddr L (va / 4096) := by
  rw [lowEntryAddr, (hM.vm.lowPde m.dir hM.dir _ (dirIdx_low hlow)).2.2, dirIdx_val (by omega),
    Nat.div_div_eq_div_mul]
  rfl

/-- The store of `vmm_map_page` and `vmm_unmap_page` through a present directory entry. -/
theorem store_entry (hS : LowSpec T Low) (hM : MachInv L Low m spaces) {i : Fin 1024}
    (hp : present (tables m.mem m.dir i)) (j : Fin 1024) (v : Nat) :
    Ensures T (m.store32 (add32 (tables m.mem m.dir i &&& 0xFFFFF000) (4 * j)) v)
      (· = { m with mem := setWord m.mem (4096 * pfn (tables m.mem m.dir i) + 4 * j) v }) := by
  rw [and_frame_mask (tables_lt _ _ _)]
  exact store32_low hS hM (hM.vm.inUse_low (hM.vm.inUse_table hM.dir hp)) j v

/-- **`vmm_map_page` above 80 MB**: out of memory with nothing changed, or exactly the walk of the
mapped page in the current directory changes. -/
theorem vmmMapPage_high (hS : LowSpec T Low) (hM : MachInv L Low m spaces) {va p : Nat}
    (hva : va < 2 ^ 32) (hhigh : 20480 * 4096 ≤ va) (hp32 : p < 2 ^ 32) (flags : Nat) :
    Ensures T (vmmMapPage m va p flags) (fun r => VmStep L Low m spaces r.2 spaces ∧
      ((r.1 = -1 ∧ r.2 = m ∧ freeFrames m.bitmap = ∅) ∨
        (r.1 = 0 ∧ ∀ d ∈ L.kpd :: spaces, ∀ i j : Fin 1024, (tables r.2.mem).entry d i j =
          if d = m.dir ∧ i = dirIdx va ∧ j = tabIdx va then some (pteOf p flags)
          else (tables m.mem).entry d i j))) := by
  unfold vmmMapPage
  simp only [shift_dirIdx hva, shift_tabIdx, Option.bind_eq_bind]
  refine (vmmEnsureTable_spec hS hM (dirIdx va)).bind ?_
  rintro ⟨r, m₁⟩ ⟨hstep, hentry, -, hcase⟩
  simp only at hcase
  rcases hcase with ⟨rfl, rfl, hempty, -⟩ | ⟨rfl, hpres⟩
  · exact .ret ⟨hstep, Or.inl ⟨rfl, rfl, hempty⟩⟩
  · simp only at hstep hentry hpres ⊢
    have hdir := hstep.dir
    rw [← hdir] at hpres ⊢
    refine (store_entry hS hstep.inv hpres (tabIdx va) _).bind ?_
    rintro _ rfl
    obtain ⟨hstep₂, hentry₂⟩ := VmStep.setPte hstep.inv hstep.inv.dir (dirIdx_high hva hhigh) hpres
      (tabIdx va) (pteOf_lt hp32 flags)
    refine .ret ⟨hstep.trans hstep₂, Or.inr ⟨rfl, fun d hd i j => ?_⟩⟩
    have hset := hentry₂ d hd i j
    rw [asEntry, if_pos (pteOf_present p flags), hentry d hd i j] at hset
    exact hset

/-- **`vmm_map_page` below 80 MB**, with an entry `Low` allows: no walk above 80 MB changes, and no
frame is taken. -/
theorem vmmMapPage_low (hS : LowSpec T Low) (hM : MachInv L Low m spaces) {va p flags : Nat}
    (hlow : va < 20480 * 4096) (hp32 : p < 2 ^ 32) (hentry : Low (va / 4096) (pteOf p flags)) :
    Ensures T (vmmMapPage m va p flags) (fun r => r.1 = 0 ∧ VmStep L Low m spaces r.2 spaces ∧
      (∀ d ∈ L.kpd :: spaces, ∀ i j : Fin 1024, 20 ≤ (i : Nat) →
        (tables r.2.mem).entry d i j = (tables m.mem).entry d i j) ∧ r.2.bitmap = m.bitmap) := by
  have hpres := (hM.vm.lowPde m.dir hM.dir _ (dirIdx_low hlow)).1
  unfold vmmMapPage
  simp only [shift_dirIdx (show va < 2 ^ 32 by omega), shift_tabIdx, Option.bind_eq_bind]
  refine (vmmEnsureTable_spec hS hM (dirIdx va)).bind ?_
  rintro ⟨r, m₁⟩ ⟨-, -, hsame, hcase⟩
  have hm : m₁ = m := hsame hpres
  subst hm
  simp only at hcase
  rcases hcase with ⟨-, -, -, hnp⟩ | ⟨rfl, -⟩
  · exact absurd hpres hnp
  · refine (store_entry hS hM hpres (tabIdx va) _).bind ?_
    rintro _ rfl
    obtain ⟨hstep, hhigh⟩ := VmStep.setLow hM (n := va / 4096) (by omega) hentry
      (pteOf_lt hp32 flags)
    rw [← lowEntry_addr hM hlow] at hstep hhigh
    exact .ret ⟨rfl, hstep, hhigh, rfl⟩

/-- **`vmm_unmap_page` above 80 MB**: exactly the walk of that page in the current directory
changes, to nothing. -/
theorem vmmUnmapPage_high (hS : LowSpec T Low) (hM : MachInv L Low m spaces) {va : Nat}
    (hva : va < 2 ^ 32) (hhigh : 20480 * 4096 ≤ va) :
    Ensures T (vmmUnmapPage m va) (fun m' => VmStep L Low m spaces m' spaces ∧
      ∀ d ∈ L.kpd :: spaces, ∀ i j : Fin 1024, (tables m'.mem).entry d i j =
        if d = m.dir ∧ i = dirIdx va ∧ j = tabIdx va then none
        else (tables m.mem).entry d i j) := by
  unfold vmmUnmapPage
  simp only [shift_dirIdx hva, shift_tabIdx, Option.bind_eq_bind]
  refine (load32_dir hS hM (dirIdx va)).bind ?_
  rintro _ rfl
  by_cases hp : present (tables m.mem m.dir (dirIdx va))
  · rw [if_neg hp]
    refine (store_entry hS hM hp (tabIdx va) 0).mono ?_
    rintro _ rfl
    obtain ⟨hstep, hentry⟩ := VmStep.setPte hM hM.dir (dirIdx_high hva hhigh) hp (tabIdx va)
      (v := 0) (by norm_num)
    refine ⟨hstep, fun d hd i j => ?_⟩
    have hset := hentry d hd i j
    rwa [asEntry, if_neg not_present_zero] at hset
  · rw [if_pos (not_not.mp hp)]
    refine .ret ⟨VmStep.refl hM, fun d hd i j => ?_⟩
    by_cases hs : d = m.dir ∧ i = dirIdx va ∧ j = tabIdx va
    · rw [if_pos hs, hs.1, hs.2.1, entry_of_absent hp]
    · rw [if_neg hs]

/-- **`vmm_unmap_page` below 80 MB**, where `Low` allows an empty entry. -/
theorem vmmUnmapPage_low (hS : LowSpec T Low) (hM : MachInv L Low m spaces) {va : Nat}
    (hlow : va < 20480 * 4096) (hentry : Low (va / 4096) 0) :
    Ensures T (vmmUnmapPage m va) (fun m' => VmStep L Low m spaces m' spaces) := by
  have hpres := (hM.vm.lowPde m.dir hM.dir _ (dirIdx_low hlow)).1
  unfold vmmUnmapPage
  simp only [shift_dirIdx (show va < 2 ^ 32 by omega), shift_tabIdx, Option.bind_eq_bind]
  refine (load32_dir hS hM (dirIdx va)).bind ?_
  rintro _ rfl
  rw [if_neg hpres]
  refine (store_entry hS hM hpres (tabIdx va) 0).mono ?_
  rintro _ rfl
  obtain ⟨hstep, -⟩ := VmStep.setLow hM (n := va / 4096) (by omega) hentry (by norm_num)
  rw [← lowEntry_addr hM hlow] at hstep
  exact hstep

/-- Taking a frame touches nothing. -/
theorem VmStep.take (hM : MachInv L Low m spaces) {q : Nat} {bm : Bitmap}
    (hbm : freeFrames bm = (freeFrames m.bitmap).erase q) :
    VmStep L Low m spaces { m with bitmap := bm } spaces :=
  ⟨hM.take hbm, rfl, by simp only [hbm]; exact Finset.erase_subset _ _, fun _ h => Or.inl h,
    fun _ _ _ _ => rfl⟩

/-- **`vmm_alloc_map_page` above 80 MB**: `NULL` with no page and no frame lost, or a fresh frame
behind that one page. -/
theorem vmmAllocMapPage_high (hS : LowSpec T Low) (hM : MachInv L Low m spaces) {va : Nat}
    (hva : va < 2 ^ 32) (hhigh : 20480 * 4096 ≤ va) (flags : Nat) :
    Ensures T (vmmAllocMapPage m va flags) (fun r => VmStep L Low m spaces r.2 spaces ∧
      ((r.1 = 0 ∧ r.2.mem = m.mem ∧ freeFrames r.2.bitmap = freeFrames m.bitmap ∧
          (freeFrames m.bitmap).card ≤ 1) ∨
        (r.1 = va ∧ ∃ q ∈ freeFrames m.bitmap, q ∉ freeFrames r.2.bitmap ∧
          ¬ InUse L (tables r.2.mem) spaces q ∧
          ∀ d ∈ L.kpd :: spaces, ∀ i j : Fin 1024, (tables r.2.mem).entry d i j =
            if d = m.dir ∧ i = dirIdx va ∧ j = tabIdx va then some (pteOf (4096 * q) flags)
            else (tables m.mem).entry d i j))) := by
  unfold vmmAllocMapPage
  rcases allocPage_spec m with ⟨halloc, hempty⟩ | ⟨q, hq, bm, halloc, hbm⟩
  · simp only [halloc, Option.bind_eq_bind, Option.bind_some, if_true]
    exact .ret ⟨VmStep.refl hM, Or.inl ⟨rfl, rfl, rfl, by simp [hempty]⟩⟩
  · have hfr := isFrame_of_free hq
    have hnot := hM.vm.not_inUse_of_free hq
    simp only [halloc, Option.bind_eq_bind, Option.bind_some, if_neg hfr.addr_ne_zero]
    refine (vmmMapPage_high hS (hM.take hbm) hva hhigh hfr.addr_lt flags).bind ?_
    rintro ⟨r, m₁⟩ ⟨hstep, hcase⟩
    simp only at hstep hcase ⊢
    rcases hcase with ⟨rfl, rfl, hempty⟩ | ⟨rfl, hentry⟩
    · -- no page table to be had: the frame goes back
      rw [if_pos (by norm_num)]
      obtain ⟨bm', hfree, hcase⟩ := freePage_spec { m with bitmap := bm } (4096 * q)
      rw [Nat.mul_div_cancel_left q (by norm_num)] at hcase
      rcases hcase with ⟨-, hbm'⟩ | ⟨hnf, -⟩
      · have hback : freeFrames bm' = freeFrames m.bitmap := by
          rw [hbm', hbm, Finset.insert_erase hq]
        rw [hfree]
        refine .ret ⟨⟨⟨hM.paging, hM.cr3, hM.dir, ?_⟩, rfl, ?_, fun _ h => Or.inl h,
          fun _ _ _ _ => rfl⟩, Or.inl ⟨rfl, rfl, hback, ?_⟩⟩
        · simp only [hback]
          exact hM.vm
        · simp only [hback]
          exact subset_rfl
        · simp only [hbm] at hempty
          rw [← Finset.insert_erase hq, hempty]
          simp
      · exact absurd hfr hnf
    · rw [if_neg (not_not.mpr rfl)]
      have hfree := hstep.free
      simp only [hbm] at hfree
      refine .ret ⟨(VmStep.take hM hbm).trans hstep, Or.inr ⟨rfl, q, hq,
        fun h => (Finset.mem_erase.mp (hfree h)).1 rfl, fun h => ?_, hentry⟩⟩
      rcases hstep.used q h with h | h
      · exact hnot h
      · simp only [hbm] at h
        exact (Finset.mem_erase.mp h).1 rfl

/-- **`vmm_alloc_map_page` below 80 MB**, where `Low` allows the frame that comes. -/
theorem vmmAllocMapPage_low (hS : LowSpec T Low) (hM : MachInv L Low m spaces) {va flags : Nat}
    (hlow : va < 20480 * 4096)
    (hentry : ∀ q ∈ freeFrames m.bitmap, (∃ m₁, m.allocPage = some (4096 * q, m₁)) →
      Low (va / 4096) (pteOf (4096 * q) flags)) :
    Ensures T (vmmAllocMapPage m va flags) (fun r => VmStep L Low m spaces r.2 spaces) := by
  unfold vmmAllocMapPage
  rcases allocPage_spec m with ⟨halloc, hempty⟩ | ⟨q, hq, bm, halloc, hbm⟩
  · simp only [halloc, Option.bind_eq_bind, Option.bind_some, if_true]
    exact .ret (VmStep.refl hM)
  · have hfr := isFrame_of_free hq
    simp only [halloc, Option.bind_eq_bind, Option.bind_some, if_neg hfr.addr_ne_zero]
    refine (vmmMapPage_low hS (hM.take hbm) hlow hfr.addr_lt (hentry q hq ⟨_, halloc⟩)).bind ?_
    rintro ⟨r, m₁⟩ ⟨hr, hstep, -⟩
    simp only at hr hstep ⊢
    rw [if_neg (not_not.mpr hr)]
    exact .ret ((VmStep.take hM hbm).trans hstep)

/-! ## 5. `vmm_mark_user_range` -/

/-- A store to the flags of a present directory entry. -/
theorem VmStep.setFlags (hM : MachInv L Low m spaces) {d v : Nat} {i : Fin 1024}
    (hd : d ∈ L.kpd :: spaces) (hp : present (tables m.mem d i)) (hv : v < 2 ^ 32)
    (hpfn : pfn v = pfn (tables m.mem d i)) (hpv : present v)
    (hwv : writable (tables m.mem d i) → writable v) :
    VmStep L Low m spaces { m with mem := setWord m.mem (4096 * d + 4 * i) v } spaces := by
  obtain ⟨hvm, -⟩ := hM.vm.setFlags hd hp hpfn hpv hwv
  refine VmStep.of_setWord hM hv (inUse_dir hd) hvm (fun q hq => ?_)
  rcases hq with hq | hq | ⟨d', hd', i', -, hp', rfl⟩
  · exact Or.inl hq
  · exact Or.inr (Or.inl hq)
  · by_cases hs : d' = d ∧ i' = i
    · rw [hs.1, hs.2, set_same, hpfn]
      exact hM.vm.inUse_table hd hp
    · rw [set_other hs] at hp' ⊢
      exact hM.vm.inUse_table hd' hp'

theorem or_user_lt {e : Nat} (he : e < 2 ^ 32) : e ||| pageUser < 2 ^ 32 :=
  or_low_lt he (by norm_num)

/-- **One round of the loop**: nothing where the directory has no table, else the user bit is set in the
directory entry and then in the table entry. -/
theorem markUserPage_run (hS : LowSpec T Low) (hM : MachInv L Low m spaces) {addr : Nat}
    (haddr : addr < 2 ^ 32) :
    Ensures T (markUserPage m m.cr3 addr) (fun m' =>
      (¬ present (tables m.mem m.dir (dirIdx addr)) ∧ m' = m) ∨
      (present (tables m.mem m.dir (dirIdx addr)) ∧ ∃ m₁, VmStep L Low m spaces m₁ spaces ∧
        m₁ = { m with
          mem := setWord m.mem (4096 * m.dir + 4 * (dirIdx addr : Nat))
            (tables m.mem m.dir (dirIdx addr) ||| pageUser) } ∧
        present (tables m₁.mem m₁.dir (dirIdx addr)) ∧
        m' = { m₁ with
          mem := setWord m₁.mem
            (4096 * pfn (tables m₁.mem m₁.dir (dirIdx addr)) + 4 * (tabIdx addr : Nat))
            (tables m₁.mem (pfn (tables m₁.mem m₁.dir (dirIdx addr))) (tabIdx addr) |||
              pageUser) })) := by
  have hdlow := hM.dir_low
  rw [congrArg (fun dir => markUserPage m dir addr) hM.cr3]
  simp only [markUserPage, shift_dirIdx haddr, shift_tabIdx, Option.bind_eq_bind]
  refine (load32_low hS hM hdlow (dirIdx addr)).bind ?_
  rintro _ rfl
  by_cases hp : present (tables m.mem m.dir (dirIdx addr))
  · rw [if_neg hp, and_frame_mask (tables_lt _ _ _)]
    refine (load32_low hS hM hdlow (dirIdx addr)).bind ?_
    rintro _ rfl
    refine (store32_low hS hM hdlow (dirIdx addr) _).bind ?_
    intro m₁ hm₁
    have hv := or_user_lt (tables_lt m.mem m.dir (dirIdx addr))
    have hpfn : pfn (tables m.mem m.dir (dirIdx addr) ||| pageUser) =
        pfn (tables m.mem m.dir (dirIdx addr)) := pfn_or _ (by norm_num)
    have hpres : present (tables m.mem m.dir (dirIdx addr) ||| pageUser) :=
      (present_or _ _).mpr (Or.inl hp)
    have hstep := VmStep.setFlags hM hM.dir hp hv hpfn hpres
      (fun hw => (writable_or _ _).mpr (Or.inl hw))
    rw [← hm₁] at hstep
    -- the entry just written leads to the same table
    have hnow : tables m₁.mem m₁.dir (dirIdx addr) =
        tables m.mem m.dir (dirIdx addr) ||| pageUser := by
      rw [hstep.dir, hm₁]
      simp only
      rw [tables_setWord _ _ _ hv, set_same]
    have hlow := hstep.inv.vm.inUse_low (hstep.inv.vm.inUse_table hstep.inv.dir (hnow ▸ hpres))
    rw [hnow, hpfn] at hlow
    refine (load32_low hS hstep.inv hlow (tabIdx addr)).bind ?_
    rintro _ rfl
    refine (store32_low hS hstep.inv hlow (tabIdx addr) _).mono ?_
    rintro _ rfl
    refine Or.inr ⟨hp, m₁, hstep, hm₁, hnow ▸ hpres, ?_⟩
    rw [hnow, hpfn]
  · rw [if_pos (not_not.mp hp)]
    exact .ret (Or.inl ⟨hp, rfl⟩)

/-- **The loop of `vmm_mark_user_range`** ends, under any invariant of the address it has come to and
the machine. -/
theorem markUserPages_rule {dir stop : Nat} (hstop : stop < 2 ^ 32) (hstop' : 4096 ∣ stop)
    {I : Nat → Machine → Prop}
    (hround : ∀ m addr, addr < stop → I addr m →
      Ensures T (markUserPage m dir addr) (I (addr + 0x1000))) (fuel : Nat) :
    ∀ m addr, 4096 ∣ addr → (stop - addr) / 4096 < fuel → I addr m →
      Ensures T (markUserPages dir stop m fuel addr) (I (max addr stop)) := by
  induction fuel with
  | zero =>
    intro m addr _ hfuel
    omega
  | succ fuel ih =>
    intro m addr hal hfuel hI
    rw [markUserPages]
    by_cases hlt : addr < stop
    · rw [if_pos hlt, add32_of_lt (by omega)]
      refine (hround m addr hlt hI).bind ?_
      intro m₁ hI₁
      have hmax : max (addr + 0x1000) stop = max addr stop := by omega
      have hrest := ih m₁ (addr + 0x1000) (by omega) (by omega) hI₁
      rwa [hmax] at hrest
    · rw [if_neg hlt, Nat.max_eq_left (by omega)]
      exact .ret hI

section MarkUser

variable (hS : LowSpec T Low) (huser : ∀ {n e : Nat}, Low n e → Low n (e ||| pageUser))
include huser

/-- `pt[pti] |= PAGE_USER` -/
theorem VmStep.markEntry (hM : MachInv L Low m spaces) {addr : Nat} (haddr : addr < 2 ^ 32)
    (hp : present (tables m.mem m.dir (dirIdx addr))) :
    VmStep L Low m spaces { m with
      mem := setWord m.mem
        (4096 * pfn (tables m.mem m.dir (dirIdx addr)) + 4 * (tabIdx addr : Nat))
        (tables m.mem (pfn (tables m.mem m.dir (dirIdx addr))) (tabIdx addr) ||| pageUser) }
      spaces := by
  have hv := or_user_lt (tables_lt m.mem (pfn (tables m.mem m.dir (dirIdx addr))) (tabIdx addr))
  rcases Nat.lt_or_ge addr (20480 * 4096) with hl | hh
  · -- a low page keeps its frame
    have hentry := (hM.vm.low_entry hM.dir hl).2
    have hlowE := huser (hM.vm.lowPte (addr / 4096) (by omega))
    rw [← hentry] at hlowE
    have hstep := (VmStep.setLow hM (by omega) hlowE hv).1
    rwa [← lowEntry_addr hM hl] at hstep
  · exact (VmStep.setPte hM hM.dir (dirIdx_high haddr hh) hp (tabIdx addr) hv).1

include hS

/-- One page of the range. -/
theorem markUserPage_spec (hM : MachInv L Low m spaces) {addr : Nat} (haddr : addr < 2 ^ 32) :
    Ensures T (markUserPage m m.cr3 addr) (fun m' => VmStep L Low m spaces m' spaces) := by
  refine (markUserPage_run hS hM haddr).mono ?_
  rintro m' (⟨-, rfl⟩ | ⟨-, m₁, hstep, -, hp, rfl⟩)
  · exact VmStep.refl hM
  · exact hstep.trans (VmStep.markEntry huser hstep.inv haddr hp)

/-- **`vmm_mark_user_range`** keeps the tables in order, for any range. -/
theorem vmmMarkUserRange_spec (hM : MachInv L Low m spaces) {start len : Nat}
    (hstart : start < 2 ^ 32) :
    Ensures T (vmmMarkUserRange m start len) (fun m' => VmStep L Low m spaces m' spaces) := by
  have hend := add32_lt (add32 start len) 0xFFF
  unfold vmmMarkUserRange vmmGetCurrentDirectory
  simp only [and_page_mask hstart, and_page_mask hend]
  refine markUserPages_rule (I := fun _ m' => VmStep L Low m spaces m' spaces) (by omega)
    (Nat.dvd_mul_left _ _) ?_ _ m _ (Nat.dvd_mul_left _ _) (by omega) (VmStep.refl hM)
  intro m₁ addr hlt hstep
  rw [← hstep.cr3]
  exact (markUserPage_spec hS huser hstep.inv (by omega)).mono (fun m' hm' => hstep.trans hm')

end MarkUser

/-! ## 6. `vmm_init` -/

/-- With paging off a filling loop writes where it points. -/
theorem fillWords_unpaged (hm : m.paging = false) {q n : Nat} {f : Nat → Nat}
    (hf : ∀ k, f k < 2 ^ 32) (hq : 4096 * q + 4 * n ≤ 2 ^ 32) :
    ∃ mem, Machine.fillWords (4096 * q) f m 0 n = some { m with mem := mem } ∧
      tables mem = fillTables (tables m.mem) q f 0 n := by
  have hspec := fillWords_spec (T := True) (I := fun m => m.paging = false) (q := q) (a := 0)
    (b := n) hf hq (fun m k hm _ hk => ?_) n 0 m (le_refl 0) (by omega) hm
  · obtain ⟨_, hrun, -, mem, rfl, htab⟩ := hspec.total trivial
    exact ⟨mem, hrun, htab⟩
  · have hid : ∀ va, Ensures True (m.translate va) (· = va) := fun va =>
      .of_eq (by rw [Machine.translate, if_neg (by simp only [hm]; decide)]) rfl
    refine (store32_of_translate (by omega) (fun j _ => hid _)).mono ?_
    rintro _ rfl
    exact ⟨rfl, hm⟩

/-- The entry of a low page as `vmm_init` leaves it: present, writable, the identity. -/
def Identity (n e : Nat) : Prop := present e ∧ writable e ∧ pfn e = n

theorem identity_spec : LowSpec True Identity := ⟨fun h _ => h.2.2, fun _ h => h.1⟩

theorem fresh_entry (q : Nat) : Identity q (4096 * q ||| 0x001 ||| 0x002) := by
  refine ⟨(present_or _ _).mpr (Or.inl ((present_or _ _).mpr (Or.inr (by decide)))),
    (writable_or _ _).mpr (Or.inr (by decide)), ?_⟩
  rw [pfn_or _ (by norm_num), pfn_or _ (by norm_num), pfn_page]

theorem fresh_entry_lt {x : Nat} (hx : x < 2 ^ 32) : x ||| 0x001 ||| 0x002 < 2 ^ 32 :=
  or_low_lt (or_low_lt hx (by norm_num)) (by norm_num)

/-- **`vmm_init`** turns paging on over a complete identity map of 80 MB, with every frame from
2 MB to 64 MB free and nothing mapped above. -/
theorem vmmInit_spec (hm : m.paging = false) :
    ∃ m', vmmInit L m = some m' ∧ MachInv L Identity m' [] ∧ m'.cr3 = 4096 * L.kpd ∧
      freeFrames m'.bitmap = Finset.Ico 512 16384 ∧
      ∀ i : Fin 1024, 20 ≤ (i : Nat) → ¬ present (tables m'.mem L.kpd i) := by
  obtain ⟨bm, hpmm, hfree⟩ := pmmInit_spec
  have hkpd := L.kpd_low
  have hkpt := L.kpt_low
  have hapart := L.apart
  obtain ⟨mem₁, hrun₁, htab₁⟩ := fillWords_unpaged (m := { m with bitmap := bm }) hm (q := L.kpd)
    (n := 1024) (f := fun _ => 0) (fun _ => by norm_num) (by omega)
  obtain ⟨mem₂, hrun₂, htab₂⟩ := fillWords_unpaged (m := { m with bitmap := bm, mem := mem₁ }) hm
    (q := L.kpt) (n := 20 * 1024) (f := fun _ => 0) (fun _ => by norm_num) (by omega)
  obtain ⟨mem₃, hrun₃, htab₃⟩ := fillWords_unpaged (m := { m with bitmap := bm, mem := mem₂ }) hm
    (q := L.kpt) (n := 80 * 1024 * 1024 / 0x1000) (f := fun i => mul32 i 0x1000 ||| 0x001 ||| 0x002)
    (fun i => fresh_entry_lt (Nat.mod_lt _ (by norm_num))) (by omega)
  obtain ⟨mem₄, hrun₄, htab₄⟩ := fillWords_unpaged (m := { m with bitmap := bm, mem := mem₃ }) hm
    (q := L.kpd) (n := 20)
    (f := fun i => add32 (4096 * L.kpt) (mul32 i 0x1000) ||| 0x001 ||| 0x002)
    (fun i => fresh_entry_lt (add32_lt _ _)) (by omega)
  simp only at htab₁ htab₂ htab₃ htab₄
  -- the directory: twenty entries, then nothing
  have hpde : ∀ i : Fin 1024, (i : Nat) < 20 →
      tables mem₄ L.kpd i = 4096 * (L.kpt + i) ||| 0x001 ||| 0x002 := fun i hi => by
    have hsum : 4096 * L.kpt + (i : Nat) * 0x1000 = 4096 * (L.kpt + i) := by ring
    rw [htab₄, fillTables_page _ _ _ (by norm_num), if_pos ⟨rfl, hi⟩, mul32_of_lt (by omega),
      add32_of_lt (by omega), hsum]
  have hnone : ∀ i : Fin 1024, 20 ≤ (i : Nat) → tables mem₄ L.kpd i = 0 := fun i hi => by
    have h1024 := i.isLt
    rw [htab₄, fillTables_page _ _ _ (by norm_num), if_neg (by omega), htab₃, fillTables,
      if_neg (by omega), htab₂, fillTables, if_neg (by omega), htab₁,
      fillTables_page _ _ _ (le_refl 1024), if_pos ⟨rfl, h1024⟩]
  have hpte : ∀ n < 20480, lowEntry L (tables mem₄) n = 4096 * n ||| 0x001 ||| 0x002 := by
    intro n hn
    have hidx : 1024 * (L.kpt + n / 1024 - L.kpt) + ((Fin.ofNat 1024 n : Fin 1024) : Nat) = n := by
      rw [Fin.val_ofNat]
      omega
    rw [lowEntry, htab₄, fillTables_page _ _ _ (by norm_num), if_neg (by omega), htab₃, fillTables,
      if_pos (by omega), hidx, mul32_of_lt (by omega), Nat.mul_comm]
  have hframes : freeFrames bm = Finset.Ico 512 16384 := by
    ext q
    rw [mem_freeFrames, hfree, Finset.mem_Ico, Finset.mem_Ico, numberOfPages_eq]
    omega
  refine ⟨{ m with bitmap := bm, mem := mem₄, cr3 := 4096 * L.kpd, paging := true }, ?_, ?_, rfl,
    hframes, fun i hi => by rw [hnone i hi]; exact not_present_zero⟩
  · simp only [vmmInit, hpmm, hrun₁, hrun₂, hrun₃, hrun₄, Option.bind_eq_bind, Option.bind_some,
      vmmSwitchDirectory, vmmEnablePaging]
  · have hdir : 4096 * L.kpd / 4096 = L.kpd := Nat.mul_div_cancel_left _ (by norm_num)
    have honly : ∀ d ∈ [L.kpd], d = L.kpd := fun d hd => List.mem_singleton.mp hd
    refine ⟨rfl, by simp only [Machine.dir, hdir], by simp only [Machine.dir, hdir, List.mem_cons,
      true_or], ⟨fun q hq => ?_, fun d hd => absurd hd List.not_mem_nil, fun d hd i hi => ?_,
      fun n hn => ?_, fun d hd i hi hp => ?_, fun d hd d' hd' i i' hi hi' hp => ?_⟩⟩
    · rw [hframes, Finset.mem_Ico] at hq
      have h1 := L.kpd_frame
      have h2 := L.kpt_frame
      exact ⟨⟨by omega, hq.2⟩, fun hs => by rcases hs with hs | hs <;> omega⟩
    · rw [honly d hd, hpde i hi]
      exact fresh_entry _
    · rw [hpte n hn]
      exact fresh_entry n
    · rw [honly d hd, hnone i hi] at hp
      exact absurd hp not_present_zero
    · rw [honly d hd, hnone i hi] at hp
      exact absurd hp not_present_zero

end JarvOs.Memory
