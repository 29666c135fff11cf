/-
# A request that wraps

`kmalloc` computes `size + sizeof(block_header_t)` in 32 bits and checks nothing.  A request of
0xFFFFFFF8 bytes therefore gets ONE page, and `split_block` puts the header of the rest 8 bytes behind
the block's own, on top of its links.  The next request finds a "free block" whose size is an
address, and splits it wherever the caller's number points: here into the page table of the heap.

The run is on the page tables as `vmm_init` leaves them.  To evaluate it, the heap is run on a
`Sketch` of that machine, the few words of memory the run touches, and `kmalloc_follows` carries the
result over.
-/
import JarvOs.Memory.HeapFrames

namespace JarvOs.Memory

open JarvOs.Lib

/-! ## 1. One machine that follows another -/

section Follows

variable {σ τ : Type} {E : HeapEnv σ} {F : HeapEnv τ} {R : σ → τ → Prop}

/-- What succeeds on `E` succeeds on `F` with the same result, in related states. -/
structure HeapEnv.FollowedBy (E : HeapEnv σ) (F : HeapEnv τ) (R : σ → τ → Prop) : Prop where
  get : ∀ {s t}, R s t → ∀ a, Follows Eq (E.get s a) (F.get t a)
  put32 : ∀ {s t}, R s t → ∀ a v, Follows R (E.put32 s a v) (F.put32 t a v)
  map : ∀ {s t}, R s t → ∀ va,
    Follows (fun x y => x.1 = y.1 ∧ R x.2 y.2) (E.allocMapPage s va pageWritable)
      (F.allocMapPage t va pageWritable)

/-- Related machines under the same statics. -/
structure SameHeap (R : σ → τ → Prop) (h : HeapState σ) (g : HeapState τ) : Prop where
  mach : R h.mach g.mach
  head : h.heapHead = g.heapHead
  heapEnd : h.heapEnd = g.heapEnd

/-- The same pointer, and the same heap. -/
def SameResult (R : σ → τ → Prop) (x : Nat × HeapState σ) (y : Nat × HeapState τ) : Prop :=
  x.1 = y.1 ∧ SameHeap R x.2 y.2

variable {h : HeapState σ} {g : HeapState τ}

theorem load_follows (hE : E.FollowedBy F R) (hg : SameHeap R h g) (block : Nat) (f : Field) :
    Follows Eq (E.load h block f) (F.load g block f) := by
  unfold HeapEnv.load ByteEnv.get32
  refine (hE.get hg.mach _).bind ?_
  rintro _ _ rfl
  refine (hE.get hg.mach _).bind ?_
  rintro _ _ rfl
  refine (hE.get hg.mach _).bind ?_
  rintro _ _ rfl
  refine (hE.get hg.mach _).bind ?_
  rintro _ _ rfl
  exact .ret rfl

theorem store_follows (hE : E.FollowedBy F R) (hg : SameHeap R h g) (block : Nat) (f : Field)
    (v : Nat) : Follows (SameHeap R) (E.store h block f v) (F.store g block f v) :=
  (hE.put32 hg.mach _ v).map (fun _ _ hst => ⟨hst, hg.head, hg.heapEnd⟩)

theorem expandPages_follows (hE : E.FollowedBy F R) (n : Nat) :
    ∀ {h : HeapState σ} {g : HeapState τ} (i : Nat), SameHeap R h g →
      Follows (fun x y => x.1 = y.1 ∧ SameHeap R x.2 y.2) (E.expandPages h i n)
        (F.expandPages g i n) := by
  induction n with
  | zero =>
    intro h g i hg
    exact .ret ⟨rfl, hg⟩
  | succ n ih =>
    rintro ⟨s₀, head, stop⟩ ⟨t₀, -, -⟩ i ⟨hmach, rfl, rfl⟩
    refine (hE.map hmach _).bind ?_
    rintro ⟨r, s⟩ ⟨_, t⟩ ⟨rfl, hst⟩
    exact .ite (fun _ => .ret ⟨rfl, hst, rfl, rfl⟩) (fun _ => ih (i + 1) ⟨hst, rfl, rfl⟩)

theorem expandHeap_follows (hE : E.FollowedBy F R) (hg : SameHeap R h g) (minSize : Nat) :
    Follows (SameResult R) (E.expandHeap h minSize) (F.expandHeap g minSize) := by
  unfold HeapEnv.expandHeap
  rw [← hg.heapEnd]
  refine (expandPages_follows hE _ 0 hg).bind ?_
  rintro ⟨mapped, h'⟩ ⟨_, g'⟩ ⟨rfl, hg'⟩
  refine .ite (fun _ => ?_) (fun _ => .ret ⟨rfl, hg'⟩)
  have hgrown : ∀ n, SameHeap R { h' with heapEnd := add32 h'.heapEnd n }
      { g' with heapEnd := add32 g'.heapEnd n } :=
    fun n => ⟨hg'.mach, hg'.head, congrArg (add32 · n) hg'.heapEnd⟩
  refine (store_follows hE (hgrown _) _ _ _).bind (fun _ _ h1 => ?_)
  refine (store_follows hE h1 _ _ _).bind (fun _ _ h2 => ?_)
  refine (store_follows hE h2 _ _ _).bind (fun _ _ h3 => ?_)
  exact (store_follows hE h3 _ _ _).bind (fun _ _ h4 => .ret ⟨rfl, h4⟩)

theorem splitBlock_follows (hE : E.FollowedBy F R) (hg : SameHeap R h g) (block size : Nat) :
    Follows (SameHeap R) (E.splitBlock h block size) (F.splitBlock g block size) := by
  unfold HeapEnv.splitBlock
  refine (load_follows hE hg _ _).bind ?_
  rintro n _ rfl
  refine .ite (fun _ => .ret hg) (fun _ => ?_)
  refine (store_follows hE hg _ _ _).bind (fun _ _ h1 => ?_)
  refine (store_follows hE h1 _ _ _).bind (fun _ _ h2 => ?_)
  refine (load_follows hE h2 _ _).bind ?_
  rintro next _ rfl
  refine (store_follows hE h2 _ _ _).bind (fun _ _ h3 => ?_)
  refine (store_follows hE h3 _ _ _).bind (fun _ _ h4 => ?_)
  refine (load_follows hE h4 _ _).bind ?_
  rintro next' _ rfl
  refine Follows.bind (P := SameHeap R) ?_ (fun _ _ h5 => ?_)
  · exact .ite (fun _ => store_follows hE h4 _ _ _) (fun _ => .ret h4)
  refine (store_follows hE h5 _ _ _).bind (fun _ _ h6 => ?_)
  exact store_follows hE h6 _ _ _

theorem fits_follows (hE : E.FollowedBy F R) (hg : SameHeap R h g) (block size : Nat) :
    Follows Eq (E.fits h block size) (F.fits g block size) := by
  unfold HeapEnv.fits
  refine (load_follows hE hg _ _).bind ?_
  rintro free _ rfl
  refine .ite (fun _ => .ret rfl) (fun _ => (load_follows hE hg _ _).bind ?_)
  rintro n _ rfl
  exact .ret rfl

theorem findFit_follows (hE : E.FollowedBy F R) (hg : SameHeap R h g) (size : Nat) :
    ∀ fuel block last, Follows Eq (E.findFit h size fuel block last)
      (F.findFit g size fuel block last) := by
  intro fuel
  induction fuel with
  | zero =>
    intro block last a ha
    exact absurd ha (by simp [HeapEnv.findFit])
  | succ fuel ih =>
    intro block last
    rw [HeapEnv.findFit, HeapEnv.findFit]
    refine .ite (fun _ => .ret rfl) (fun _ => (fits_follows hE hg _ _).bind ?_)
    rintro found _ rfl
    refine .ite (fun _ => .ret rfl) (fun _ => (load_follows hE hg _ _).bind ?_)
    rintro next _ rfl
    exact ih next block

theorem takeBlock_follows (hE : E.FollowedBy F R) (hg : SameHeap R h g) (block size : Nat) :
    Follows (SameResult R) (E.takeBlock h block size) (F.takeBlock g block size) := by
  unfold HeapEnv.takeBlock
  refine (splitBlock_follows hE hg _ _).bind (fun _ _ h1 => ?_)
  exact (store_follows hE h1 _ _ _).bind (fun _ _ h2 => .ret ⟨rfl, h2⟩)

theorem appendBlock_follows (hE : E.FollowedBy F R) (hg : SameHeap R h g) (last fresh : Nat) :
    Follows (SameHeap R) (E.appendBlock h last fresh) (F.appendBlock g last fresh) := by
  unfold HeapEnv.appendBlock
  refine .ite (fun _ => ?_) (fun _ => .ret ⟨hg.mach, rfl, hg.heapEnd⟩)
  exact (store_follows hE hg _ _ _).bind (fun _ _ h1 => store_follows hE h1 _ _ _)

/-- **What `kmalloc` does on one machine it does on a machine that follows it.** -/
theorem kmalloc_follows (hE : E.FollowedBy F R) (hg : SameHeap R h g) (size : Nat) :
    Follows (SameResult R) (E.kmalloc h size) (F.kmalloc g size) := by
  unfold HeapEnv.kmalloc
  rw [← hg.head]
  refine .ite (fun _ => .ret ⟨rfl, hg⟩) (fun _ => (findFit_follows hE hg _ _ _ _).bind ?_)
  rintro ⟨block, last⟩ _ rfl
  refine .ite (fun _ => takeBlock_follows hE hg _ _) (fun _ => ?_)
  refine (expandHeap_follows hE hg _).bind ?_
  rintro ⟨fresh, h'⟩ ⟨_, g'⟩ ⟨rfl, hg'⟩
  refine .ite (fun _ => .ret ⟨rfl, hg'⟩) (fun _ => ?_)
  exact (appendBlock_follows hE hg' _ _).bind (fun _ _ h1 => takeBlock_follows hE h1 _ _)

end Follows

/-! ## 2. A sketch of the machine -/

/-- Some words of physical memory, as ((page, index), word), and the first free frame. -/
structure Sketch where
  words : List ((Nat × Nat) × Nat)
  next : Nat

namespace Sketch

/-- A word, if it is known. -/
def word (s : Sketch) (q i : Nat) : Option Nat := s.words.lookup (q, i)

/-- A word becomes known. -/
def set (s : Sketch) (q i v : Nat) : Sketch := { s with words := ((q, i), v) :: s.words }

/-- The walk, through known words of the kernel's directory and its tables. -/
def translate (s : Sketch) (va : Nat) : Option Nat :=
  if va < 20480 * 4096 then some va
  else do
    let pde ← s.word 490 (va / 2 ^ 22)
    let pte ← s.word (pfn pde) (va / 4096 % 1024)
    if present pde ∧ present pte then some (4096 * pfn pte + va % 4096) else none

/-- A byte of a known word. -/
def get (s : Sketch) (va : Nat) : Option UInt8 := do
  let a ← s.translate va
  let v ← s.word (a / 4096) (a % 4096 / 4)
  some (byteOf v (a % 4))

/-- A page that is not free and is neither the kernel's directory nor one of its low tables. -/
def Open (s : Sketch) (q : Nat) : Prop := q < s.next ∧ ¬ (490 ≤ q ∧ q < 511)

instance (s : Sketch) (q : Nat) : Decidable (s.Open q) := inferInstanceAs (Decidable (_ ∧ _))

/-- An aligned store to an open page. -/
def put32 (s : Sketch) (va v : Nat) : Option Sketch := do
  let a ← s.translate va
  if va % 4 = 0 ∧ v < 2 ^ 32 ∧ s.Open (a / 4096) then some (s.set (a / 4096) (a % 4096 / 4) v)
  else none

/-- `vmmEnsureTable` for the directory entry of the heap. -/
def ensureTable (s : Sketch) : Option (Nat × Sketch) :=
  match s.word 490 832 with
  | none => some (pdeOf s.next, { s.set 490 832 (pdeOf s.next) with next := s.next + 1 })
  | some pde => if present pde then some (pde, s) else none

/-- `vmmAllocMapPage` for a page of the heap, while there are frames. -/
def allocMapPage (s : Sketch) (va flags : Nat) : Option (Nat × Sketch) :=
  if va / 2 ^ 22 = 832 ∧ s.next + 2 ≤ 16384 then do
    let (pde, t) ← ensureTable { s with next := s.next + 1 }
    some (va, t.set (pfn pde) (va / 4096 % 1024) (pteOf (4096 * s.next) flags))
  else none

variable {s : Sketch} {q i v va a : Nat}

theorem word_set (s : Sketch) (q i v q' i' : Nat) :
    (s.set q i v).word q' i' = if q' = q ∧ i' = i then some v else s.word q' i' := by
  simp only [word, set, List.lookup_cons]
  split <;> simp_all

/-- Within an aligned word the walk goes on. -/
theorem translate_add (ha : s.translate va = some a) (hal : va % 4 = 0) {k : Nat} (hk : k < 4) :
    s.translate (va + k) = some (a + k) := by
  unfold translate at ha ⊢
  by_cases hlow : va < 20480 * 4096
  · rw [if_pos hlow] at ha
    obtain rfl := Option.some.inj ha
    rw [if_pos (by omega)]
  · have h1 : (va + k) / 2 ^ 22 = va / 2 ^ 22 := by omega
    have h2 : (va + k) / 4096 = va / 4096 := by omega
    have h3 : (va + k) % 4096 = va % 4096 + k := by omega
    rw [if_neg hlow] at ha
    rw [if_neg (by omega), h1, h2, h3]
    simp only [Option.bind_eq_bind, Option.bind_eq_some_iff] at ha ⊢
    obtain ⟨pde, hpde, pte, hpte, ha⟩ := ha
    refine ⟨pde, hpde, pte, hpte, ?_⟩
    split at ha
    · rw [if_pos ‹_›, ← Option.some.inj ha, Nat.add_assoc]
    · exact absurd ha (by simp)

theorem translate_offset (ha : s.translate va = some a) : a % 4096 = va % 4096 := by
  unfold translate at ha
  split at ha
  · rw [Option.some.inj ha]
  · simp only [Option.bind_eq_bind, Option.bind_eq_some_iff] at ha
    obtain ⟨pde, -, pte, -, ha⟩ := ha
    split at ha
    · have := Option.some.inj ha
      omega
    · exact absurd ha (by simp)

end Sketch

/-- The kernel's heap, as far as a sketch knows it. -/
def sketchHeap : HeapEnv Sketch where
  get := Sketch.get
  put _ _ _ := none
  put32 := Sketch.put32
  allocMapPage := Sketch.allocMapPage

/-! ## 3. What the sketch knows is so -/

/-- A machine with the kernel's directory loaded, as the sketch has it. -/
structure Sketched (s : Sketch) (m : Machine) : Prop where
  inv : MachInv sampleLayout Identity m []
  start : 512 ≤ s.next
  free : freeFrames m.bitmap = Finset.Ico s.next 16384
  known : ∀ {q i v : Nat}, s.word q i = some v →
    i < 1024 ∧ q < s.next ∧ tables m.mem q (Fin.ofNat 1024 i) = v
  absent : s.word 490 832 = none → ¬ present (tables m.mem 490 (Fin.ofNat 1024 832))

variable {s : Sketch} {m : Machine} {q i v va a : Nat}

theorem Sketched.dir (h : Sketched s m) : m.dir = 490 := List.mem_singleton.mp h.inv.dir

theorem Sketched.translate (h : Sketched s m) (ha : s.translate va = some a) :
    va < 2 ^ 32 ∧ m.translate va = some a := by
  unfold Sketch.translate at ha
  split at ha
  · rename_i hlow
    obtain rfl := Option.some.inj ha
    obtain ⟨b, hb, rfl⟩ := (translate_low identity_spec h.inv hlow).total trivial
    exact ⟨by omega, hb⟩
  · simp only [Option.bind_eq_bind, Option.bind_eq_some_iff] at ha
    obtain ⟨pde, hpde, pte, hpte, ha⟩ := ha
    split at ha
    · rename_i hp
      obtain ⟨hi, -, hpde⟩ := h.known hpde
      obtain ⟨-, -, hpte⟩ := h.known hpte
      refine ⟨by omega, ?_⟩
      rw [h.inv.translate, h.dir, ← Option.some.inj ha]
      refine walk_of_entry (entry_eq_some.mpr ⟨?_, hp.2, ?_⟩)
      · rw [dirIdx, hpde]
        exact hp.1
      · rw [dirIdx, hpde, ← hpte]
        congr 1
        exact Fin.ext (by simp only [tabIdx, Fin.val_ofNat, Nat.mod_mod])
    · exact absurd ha (by simp)

theorem Sketched.get (h : Sketched s m) (va : Nat) :
    Follows Eq (s.get va) (kernelHeap.get m va) := by
  intro x hx
  simp only [Sketch.get, Option.bind_eq_bind, Option.bind_eq_some_iff, Option.some.injEq] at hx
  obtain ⟨a, ha, v, hv, rfl⟩ := hx
  have hget : kernelHeap.get m va = (m.translate va).map m.mem := rfl
  refine ⟨m.mem a, ?_, ?_⟩
  · rw [hget, (h.translate ha).2, Option.map_some]
  · rw [mem_eq_byteOf m.mem a, (h.known hv).2.2]

/-- A table behind the directory is an open page. -/
theorem Sketched.open_table (h : Sketched s m) {i : Fin 1024} (hi : 20 ≤ (i : Nat))
    (hp : present (tables m.mem 490 i)) : s.Open (pfn (tables m.mem 490 i)) := by
  obtain ⟨hfr, hfree, -, hstat, -⟩ := h.inv.vm.table 490 List.mem_cons_self i hi hp
  rw [h.free, Finset.mem_Ico] at hfree
  have := hfr.2
  exact ⟨by omega, fun hs => hstat (by simp only [Layout.Static, sampleLayout]; omega)⟩

/-- **A store** to an open page, table or not. -/
theorem Sketched.stored (h : Sketched s m) (hq : s.Open q) (hi : i < 1024) (hv : v < 2 ^ 32) :
    Sketched (s.set q i v) { m with mem := setWord m.mem (4096 * q + 4 * i) v } := by
  have htab := tables_setWord m.mem q ⟨i, hi⟩ hv
  simp only at htab
  have hstat : ¬ sampleLayout.Static q := fun hs => hq.2 (by
    simp only [Layout.Static, sampleLayout] at hs
    omega)
  have hinv : MachInv sampleLayout Identity
      { m with mem := setWord m.mem (4096 * q + 4 * i) v } [] := by
    by_cases hu : InUse sampleLayout (tables m.mem) [] q
    · rcases hu with hs | hs | ⟨d, hd, i', hi', hp, rfl⟩
      · exact absurd hs hstat
      · exact absurd hs List.not_mem_nil
      · exact (VmStep.setPte h.inv hd hi' hp ⟨i, hi⟩ hv).1.inv
    · exact (DataStep.of_mem h.inv hu (fun p hp j => by rw [htab, set_page_ne hp])).inv
  refine ⟨hinv, h.start, h.free, fun {q' i' v'} hword => ?_, fun hword => ?_⟩
  · simp only [htab]
    rw [Sketch.word_set] at hword
    split at hword
    · rename_i heq
      obtain ⟨rfl, rfl⟩ := heq
      obtain rfl := Option.some.inj hword
      have hidx : Fin.ofNat 1024 i' = ⟨i', hi⟩ := Fin.ext (Nat.mod_eq_of_lt hi)
      exact ⟨hi, hq.1, by rw [hidx, set_same]⟩
    · rename_i hne
      obtain ⟨hi', hq', hword⟩ := h.known hword
      refine ⟨hi', hq', ?_⟩
      rw [set_other, hword]
      rintro ⟨rfl, heq⟩
      exact hne ⟨rfl, (Nat.mod_eq_of_lt hi').symm.trans (Fin.ext_iff.mp heq)⟩
  · simp only [htab]
    rw [set_page_ne (fun heq => hq.2 (by omega))]
    rw [Sketch.word_set] at hword
    split at hword
    · exact absurd hword (by simp)
    · exact h.absent hword

theorem Sketched.put32 (h : Sketched s m) (va v : Nat) :
    Follows Sketched (s.put32 va v) (kernelHeap.put32 m va v) := by
  intro s' hs'
  simp only [Sketch.put32, Option.bind_eq_bind, Option.bind_eq_some_iff] at hs'
  obtain ⟨a, ha, hs'⟩ := hs'
  split at hs'
  · rename_i hc
    obtain ⟨hal, hv, hopen⟩ := hc
    obtain rfl := Option.some.inj hs'
    have hoff := Sketch.translate_offset ha
    have htr : ∀ k < 4, va + k < 2 ^ 32 ∧ m.translate (va + k) = some (a + k) :=
      fun k hk => h.translate (Sketch.translate_add ha hal hk)
    obtain ⟨-, h0⟩ := htr 0 (by norm_num)
    obtain ⟨hva, h3⟩ := htr 3 (by norm_num)
    rw [Nat.add_zero] at h0
    have haddr : 4096 * (a / 4096) + 4 * (a % 4096 / 4) = a := by omega
    have hst := h.stored hopen (show a % 4096 / 4 < 1024 by omega) hv
    rw [haddr] at hst
    refine ⟨_, ?_, hst⟩
    rw [put32_eq_poke (by omega) h0 (htr 1 (by norm_num)).2 (htr 2 (by norm_num)).2 h3]
    simp only [Machine.poke, Nat.add_zero, setByte_four]
  · exact absurd hs' (by simp)

/-! ## 4. Mapping a page of the heap -/

theorem Sketched.take (h : Sketched s m) {bm : Bitmap}
    (hbm : freeFrames bm = Finset.Ico (s.next + 1) 16384) :
    Sketched { s with next := s.next + 1 } { m with bitmap := bm } := by
  have hsub : freeFrames bm ⊆ freeFrames m.bitmap := by
    rw [hbm, h.free]
    exact Finset.Ico_subset_Ico_left (Nat.le_succ _)
  refine ⟨⟨h.inv.paging, h.inv.cr3, h.inv.dir, h.inv.vm.shrink hsub⟩, Nat.le_succ_of_le h.start, hbm,
    fun hword => ?_, h.absent⟩
  obtain ⟨hi, hq, hv⟩ := h.known hword
  exact ⟨hi, Nat.lt_succ_of_lt hq, hv⟩

theorem Sketched.ensureTable (h : Sketched s m) (hnext : s.next < 16384) :
    Follows (fun x y => y.1 = some x.1 ∧ Sketched x.2 y.2 ∧ present x.1 ∧
        tables y.2.mem 490 (Fin.ofNat 1024 832) = x.1)
      s.ensureTable (vmmEnsureTable m (vmmGetCurrentDirectory m) 832) := by
  intro x hx
  have hidx : ((Fin.ofNat 1024 832 : Fin 1024) : Nat) = 832 := rfl
  have hspec := vmmEnsureTable_spec identity_spec h.inv (Fin.ofNat 1024 832)
  rw [hidx, h.dir] at hspec
  obtain ⟨⟨r, m'⟩, hr, hstep, -, hsame, hcase⟩ := hspec.total trivial
  unfold Sketch.ensureTable at hx
  split at hx
  · rename_i hword
    obtain rfl := Option.some.inj hx
    obtain ⟨bm, halloc, hbm⟩ := allocPage_first hnext h.free
    have hmem : s.next ∈ freeFrames m.bitmap := by
      rw [h.free, Finset.mem_Ico]
      omega
    have herase : freeFrames bm = (freeFrames m.bitmap).erase s.next := by
      rw [hbm, h.free]
      ext q
      simp only [Finset.mem_erase, Finset.mem_Ico]
      omega
    have hp : ¬ present (tables m.mem m.dir (Fin.ofNat 1024 832)) := by
      rw [h.dir]
      exact h.absent hword
    obtain ⟨mem, heq, htab⟩ :=
      (vmmEnsureTable_fresh identity_spec h.inv hp hmem halloc herase).1 _ hr
    obtain ⟨rfl, rfl⟩ := Prod.mk.inj heq
    rw [h.dir] at htab
    have hpde : tables mem 490 (Fin.ofNat 1024 832) = pdeOf s.next := by
      rw [htab, hookTables, set_same]
    refine ⟨_, hr, rfl, ⟨hstep.inv, Nat.le_succ_of_le h.start, hbm, fun {q i v} hv => ?_,
      fun hnone => ?_⟩, pdeOf_present _, hpde⟩
    · have hv' : (s.set 490 832 (pdeOf s.next)).word q i = some v := hv
      rw [Sketch.word_set] at hv'
      split at hv'
      · rename_i heq
        obtain ⟨rfl, rfl⟩ := heq
        have hlow : 490 < s.next + 1 := by
          have := h.start
          omega
        exact ⟨by norm_num, hlow, hpde.trans (Option.some.inj hv')⟩
      · rename_i hne
        obtain ⟨hi, hq, hv'⟩ := h.known hv'
        refine ⟨hi, Nat.lt_succ_of_lt hq, ?_⟩
        simp only [htab, hookTables]
        rw [set_other, if_neg (by omega), hv']
        rintro ⟨rfl, heq⟩
        exact hne ⟨rfl, (Nat.mod_eq_of_lt hi).symm.trans (Fin.ext_iff.mp heq)⟩
    · have hnone' : (s.set 490 832 (pdeOf s.next)).word 490 832 = none := hnone
      rw [Sketch.word_set, if_pos ⟨rfl, rfl⟩] at hnone'
      exact absurd hnone' (by simp)
  · rename_i pde hword
    split at hx
    · rename_i hpres
      obtain rfl := Option.some.inj hx
      have hpde := (h.known hword).2.2
      have hm : m' = m := hsame (by rw [hpde]; exact hpres)
      subst hm
      rcases hcase with ⟨-, -, -, hnp⟩ | ⟨hsome, -⟩
      · exact absurd (by rw [hpde]; exact hpres) hnp
      · exact ⟨_, hr, by rw [hsome, hpde], h, hpres, hpde⟩
    · exact absurd hx (by simp)

theorem Sketched.allocMapPage (h : Sketched s m) (va : Nat) :
    Follows (fun x y => x.1 = y.1 ∧ Sketched x.2 y.2) (s.allocMapPage va pageWritable)
      (kernelHeap.allocMapPage m va pageWritable) := by
  intro x hx
  unfold Sketch.allocMapPage at hx
  split at hx
  · rename_i hc
    simp only [Option.bind_eq_bind, Option.bind_eq_some_iff] at hx
    obtain ⟨⟨pde, t⟩, ht, hx⟩ := hx
    obtain rfl := Option.some.inj hx
    obtain ⟨bm, halloc, hbm⟩ := allocPage_first (show s.next < 16384 by omega) h.free
    obtain ⟨⟨_, m₂⟩, hens, rfl, h₂, hpres, hpde⟩ :=
      (h.take hbm).ensureTable (show s.next + 1 < 16384 by omega) _ ht
    simp only at h₂ hpres hpde
    have hshift : va >>> 22 = 832 := by
      rw [Nat.shiftRight_eq_div_pow]
      exact hc.1
    have hfr : 4096 * s.next ≠ 0 := by
      have := h.start
      omega
    have hpte : pteOf (4096 * s.next) pageWritable < 2 ^ 32 := pteOf_lt (by omega) _
    -- the entry is stored through the directory word that is there now
    have hst := (store_entry identity_spec h₂.inv (i := Fin.ofNat 1024 832)
      (by rw [h₂.dir, hpde]; exact hpres) (tabIdx va) (pteOf (4096 * s.next) pageWritable)).total trivial
    obtain ⟨m₃, hst, rfl⟩ := hst
    rw [h₂.dir, hpde, tabIdx_val] at hst
    have hopen := h₂.open_table (i := Fin.ofNat 1024 832) (by decide) (by rw [hpde]; exact hpres)
    rw [hpde] at hopen
    have hidx : va / 4096 % 1024 < 1024 := Nat.mod_lt _ (by norm_num)
    refine ⟨(va, _), ?_, rfl, h₂.stored hopen hidx hpte⟩
    have hrun : kernelHeap.allocMapPage m va pageWritable = vmmAllocMapPage m va pageWritable := rfl
    rw [hrun, vmmAllocMapPage, halloc]
    simp only [Option.bind_eq_bind, Option.bind_some, if_neg hfr, vmmMapPage, hshift, hens,
      shift_tabIdx, tabIdx_val]
    rw [pteOf] at hst
    simp only [hst, Option.bind_some]
    rfl
  · exact absurd hx (by simp)

/-- **The kernel's heap follows the sketch.** -/
theorem sketchHeap_followed : sketchHeap.FollowedBy kernelHeap Sketched :=
  ⟨fun h a => h.get a, fun h a v => h.put32 a v, fun h va => h.allocMapPage va⟩

/-! ## 5. The run -/

theorem sketched_boot {m₁ : Machine} (hinit : vmmInit sampleLayout blankMachine = some m₁) :
    Sketched ⟨[], 512⟩ m₁ := by
  obtain ⟨m', hm', hM, -, hfree, hnone⟩ := vmmInit_spec (L := sampleLayout) (m := blankMachine) rfl
  obtain rfl := Option.some.inj (hinit.symm.trans hm')
  exact ⟨hM, le_refl 512, hfree, fun hword => absurd hword (by simp [Sketch.word]),
    fun _ => hnone (Fin.ofNat 1024 832) (by decide)⟩

/-- A `kmalloc` on the sketch. -/
def sketchStep (h : HeapState Sketch) (n : Nat) : Option (HeapState Sketch) :=
  (sketchHeap.kmalloc h n).map Prod.snd

theorem frameStep_follows {h : HeapState Sketch} {s : FrameRun} (n : Nat)
    (hs : SameHeap Sketched h s.heap) :
    Follows (fun h t => SameHeap Sketched h (FrameRun.heap t)) (sketchStep h n)
      (frameStep s (.heap (.kmalloc n))) := by
  intro h' hh'
  obtain ⟨x, hx, rfl⟩ := Option.map_eq_some_iff.mp hh'
  obtain ⟨y, hy, -, hxy⟩ := kmalloc_follows sketchHeap_followed hs n x hx
  exact ⟨⟨y.2, _, s.held⟩, by rw [frameStep, heapStep, heapCall, hy]; rfl, hxy⟩

/-- Four pages, the request that wraps, and the one that writes to page 513: that is the table the
first request has got for the heap. -/
def wrappingRequests : List Nat := [16368, 0xFFFFFFF8, 0x301FCFE8]

/-- Afterwards `heap_end` is five pages up and the entry of the first page is an even number. -/
theorem sketch_wrapping :
    (run sketchStep ⟨⟨[], 512⟩, 0, kheapStart⟩ wrappingRequests).map
        (fun h => (h.heapEnd, h.mach.word 490 832, h.mach.word 513 0)) =
      some (0xD0005000, some (pdeOf 513), some 0x9FE07010) := by
  decide +kernel

/-- **A heap page loses its frame.**  Three calls of `kmalloc` from `vmm_init` on, all legal, and the
first page of the heap is not present any more. -/
theorem heap_page_unmapped : ∃ m₁ s, vmmInit sampleLayout blankMachine = some m₁ ∧
    Along frameStep FrameLegal (frameBoot m₁) (wrappingRequests.map (.heap ∘ .kmalloc)) ∧
    run frameStep (frameBoot m₁) (wrappingRequests.map (.heap ∘ .kmalloc)) = some s ∧
    s.heap.mach.dir = m₁.dir ∧ s.heap.heapEnd = 0xD0005000 ∧
    (tables s.heap.mach.mem).entry s.heap.mach.dir (dirIdx kheapStart) (tabIdx kheapStart) = none ∧
    ¬ HeapBacked sampleLayout [] s.held s.heap := by
  obtain ⟨m₁, hinit, -⟩ := vmmInit_spec (L := sampleLayout) (m := blankMachine) rfl
  have hboot := sketched_boot hinit
  obtain ⟨h, hrun, hh⟩ := Option.map_eq_some_iff.mp sketch_wrapping
  obtain ⟨hend, hpde, hpte⟩ : h.heapEnd = 0xD0005000 ∧ h.mach.word 490 832 = some (pdeOf 513) ∧
      h.mach.word 513 0 = some 0x9FE07010 := by simpa using hh
  obtain ⟨s, hs, hsame⟩ := Follows.run (f := FrameOp.heap ∘ HeapOp.kmalloc)
    (R := fun h t => SameHeap Sketched h (FrameRun.heap t)) (fun n hst => frameStep_follows n hst)
    wrappingRequests (t := frameBoot m₁) ⟨hboot, rfl, rfl⟩ h hrun
  have hentry : (tables s.heap.mach.mem).entry s.heap.mach.dir (dirIdx kheapStart)
      (tabIdx kheapStart) = none := by
    have hp := (hsame.mach.known hpde).2.2
    have he := (hsame.mach.known hpte).2.2
    have hidx : dirIdx kheapStart = Fin.ofNat 1024 832 ∧ tabIdx kheapStart = Fin.ofNat 1024 0 := by
      decide
    rw [hsame.mach.dir, Tables.entry, hidx.1, hidx.2, hp, pdeOf_pfn, he, if_neg (by decide)]
  have hlt : kheapStart < s.heap.heapEnd := by
    rw [← hsame.heapEnd, hend]
    decide
  refine ⟨m₁, s, hinit, ?_, hs, hsame.mach.dir.trans hboot.dir.symm, hsame.heapEnd.symm.trans hend,
    hentry, fun hback => ?_⟩
  · exact ⟨Or.inl rfl, fun _ _ => ⟨Or.inl rfl, fun _ _ => ⟨Or.inl rfl, fun _ _ => trivial⟩⟩⟩
  · obtain ⟨e, he, -⟩ := hback kheapStart (le_refl _) hlt
    exact absurd (he.entry.symm.trans hentry) (by simp)

end JarvOs.Memory
