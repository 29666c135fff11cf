/-
# Runs of the kernel heap

A history of `kmalloc`, `krealloc` and `kfree` calls, together with the set of pointers its caller
holds.  That set is bookkeeping of the CALLER: it is updated from the arguments and the returned
pointer alone, never from the heap.  So `LiveIs` -- the blocks in use are exactly the pointers the
caller holds -- says that the heap and its caller agree.

`heapCall_spec` is the one step, on any machine; `heap_representation_invariant` and
`heap_payload_integrity` are the two results about whole histories, on the flat machine with an
arbitrary frame supply.  The supply has at most `NUMBER_OF_PAGES` frames, the number `pmm.c`
owns, and that is why `heap_end` stays below 2^32.
-/
import JarvOs.Memory.HeapInv
import JarvOs.Memory.Pmm

namespace JarvOs.Memory

open JarvOs.Lib

variable {σ : Type} {E : HeapEnv σ} {Good : Nat → σ → Prop} {k : Nat} {h h' : HeapState σ}
  {bs bs' : List Block} {b : Block} {live : Finset Nat}

/-! ## 1. Calls and their caller -/

/-- The heap's interface. -/
inductive HeapOp
  | kmalloc (n : Nat)
  | krealloc (p n : Nat)
  | kfree (p : Nat)
deriving DecidableEq, Repr

/-- One call and the pointer it returns. -/
def heapCall (E : HeapEnv σ) (h : HeapState σ) : HeapOp → Option (Nat × HeapState σ)
  | .kmalloc n => E.kmalloc h n
  | .krealloc p n => E.krealloc h p n
  | .kfree p => (E.kfree h p).map (fun h => (0, h))

/-- The pointer a call is given. -/
def HeapOp.arg : HeapOp → Nat
  | .kmalloc _ => 0
  | .krealloc p _ => p
  | .kfree p => p

/-- The pointers a caller holds after a call that returned `r`. -/
def liveAfter (live : Finset Nat) (op : HeapOp) (r : Nat) : Finset Nat :=
  match op with
  | .kmalloc _ => if r = 0 then live else insert r live
  | .krealloc p n =>
    if p = 0 then if r = 0 then live else insert r live
    else if n = 0 then live.erase p
    else if r = 0 then live else insert r (live.erase p)
  | .kfree p => live.erase p

/-- A heap and the pointers its caller holds. -/
structure HeapRun (σ : Type) where
  heap : HeapState σ
  live : Finset Nat

/-- One call of a history. -/
def heapStep (E : HeapEnv σ) (s : HeapRun σ) (op : HeapOp) : Option (HeapRun σ) :=
  (heapCall E s.heap op).map (fun r => ⟨r.2, liveAfter s.live op r.1⟩)

/-- Requests for which no size computation wraps, on `NULL` or on a pointer the caller holds. -/
def HeapLegal (s : HeapRun σ) : HeapOp → Prop
  | .kmalloc n => n ≤ 0xFFFFEFF0
  | .krealloc p n => n ≤ 0xFFFFEFF0 ∧ (p = 0 ∨ p ∈ s.live)
  | .kfree p => p = 0 ∨ p ∈ s.live

/-- The blocks in use are the pointers the caller holds. -/
def LiveIs (bs : List Block) (live : Finset Nat) : Prop :=
  ∀ p, p ∈ live ↔ ∃ b, UsedIn bs b ∧ p = b.addr + headerSize

theorem LiveIs.insert {n : Nat} (hl : LiveIs bs live) (ha : Allocated bs bs' b n) :
    LiveIs bs' (insert (b.addr + headerSize) live) := by
  intro p
  rw [Finset.mem_insert, hl p]
  constructor
  · rintro (rfl | ⟨c, hc, rfl⟩)
    · exact ⟨b, (ha.used b).mpr (Or.inl rfl), rfl⟩
    · exact ⟨c, (ha.used c).mpr (Or.inr hc), rfl⟩
  · rintro ⟨c, hc, rfl⟩
    rcases (ha.used c).mp hc with rfl | hc
    · exact Or.inl rfl
    · exact Or.inr ⟨c, hc, rfl⟩

theorem LiveIs.erase (hL : Listed E Good k h bs) (hl : LiveIs bs live) (hb : UsedIn bs b)
    (hused : ∀ c, UsedIn bs' c ↔ UsedIn bs c ∧ c ≠ b) :
    LiveIs bs' (live.erase (b.addr + headerSize)) := by
  intro p
  rw [Finset.mem_erase, hl p]
  constructor
  · rintro ⟨hne, c, hc, rfl⟩
    exact ⟨c, (hused c).mpr ⟨hc, fun heq => hne (by rw [heq])⟩, rfl⟩
  · rintro ⟨c, hc, rfl⟩
    obtain ⟨hc, hne⟩ := (hused c).mp hc
    exact ⟨fun heq => hne (hL.eq_of_addr hc.1 hb.1 (Nat.add_right_cancel heq)), c, hc, rfl⟩

/-- A caller that holds nothing can only allocate: the other calls are allocations then, of 0 bytes
if need be. -/
theorem heapStep_empty {op : HeapOp} (hok : HeapLegal ⟨h, ∅⟩ op) :
    ∃ n ≤ 0xFFFFEFF0, heapStep E ⟨h, ∅⟩ op = heapStep E ⟨h, ∅⟩ (.kmalloc n) := by
  cases op with
  | kmalloc n => exact ⟨n, hok, rfl⟩
  | krealloc p n =>
    obtain ⟨hn, hp⟩ := hok
    obtain rfl : p = 0 := hp.resolve_right (Finset.notMem_empty p)
    refine ⟨n, hn, ?_⟩
    simp only [heapStep, heapCall, HeapEnv.krealloc, if_true, liveAfter]
  | kfree p =>
    obtain rfl : p = 0 := hok.resolve_right (Finset.notMem_empty p)
    exact ⟨0, Nat.zero_le _, rfl⟩

/-! ## 2. One call -/

theorem UsedIn.ptr_ne_zero (_ : UsedIn bs b) : b.addr + headerSize ≠ 0 := by
  have := headerSize_eq
  omega

theorem LiveIs.zero_notMem (hl : LiveIs bs live) : 0 ∉ live := by
  intro hmem
  obtain ⟨b, hb, heq⟩ := (hl 0).mp hmem
  exact hb.ptr_ne_zero heq.symm

/-- `kmalloc` from a caller's point of view. -/
theorem kmalloc_live (L : HeapLaws E Good) (hI : HeapInv E Good k h bs) (hl : LiveIs bs live)
    {n : Nat} (hn : n ≤ 0xFFFFEFF0) :
    ∃ r h' k' bs', E.kmalloc h n = some (r, h') ∧ HeapInv E Good k' h' bs' ∧
      LiveIs bs' (if r = 0 then live else insert r live) ∧
      ∀ b, UsedIn bs b → UsedIn bs' b ∧ KeepsBlock E b h h' := by
  obtain ⟨r, h', k', bs', e, hI', hkeep, hcase⟩ := kmalloc_spec L hI hn
  refine ⟨r, h', k', bs', e, hI', ?_⟩
  rcases hcase with ⟨rfl, rfl⟩ | ⟨d, rfl, -, -, hall⟩
  · exact ⟨by rwa [if_pos rfl], fun b hb => ⟨hb, hkeep b hb⟩⟩
  · rw [if_neg ((hall.used d).mpr (Or.inl rfl)).ptr_ne_zero]
    exact ⟨hl.insert hall, fun b hb => ⟨(hall.used b).mpr (Or.inr hb), hkeep b hb⟩⟩

/-- `kfree` from a caller's point of view. -/
theorem kfree_live (L : HeapLaws E Good) (hI : HeapInv E Good k h bs) (hl : LiveIs bs live)
    (hb : UsedIn bs b) :
    ∃ h' bs', E.kfree h (b.addr + headerSize) = some h' ∧ HeapInv E Good k h' bs' ∧
      LiveIs bs' (live.erase (b.addr + headerSize)) ∧
      ∀ c, UsedIn bs c → c.addr + headerSize ≠ b.addr + headerSize →
        UsedIn bs' c ∧ KeepsBlock E c h h' := by
  obtain ⟨h', bs', e, hI', hused, hkeep⟩ := kfree_spec L hI hb
  exact ⟨h', bs', e, hI', hl.erase hI.toListed hb hused, fun c hc hne =>
    ⟨(hused c).mpr ⟨hc, fun heq => hne (by rw [heq])⟩, hkeep c hc⟩⟩

/-- `krealloc` of a block in use from a caller's point of view. -/
theorem Reallocated.liveIs {n r : Nat} (hre : Reallocated E bs b n h r h' bs')
    (hL : Listed E Good k h bs) (hl : LiveIs bs live) (hb : UsedIn bs b) :
    LiveIs bs' (if r = 0 then live else insert r (live.erase (b.addr + headerSize))) := by
  cases hre with
  | inPlace _ =>
    rw [if_neg hb.ptr_ne_zero, Finset.insert_erase ((hl _).mpr ⟨b, hb, rfl⟩)]
    exact hl
  | failed _ => exact hl
  | moved hdf _ hdn hfresh hused _ _ =>
    rw [if_neg ((hused _).mpr (Or.inl rfl)).ptr_ne_zero]
    -- first the old block goes, then the new one comes
    have hrest : ∀ c, UsedIn (bs.filter (fun c => decide (c ≠ b))) c ↔ UsedIn bs c ∧ c ≠ b := by
      intro c
      simp [UsedIn, and_right_comm]
    refine (hl.erase hL hb hrest).insert ⟨hdn, fun c hc => hfresh c ((hrest c).mp hc).1, ?_⟩
    intro c
    rw [hused c, hrest c]

theorem Reallocated.keeps {n r : Nat} {c : Block} (hre : Reallocated E bs b n h r h' bs')
    (hc : UsedIn bs c) (hne : c ≠ b) : UsedIn bs' c ∧ KeepsBlock E c h h' := by
  cases hre with
  | inPlace _ => exact ⟨hc, fun _ _ _ => rfl⟩
  | failed hkeep => exact ⟨hc, hkeep c hc⟩
  | moved _ _ _ _ hused hkeep _ => exact ⟨(hused c).mpr (Or.inr ⟨hc, hne⟩), hkeep c hc hne⟩

/-- **One call** on any machine: it returns, heap and caller still agree, the blocks it was not
given keep their payload, and a `krealloc` of a block is one of the three kinds. -/
theorem heapCall_spec (L : HeapLaws E Good) (hI : HeapInv E Good k h bs) (hl : LiveIs bs live)
    {op : HeapOp} (hok : HeapLegal ⟨h, live⟩ op) :
    ∃ r h', heapCall E h op = some (r, h') ∧ ∃ k' bs', HeapInv E Good k' h' bs' ∧
      LiveIs bs' (liveAfter live op r) ∧
      (∀ b, UsedIn bs b → b.addr + headerSize ≠ op.arg → UsedIn bs' b ∧ KeepsBlock E b h h') ∧
      ∀ b n, op = .krealloc (b.addr + headerSize) n → UsedIn bs b → n ≠ 0 →
        Reallocated E bs b n h r h' bs' := by
  cases op with
  | kmalloc n =>
    obtain ⟨r, h', k', bs', e, hI', hl', hkeep⟩ := kmalloc_live L hI hl hok
    exact ⟨r, h', e, ⟨k', bs', hI', hl', fun b hb _ => hkeep b hb, by simp⟩⟩
  | kfree p =>
    by_cases h0 : p = 0
    · subst h0
      refine ⟨0, h, rfl, ⟨k, bs, hI, ?_, fun b hb _ => ⟨hb, fun _ _ _ => rfl⟩, by simp⟩⟩
      rw [liveAfter, Finset.erase_eq_of_notMem hl.zero_notMem]
      exact hl
    · obtain ⟨b, hb, rfl⟩ := (hl p).mp (hok.resolve_left h0)
      obtain ⟨h', bs', e, hI', hl', hkeep⟩ := kfree_live L hI hl hb
      refine ⟨0, h', by rw [heapCall, e, Option.map_some], ⟨k, bs', hI', hl', hkeep, by simp⟩⟩
  | krealloc p n =>
    obtain ⟨hn, hp⟩ := hok
    by_cases h0 : p = 0
    · -- `krealloc(NULL, n)` is `kmalloc(n)`
      subst h0
      obtain ⟨r, h', k', bs', e, hI', hl', hkeep⟩ := kmalloc_live L hI hl hn
      refine ⟨r, h', ?_, ⟨k', bs', hI', ?_, fun b hb _ => hkeep b hb, fun b n heq hb => ?_⟩⟩
      · rw [heapCall, HeapEnv.krealloc, if_pos rfl, e]
      · rw [liveAfter, if_pos rfl]
        exact hl'
      · exact absurd (HeapOp.krealloc.inj heq).1.symm hb.ptr_ne_zero
    · obtain ⟨b, hb, rfl⟩ := (hl p).mp (hp.resolve_left h0)
      by_cases hn0 : n = 0
      · -- `krealloc(p, 0)` is `kfree(p)`
        subst hn0
        obtain ⟨h', bs', e, hI', hl', hkeep⟩ := kfree_live L hI hl hb
        refine ⟨0, h', ?_, ⟨k, bs', hI', ?_, hkeep, fun c n heq _ hne => ?_⟩⟩
        · simp only [heapCall, HeapEnv.krealloc, if_neg h0, if_true, e, Option.bind_eq_bind,
            Option.bind_some]
        · rw [liveAfter, if_neg h0, if_pos rfl]
          exact hl'
        · exact absurd (HeapOp.krealloc.inj heq).2.symm hne
      · obtain ⟨r, h', k', bs', e, hI', hre⟩ := krealloc_spec L hI hn hn0 hb
        refine ⟨r, h', e, ⟨k', bs', hI', ?_, fun c hc hne => ?_, fun c m heq hc _ => ?_⟩⟩
        · rw [liveAfter, if_neg h0, if_neg hn0]
          exact hre.liveIs hI.toListed hl hb
        · exact hre.keeps hc (fun heq => hne (by rw [heq]; rfl))
        · obtain ⟨haddr, rfl⟩ := HeapOp.krealloc.inj heq
          rw [← hI.toListed.eq_of_addr hb.1 hc.1 (Nat.add_right_cancel haddr)]
          exact hre

/-! ## 3. The representation, over whole histories -/

/-- The heap of a history and its caller: the list from `heap_head` is `bs` in both directions, it
tiles `[KHEAP_START, heap_end)` in blocks of nonzero multiples of 8 bytes with no two free
neighbours, and the blocks in use are the pointers held. -/
structure HeapShape (E : HeapEnv σ) (s : HeapRun σ) (bs : List Block) : Prop where
  head : s.heap.heapHead = firstAddr bs 0
  linked : ∃ m : Headers, (∀ b ∈ bs, ∀ f, E.load s.heap b.addr f = some ((m b.addr).get f)) ∧
    Linked m 0 bs 0
  tiled : Tiled headerSize 8 kheapStart s.heap.heapEnd bs
  live : ∀ p, p ∈ s.live ↔ ∃ b ∈ bs, b.free = false ∧ p = b.addr + headerSize

/-- What every history keeps. -/
def RunInv (E : HeapEnv σ) (Good : Nat → σ → Prop) (s : HeapRun σ) : Prop :=
  ∃ k bs, HeapInv E Good k s.heap bs ∧ LiveIs bs s.live

theorem RunInv.shape {s : HeapRun σ} (hI : HeapInv E Good k s.heap bs) (hl : LiveIs bs s.live) :
    HeapShape E s bs := by
  refine ⟨hI.head, ⟨E.headers s.heap, fun b hb f => ?_, hI.linked⟩, hI.tiled, fun p => ?_⟩
  · exact hI.toListed.holds.load ⟨b, hb, rfl⟩ f
  · rw [hl p]
    constructor
    · rintro ⟨b, ⟨hb, hf⟩, rfl⟩
      exact ⟨b, hb, hf, rfl⟩
    · rintro ⟨b, hb, hf, rfl⟩
      exact ⟨b, ⟨hb, hf⟩, rfl⟩

/-- A legal call returns and keeps it. -/
theorem RunInv.heapStep (L : HeapLaws E Good) {s : HeapRun σ} {op : HeapOp} (hs : RunInv E Good s)
    (hok : HeapLegal s op) : ∃ t, heapStep E s op = some t ∧ RunInv E Good t := by
  obtain ⟨k, bs, hI, hl⟩ := hs
  obtain ⟨r, h', e, k', bs', hI', hl', -, -⟩ := heapCall_spec L hI hl hok
  exact ⟨_, by rw [Memory.heapStep, e]; rfl, k', bs', hI', hl'⟩

theorem runInv_step (L : HeapLaws E Good) {s t : HeapRun σ} {op : HeapOp} (hs : RunInv E Good s)
    (hok : HeapLegal s op) (hst : heapStep E s op = some t) : RunInv E Good t := by
  obtain ⟨t', ht', hI⟩ := hs.heapStep L hok
  obtain rfl : t' = t := Option.some.inj (ht'.symm.trans hst)
  exact hI

/-- The machine at `kmalloc_init`, with nobody holding a pointer. -/
def heapBoot (m : σ) : HeapRun σ := ⟨HeapEnv.kmallocInit m, ∅⟩

theorem runInv_boot {m : σ} (hg : Good numberOfPages m) : RunInv E Good (heapBoot m) := by
  refine ⟨numberOfPages, [], heapInv_init hg (by decide), fun p => ?_⟩
  simp [heapBoot, UsedIn]

theorem runInv_reach (L : HeapLaws E Good) {m : σ} (hg : Good numberOfPages m) {s : HeapRun σ}
    (hreach : Reach (heapStep E) HeapLegal (heapBoot m) s) : RunInv E Good s :=
  hreach.inv (runInv_boot hg) (fun _ _ _ hs hok hst => runInv_step L hs hok hst)

/-- The same heap and caller on a machine that reads the same from `KHEAP_START` up. -/
theorem RunInv.of_same {Good' : Nat → σ → Prop} {s : HeapRun σ} (hs : RunInv E Good s) {t : σ}
    (hg : ∀ k, Good k s.heap.mach → Good' k t)
    (hsame : ∀ x, kheapStart ≤ x → x < 2 ^ 32 → E.get t x = E.get s.heap.mach x) :
    RunInv E Good' ⟨{ s.heap with mach := t }, s.live⟩ := by
  obtain ⟨k, bs, hI, hl⟩ := hs
  exact ⟨k, bs, hI.of_same (hg k hI.good) hsame, hl⟩

/-- When nobody holds a pointer there is at most one block, and it is free and spans the heap. -/
theorem HeapShape.all_freed {s : HeapRun σ} (hs : HeapShape E s bs) (hempty : s.live = ∅) :
    bs = [] ∧ s.heap.heapEnd = kheapStart ∨
      bs = [⟨kheapStart, s.heap.heapEnd - kheapStart - headerSize, true⟩] := by
  have hall : ∀ b ∈ bs, b.free = true := fun b hb => by
    by_contra hf
    have hmem := (hs.live (b.addr + headerSize)).mpr ⟨b, hb, by simpa using hf, rfl⟩
    rw [hempty] at hmem
    exact absurd hmem (by simp)
  have hlen := hs.tiled.length_le_one hall
  match bs, hs.tiled.tiles, hall, hlen with
  | [], ht, _, _ => exact Or.inl ⟨rfl, ht.symm⟩
  | [⟨a, n, f⟩], ⟨haddr, ht⟩, hall, _ =>
    have hfree : f = true := hall ⟨a, n, f⟩ (by simp)
    have hsize : n = s.heap.heapEnd - kheapStart - headerSize := by
      simp only [Tiles] at ht
      rw [← ht, Nat.add_assoc, Nat.add_sub_cancel_left, Nat.add_sub_cancel_left]
    exact Or.inr (by rw [hfree, ← hsize, ← haddr])

theorem RunInv.head_of_empty {s : HeapRun σ} (hs : RunInv E Good s) (hempty : s.live = ∅) :
    s.heap.heapHead = 0 ∧ s.heap.heapEnd = kheapStart ∨ s.heap.heapHead = kheapStart := by
  obtain ⟨k, bs, hI, hl⟩ := hs
  have hhead := hI.head
  rcases (RunInv.shape hI hl).all_freed hempty with ⟨rfl, hend⟩ | rfl
  · exact Or.inl ⟨hhead, hend⟩
  · exact Or.inr hhead

/-- **The heap's representation invariant.**  After any history of legal calls, with any frames
being handed out or refused, the list in memory has the shape, it is one free block (or nothing
yet) once every pointer has been given back, and the next legal call returns. -/
theorem heap_representation_invariant (m : Flat)
    (hm : m.supply.countP Option.isSome ≤ numberOfPages) (s : HeapRun Flat)
    (hreach : Reach (heapStep flatEnv) HeapLegal (heapBoot m) s) :
    (∃ bs, HeapShape flatEnv s bs ∧
      (s.live = ∅ → bs = [] ∧ s.heap.heapEnd = kheapStart ∨
        bs = [⟨kheapStart, s.heap.heapEnd - kheapStart - headerSize, true⟩])) ∧
      ∀ op, HeapLegal s op → (heapStep flatEnv s op).isSome := by
  have hI := runInv_reach flat_laws (m := m) hm hreach
  obtain ⟨k, bs, hheap, hl⟩ := id hI
  refine ⟨⟨bs, RunInv.shape hheap hl, (RunInv.shape hheap hl).all_freed⟩, fun op hok => ?_⟩
  obtain ⟨t, ht, -⟩ := hI.heapStep flat_laws hok
  exact Option.isSome_iff_exists.mpr ⟨t, ht⟩

/-- A machine with one zeroed frame left. -/
def oneFrame : Flat := ⟨fun _ => none, [some (fun _ => 0)]⟩

theorem oneFrame_supply : oneFrame.supply.countP Option.isSome ≤ numberOfPages := by decide

theorem oneFrame_kmalloc : ∃ s, heapStep flatEnv (heapBoot oneFrame) (.kmalloc 8) = some s ∧
    s.live = {0xD0000010} := by
  have hlive : (heapStep flatEnv (heapBoot oneFrame) (.kmalloc 8)).map HeapRun.live =
      some {0xD0000010} := by decide +kernel
  exact Option.map_eq_some_iff.mp hlive

theorem oneFrame_reach {s : HeapRun Flat}
    (hs : heapStep flatEnv (heapBoot oneFrame) (.kmalloc 8) = some s) :
    Reach (heapStep flatEnv) HeapLegal (heapBoot oneFrame) s :=
  .tail (o := .kmalloc 8) .refl (show 8 ≤ 0xFFFFEFF0 by decide) hs

/-- The first allocation of a machine with one frame. -/
theorem heap_representation_invariant_oneFrame : ∃ s, s.live = {0xD0000010} ∧
    Reach (heapStep flatEnv) HeapLegal (heapBoot oneFrame) s ∧ ∃ bs, HeapShape flatEnv s bs := by
  obtain ⟨s, hs, hlive⟩ := oneFrame_kmalloc
  obtain ⟨⟨bs, hbs, -⟩, -⟩ := heap_representation_invariant oneFrame oneFrame_supply s
    (oneFrame_reach hs)
  exact ⟨s, hlive, oneFrame_reach hs, bs, hbs⟩

/-! ## 4. Payloads, over whole histories -/

/-- The usable size of the allocation `p`, as its header has it. -/
def usable (E : HeapEnv σ) (h : HeapState σ) (p : Nat) : Option Nat :=
  E.load h (p - headerSize) .size

/-- `p` is an allocation in both states, of the same usable size and with the same bytes. -/
def SamePayload (E : HeapEnv σ) (h h' : HeapState σ) (p : Nat) : Prop :=
  ∃ n, usable E h p = some n ∧ usable E h' p = some n ∧ E.load h' (p - headerSize) .free = some 0 ∧
    ∀ j < n, (E.get h.mach (p + j)).isSome ∧ E.get h'.mach (p + j) = E.get h.mach (p + j)

theorem usable_of_used (hI : HeapInv E Good k h bs) (hb : UsedIn bs b) :
    usable E h (b.addr + headerSize) = some b.size := by
  rw [usable, Nat.add_sub_cancel]
  exact (hI.toListed.load_of_mem hb.1).1

theorem samePayload_of_keeps {k' : Nat} (hI : HeapInv E Good k h bs) (hI' : HeapInv E Good k' h' bs')
    (hb : UsedIn bs b) (hb' : UsedIn bs' b) (hkeep : KeepsBlock E b h h') :
    SamePayload E h h' (b.addr + headerSize) := by
  refine ⟨b.size, usable_of_used hI hb, usable_of_used hI' hb', ?_, fun j hj => ⟨?_, ?_⟩⟩
  · rw [Nat.add_sub_cancel, (hI'.toListed.load_of_mem hb'.1).2, hb'.2]
    rfl
  · have := hI.tiles.bounds b hb.1
    exact hI.mapped _ (by omega) (by omega)
  · exact hkeep _ (by omega) (by omega)

theorem live_aligned (hI : HeapInv E Good k h bs) (hl : LiveIs bs live) {p : Nat}
    (hp : p ∈ live) : 8 ∣ p := by
  obtain ⟨b, hb, rfl⟩ := (hl p).mp hp
  exact (hI.tiled.dvd_addr (by decide) (by decide) b hb.1).add (by decide)

/-- Two pointers a caller holds point to disjoint payloads. -/
theorem live_disjoint (hI : HeapInv E Good k h bs) (hl : LiveIs bs live) {p q : Nat}
    (hp : p ∈ live) (hq : q ∈ live) (hpq : p ≠ q) :
    ∃ m n, usable E h p = some m ∧ usable E h q = some n ∧ (p + m ≤ q ∨ q + n ≤ p) := by
  obtain ⟨b, hb, rfl⟩ := (hl p).mp hp
  obtain ⟨c, hc, rfl⟩ := (hl q).mp hq
  refine ⟨b.size, c.size, usable_of_used hI hb, usable_of_used hI hc, ?_⟩
  rcases hI.tiles.apart b hb.1 c hc.1 with rfl | h1 | h1
  · exact absurd rfl hpq
  · exact Or.inl (by omega)
  · exact Or.inr (by omega)

/-- A `krealloc` that returns a pointer. -/
theorem Reallocated.copied {k' : Nat} {n r : Nat} (hI' : HeapInv E Good k' h' bs')
    (hb : UsedIn bs b) (hre : Reallocated E bs b n h r h' bs') (hr : r ≠ 0) :
    (∃ m, usable E h' r = some m ∧ n ≤ m) ∧
      ∀ j < min b.size n, E.get h'.mach (r + j) = E.get h.mach (b.addr + headerSize + j) := by
  cases hre with
  | inPlace hn => exact ⟨⟨b.size, usable_of_used hI' hb, hn⟩, fun _ _ => rfl⟩
  | failed _ => exact absurd rfl hr
  | moved hdf _ hdn _ hused _ hcopied =>
    exact ⟨⟨_, usable_of_used hI' ((hused _).mpr (Or.inl rfl)), hdn⟩,
      fun j hj => hcopied j (lt_of_lt_of_le hj (min_le_left _ _))⟩

/-- A `krealloc` that returns `NULL`. -/
theorem Reallocated.null {n : Nat} (hb : UsedIn bs b) (hre : Reallocated E bs b n h 0 h' bs') :
    bs' = bs ∧ KeepsBlock E b h h' := by
  generalize hr : (0 : Nat) = r at hre
  cases hre with
  | inPlace _ => exact absurd hr.symm hb.ptr_ne_zero
  | failed hkeep => exact ⟨rfl, hkeep b hb⟩
  | moved _ _ _ _ _ _ _ =>
    have := headerSize_eq
    omega

/-- **Payload integrity.**  After any history of legal calls: the payloads of two pointers held
are aligned and disjoint, and the next legal call returns, leaves every payload it was not given
as it is, hands a `krealloc` its old bytes, and a `krealloc` to a size other than 0 that returns
`NULL` leaves its argument held and as it is. -/
theorem heap_payload_integrity (m : Flat)
    (hm : m.supply.countP Option.isSome ≤ numberOfPages) (s : HeapRun Flat)
    (hreach : Reach (heapStep flatEnv) HeapLegal (heapBoot m) s) :
    (∀ p ∈ s.live, 8 ∣ p) ∧
    (∀ p ∈ s.live, ∀ q ∈ s.live, p ≠ q → ∃ np nq, usable flatEnv s.heap p = some np ∧
      usable flatEnv s.heap q = some nq ∧ (p + np ≤ q ∨ q + nq ≤ p)) ∧
    ∀ op, HeapLegal s op → ∃ r h', heapCall flatEnv s.heap op = some (r, h') ∧
      (∀ q ∈ s.live, q ≠ op.arg → SamePayload flatEnv s.heap h' q) ∧
      ∀ p n, op = .krealloc p n → p ≠ 0 →
        (r ≠ 0 → ∃ old new, usable flatEnv s.heap p = some old ∧ usable flatEnv h' r = some new ∧
          n ≤ new ∧ ∀ j < min old n,
            flatEnv.get h'.mach (r + j) = flatEnv.get s.heap.mach (p + j)) ∧
        (0 < n → r = 0 → p ∈ liveAfter s.live op r ∧ SamePayload flatEnv s.heap h' p) := by
  obtain ⟨k, bs, hI, hl⟩ := runInv_reach flat_laws (m := m) hm hreach
  refine ⟨fun p hp => live_aligned hI hl hp, fun p hp q hq hpq => live_disjoint hI hl hp hq hpq,
    fun op hok => ?_⟩
  obtain ⟨r, h', e, k', bs', hI', hl', hkeep, hre⟩ := heapCall_spec flat_laws hI hl hok
  refine ⟨r, h', e, fun q hq hne => ?_, fun p n hop hp0 => ?_⟩
  · obtain ⟨b, hb, rfl⟩ := (hl q).mp hq
    obtain ⟨hb', hkb⟩ := hkeep b hb hne
    exact samePayload_of_keeps hI hI' hb hb' hkb
  · subst hop
    obtain ⟨b, hb, rfl⟩ := (hl p).mp (hok.2.resolve_left hp0)
    refine ⟨fun hr => ?_, fun hn hr => ?_⟩
    · -- a `krealloc` to size 0 is a `kfree` and returns `NULL`
      have hn0 : n ≠ 0 := by
        rintro rfl
        obtain ⟨h'', -, ek, -⟩ := kfree_spec flat_laws hI hb
        simp only [heapCall, HeapEnv.krealloc, if_neg hp0, if_true, ek, Option.bind_eq_bind,
          Option.bind_some, Option.some.injEq, Prod.mk.injEq] at e
        exact hr e.1.symm
      obtain ⟨⟨new, hnew, hle⟩, hbytes⟩ := (hre b n rfl hb hn0).copied hI' hb hr
      exact ⟨b.size, new, usable_of_used hI hb, hnew, hle, hbytes⟩
    · subst hr
      obtain ⟨rfl, hkb⟩ := (hre b n rfl hb (by omega)).null hb
      exact ⟨(hl' _).mpr ⟨b, hb, rfl⟩, samePayload_of_keeps hI hI' hb hb hkb⟩

/-- The second allocation of a machine with one frame: it keeps the first one's bytes. -/
theorem heap_payload_integrity_oneFrame : ∃ s : HeapRun Flat, s.live = {0xD0000010} ∧
    ∃ r h', heapCall flatEnv s.heap (.kmalloc 100) = some (r, h') ∧
      SamePayload flatEnv s.heap h' 0xD0000010 := by
  obtain ⟨s, hs, hlive⟩ := oneFrame_kmalloc
  obtain ⟨-, -, hcall⟩ := heap_payload_integrity oneFrame oneFrame_supply s (oneFrame_reach hs)
  obtain ⟨r, h', e, hkeep, -⟩ := hcall (.kmalloc 100) (show 100 ≤ 0xFFFFEFF0 by decide)
  exact ⟨s, hlive, r, h', e, hkeep _ (by rw [hlive]; simp) (by decide)⟩

end JarvOs.Memory
