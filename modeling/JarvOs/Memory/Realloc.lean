/-
# `realloc` (`libc/stdlib.c`)

The library's `realloc` is not `krealloc`: it never looks at the header of the block it is given, so it
does not know how many bytes there are to copy.  It allocates a new block, copies as many bytes as were
asked for NOW, and frees the old one.  The new block has room for them, so the heap stays in order
(`RunInv.realloc`); but the bytes that are READ are `p[0..n)`, and only the first `old` of them are the
caller's.

A call is modelled with the addresses its copy reads.  `realloc_copies_old_iff` is the exact condition:
the copy keeps to the old allocation if and only if the block does not grow.  When it grows, the bytes
behind it are those of the next header and of whatever comes next, or there are none and the call
faults; which of the two depends on where in the heap the block lies.
-/
import JarvOs.Memory.HeapSizes

namespace JarvOs.Memory

open JarvOs.Lib

variable {σ : Type} {E : HeapEnv σ} {Good : Nat → σ → Prop} {k : Nat} {h h' : HeapState σ}
  {bs bs' : List Block} {b : Block} {live : Finset Nat} {p n r : Nat} {reads : List Nat}

/-! ## 1. The function -/

/-- `realloc`: the pointer it returns, the addresses `memcpy` has read, and the heap. -/
def HeapEnv.realloc (E : HeapEnv σ) (h : HeapState σ) (ptr size : Nat) :
    Option (Nat × List Nat × HeapState σ) := do
  if ptr = 0 then
    let (newPtr, h) ← E.kmalloc h size
    some (newPtr, [], h)
  else if size = 0 then
    let h ← E.kfree h ptr
    some (0, [], h)
  else
    let (newPtr, h) ← E.kmalloc h size
    if newPtr ≠ 0 then
      let m ← E.memcpy h.mach newPtr ptr size
      let h ← E.kfree { h with mach := m } ptr
      some (newPtr, memcpyReads ptr size, h)
    else some (newPtr, [], h)

theorem realloc_null (E : HeapEnv σ) (h : HeapState σ) (n : Nat) :
    E.realloc h 0 n = (E.kmalloc h n).map (fun r => (r.1, [], r.2)) := by
  simp only [HeapEnv.realloc, if_true, Option.bind_eq_bind]
  cases E.kmalloc h n with
  | none => rfl
  | some r => rfl

theorem realloc_zero (E : HeapEnv σ) (h : HeapState σ) (hp : p ≠ 0) :
    E.realloc h p 0 = (E.kfree h p).map (fun h' => (0, [], h')) := by
  simp only [HeapEnv.realloc, if_neg hp, if_true, Option.bind_eq_bind]
  cases E.kfree h p with
  | none => rfl
  | some h' => rfl

/-- **What a call did that returned**: it was refused, or it allocated, copied and freed. -/
theorem realloc_cases (hp : p ≠ 0) (hn : n ≠ 0) (hcall : E.realloc h p n = some (r, reads, h')) :
    (r = 0 ∧ E.kmalloc h n = some (0, h')) ∨
      (r ≠ 0 ∧ reads = memcpyReads p n ∧ ∃ h₁ m, E.kmalloc h n = some (r, h₁) ∧
        E.memcpy h₁.mach r p n = some m ∧ E.kfree { h₁ with mach := m } p = some h') := by
  simp only [HeapEnv.realloc, if_neg hp, if_neg hn, Option.bind_eq_bind,
    Option.bind_eq_some_iff] at hcall
  obtain ⟨⟨q, h₁⟩, hk, hrest⟩ := hcall
  dsimp only at hrest
  by_cases hq : q = 0
  · rw [if_neg (not_not.mpr hq), Option.some.injEq, Prod.mk.injEq, Prod.mk.injEq] at hrest
    obtain ⟨rfl, -, rfl⟩ := hrest
    subst hq
    exact Or.inl ⟨rfl, hk⟩
  · rw [if_pos hq, Option.bind_eq_some_iff] at hrest
    obtain ⟨m, hcpy, hrest⟩ := hrest
    obtain ⟨h₂, hfree, hret⟩ := Option.bind_eq_some_iff.mp hrest
    rw [Option.some.injEq, Prod.mk.injEq, Prod.mk.injEq] at hret
    obtain ⟨rfl, rfl, rfl⟩ := hret
    exact Or.inr ⟨hq, rfl, h₁, m, hk, hcpy, hfree⟩

/-! ## 2. One call -/

/-- The copy: the new block `d` has room, whatever is read. -/
theorem realloc_moved (L : HeapLaws E Good) (hI : HeapInv E Good k h bs) (hl : LiveIs bs live)
    (hb : UsedIn bs b) (hn : n ≤ 0xFFFFEFF0) {h₁ : HeapState σ} {m : σ} (hr : r ≠ 0)
    (hk : E.kmalloc h n = some (r, h₁))
    (hcpy : E.memcpy h₁.mach r (b.addr + headerSize) n = some m)
    (hfree : E.kfree { h₁ with mach := m } (b.addr + headerSize) = some h') :
    ∃ k' bs', HeapInv E Good k' h' bs' ∧
      LiveIs bs' (insert r (live.erase (b.addr + headerSize))) ∧
      ∀ j < min b.size n, E.get h'.mach (r + j) = E.get h.mach (b.addr + headerSize + j) := by
  obtain ⟨r', h₁', k', bs₁, ek, hI₁, hkeep, hcase⟩ := kmalloc_spec L hI hn
  obtain ⟨rfl, rfl⟩ := Prod.mk.inj (Option.some.inj (ek.symm.trans hk))
  obtain ⟨d, rfl, -, -, hall⟩ := hcase.resolve_left (fun h0 => hr h0.1)
  have hb₁ : UsedIn bs₁ b := (hall.used b).mpr (Or.inr hb)
  have hd₁ : UsedIn bs₁ d := (hall.used d).mpr (Or.inl rfl)
  have hbd : b.addr ≠ d.addr := hall.fresh b hb
  obtain ⟨hI₂, -, hcopied⟩ := hI₁.memcpy_into L hd₁.1 hall.size hcpy
  obtain ⟨h₃, bs₃, ef, hI₃, hused, hkeep₃⟩ := kfree_spec L hI₂ hb₁
  obtain rfl := Option.some.inj (ef.symm.trans hfree)
  refine ⟨k', bs₃, hI₃, ?_, fun j hj => ?_⟩
  · -- the new pointer is not the old one, so it does not matter which of the two comes first
    have hswap := (hl.insert hall).erase hI₂.toListed hb₁ hused
    rwa [Finset.erase_insert_of_ne (fun heq => hbd (Nat.add_right_cancel heq).symm)] at hswap
  · have hjn : j < n := hj.trans_le (min_le_right _ _)
    have hjb : j < b.size := hj.trans_le (min_le_left _ _)
    have hsize := hall.size
    calc E.get h₃.mach (d.addr + headerSize + j)
        = E.get m (d.addr + headerSize + j) := hkeep₃ d hd₁ _ (by omega) (by omega)
      _ = E.get h₁'.mach (b.addr + headerSize + j) :=
          hcopied b hb₁.1 hbd j hjn (by omega) (by omega)
      _ = E.get h.mach (b.addr + headerSize + j) := hkeep b hb _ (by omega) (by omega)

/-- **`realloc` of a block in use** that returns: heap and caller agree, and what the old block and the
new one have in common is the same. -/
theorem realloc_spec (L : HeapLaws E Good) (hI : HeapInv E Good k h bs) (hl : LiveIs bs live)
    (hb : UsedIn bs b) (hn : n ≤ 0xFFFFEFF0) (h0 : n ≠ 0)
    (hcall : E.realloc h (b.addr + headerSize) n = some (r, reads, h')) :
    ∃ k' bs', HeapInv E Good k' h' bs' ∧
      LiveIs bs' (liveAfter live (.krealloc (b.addr + headerSize) n) r) ∧
      (r ≠ 0 → ∀ j < min b.size n,
        E.get h'.mach (r + j) = E.get h.mach (b.addr + headerSize + j)) := by
  simp only [liveAfter, if_neg hb.ptr_ne_zero, if_neg h0]
  rcases realloc_cases hb.ptr_ne_zero h0 hcall with ⟨rfl, hk⟩ | ⟨hr, -, h₁, m, hk, hcpy, hfree⟩
  · obtain ⟨k', bs', hI', hl', -⟩ := kmalloc_sized L hI hl hn hk
    rw [if_pos rfl] at hl' ⊢
    exact ⟨k', bs', hI', hl', fun hne => absurd rfl hne⟩
  · obtain ⟨k', bs', hI', hl', hsame⟩ := realloc_moved L hI hl hb hn hr hk hcpy hfree
    rw [if_neg hr]
    exact ⟨k', bs', hI', hl', fun _ => hsame⟩

/-- A call that does not grow the block returns. -/
theorem realloc_returns (L : HeapLaws E Good) (hI : HeapInv E Good k h bs) (hb : UsedIn bs b)
    (h0 : n ≠ 0) (hle : n ≤ b.size) : (E.realloc h (b.addr + headerSize) n).isSome := by
  have hbd := hI.tiles.bounds b hb.1
  have hbound := hI.bound
  have hstart := kheapStart_eq
  obtain ⟨q, h₁, k', bs₁, hk, hI₁, -, hcase⟩ := kmalloc_spec L hI (show n ≤ 0xFFFFEFF0 by omega)
  simp only [HeapEnv.realloc, if_neg hb.ptr_ne_zero, if_neg h0, hk, Option.bind_eq_bind,
    Option.bind_some]
  rcases hcase with ⟨rfl, -⟩ | ⟨d, rfl, -, -, hall⟩
  · rfl
  · have hb₁ : UsedIn bs₁ b := (hall.used b).mpr (Or.inr hb)
    have hd₁ : UsedIn bs₁ d := (hall.used d).mpr (Or.inl rfl)
    obtain ⟨m, hcpy⟩ := hI₁.memcpy_isSome L hb₁.1 hd₁.1 hle hall.size
    obtain ⟨hI₂, -, -⟩ := hI₁.memcpy_into L hd₁.1 hall.size hcpy
    obtain ⟨h₃, -, ef, -⟩ := kfree_spec L hI₂ hb₁
    rw [if_pos hd₁.ptr_ne_zero, hcpy, Option.bind_some, ef]
    rfl

/-! ## 3. Every history -/

/-- What a client of the library does: call the heap or `calloc`, write to an allocation, or
`realloc`.  (`malloc` and `free` are `kmalloc` and `kfree`.) -/
inductive LibcOp
  | client (op : ClientOp)
  | realloc (p n : Nat)
deriving DecidableEq, Repr

/-- One operation. -/
def libcStep (E : HeapEnv σ) (s : HeapRun σ) : LibcOp → Option (HeapRun σ)
  | .client op => clientStep E s op
  | .realloc p n =>
    (E.realloc s.heap p n).map (fun r => ⟨r.2.2, liveAfter s.live (.krealloc p n) r.1⟩)

/-- Requests that wrap nothing, on pointers that are held. -/
def LibcLegal (E : HeapEnv σ) (s : HeapRun σ) : LibcOp → Prop
  | .client op => ClientLegal E s op
  | .realloc p n => n ≤ 0xFFFFEFF0 ∧ (p = 0 ∨ p ∈ s.live)

/-- **Step lemma**: a `realloc` that returns keeps the representation, over-reading or not. -/
theorem RunInv.realloc (L : HeapLaws E Good) {s : HeapRun σ} (hs : RunInv E Good s)
    (hok : LibcLegal E s (.realloc p n)) (hcall : E.realloc s.heap p n = some (r, reads, h')) :
    RunInv E Good ⟨h', liveAfter s.live (.krealloc p n) r⟩ := by
  obtain ⟨k, bs, hI, hl⟩ := hs
  obtain ⟨hn, hp⟩ := hok
  rcases eq_or_ne p 0 with rfl | hp0
  · rw [realloc_null] at hcall
    obtain ⟨⟨q, h₁⟩, hk, ⟨⟩⟩ := Option.map_eq_some_iff.mp hcall
    obtain ⟨k', bs', hI', hl', -⟩ := kmalloc_sized L hI hl hn hk
    exact ⟨k', bs', hI', by rwa [liveAfter, if_pos rfl]⟩
  · obtain ⟨b, hb, rfl⟩ := (hl p).mp (hp.resolve_left hp0)
    rcases eq_or_ne n 0 with rfl | hn0
    · rw [realloc_zero E s.heap hp0] at hcall
      obtain ⟨h₁, hfree, ⟨⟩⟩ := Option.map_eq_some_iff.mp hcall
      obtain ⟨h₂, bs', e, hI', hl', -⟩ := kfree_live L hI hl hb
      obtain rfl := Option.some.inj (e.symm.trans hfree)
      exact ⟨k, bs', hI', by rwa [liveAfter, if_neg hp0, if_pos rfl]⟩
    · obtain ⟨k', bs', hI', hl', -⟩ := realloc_spec L hI hl hb hn hn0 hcall
      exact ⟨k', bs', hI', hl'⟩

theorem runInv_libc (L : HeapLaws E Good) {m : σ} (hg : Good numberOfPages m) {s : HeapRun σ}
    (hreach : Reach (libcStep E) (LibcLegal E) (heapBoot m) s) : RunInv E Good s := by
  refine hreach.inv (runInv_boot hg) (fun u op t hu hok hst => ?_)
  cases op with
  | client op =>
    obtain ⟨r, h', e, hrun, -⟩ := clientCall_spec L hu hok
    rw [libcStep, clientStep, e, Option.map_some, Option.some.injEq] at hst
    rwa [← hst]
  | realloc p n =>
    obtain ⟨⟨r, reads, h'⟩, e, rfl⟩ := Option.map_eq_some_iff.mp hst
    exact hu.realloc L hok e

/-! ## 4. What is copied -/

/-- The law: the new block starts with what the old one, of `old` bytes, held, and the copy has read
nothing but the old one. -/
structure CopiesOld (E : HeapEnv σ) (h : HeapState σ) (p old n r : Nat) (reads : List Nat)
    (h' : HeapState σ) : Prop where
  same : ∀ j < min old n, E.get h'.mach (r + j) = E.get h.mach (p + j)
  within : ∀ x ∈ reads, p ≤ x ∧ x < p + old ∧ x < h.heapEnd

/-- **`realloc` copies the old allocation if and only if it does not grow it.**  On any machine, after
any history of library calls and writes in which no request wraps, for every pointer held and every
size but 0: a call that does not grow the block returns, and a call that returns a new block has copied
only the old allocation exactly if that had `n` bytes. -/
theorem realloc_copies_old_iff (L : HeapLaws E Good) (m : σ) (hg : Good numberOfPages m)
    (s : HeapRun σ) (hreach : Reach (libcStep E) (LibcLegal E) (heapBoot m) s) (p n : Nat)
    (hp : p ∈ s.live) (h0 : n ≠ 0) :
    ∃ old, usable E s.heap p = some old ∧ (n ≤ old → (E.realloc s.heap p n).isSome) ∧
      ∀ r reads h', E.realloc s.heap p n = some (r, reads, h') → r ≠ 0 →
        (CopiesOld E s.heap p old n r reads h' ↔ n ≤ old) := by
  obtain ⟨k, bs, hI, hl⟩ := runInv_libc L hg hreach
  obtain ⟨b, hb, rfl⟩ := (hl p).mp hp
  have hbd := hI.tiles.bounds b hb.1
  have hbound := hI.bound
  have hstart := kheapStart_eq
  refine ⟨b.size, usable_of_used hI hb, realloc_returns L hI hb h0, fun r reads h' hcall hr => ?_⟩
  obtain ⟨-, rfl, -⟩ := (realloc_cases hb.ptr_ne_zero h0 hcall).resolve_left (fun hz => hr hz.1)
  constructor
  · -- the first byte behind the old block would be read
    intro hlaw
    by_contra hgrow
    have hread := hlaw.within _
      (add_mem_memcpyReads (show b.size < n by omega) (show b.addr + headerSize + b.size < 2 ^ 32 by omega))
    omega
  · intro hle
    obtain ⟨-, -, -, -, hsame⟩ := realloc_spec L hI hl hb (by omega) h0 hcall
    refine ⟨hsame hr, fun x hx => ?_⟩
    have := bounds_of_mem_memcpyReads (by omega) hx
    omega

/-- The first allocation on a machine with one frame, of 8 bytes, and a `realloc` of it to `n`. -/
theorem oneFrame_realloc {reads : List Nat}
    (hrun : ((heapStep flatEnv (heapBoot oneFrame) (.kmalloc 8)).bind (fun s =>
      (flatEnv.realloc s.heap 0xD0000010 n).map (fun r =>
        (s.live, usable flatEnv s.heap 0xD0000010, r.1, r.2.1)))) =
      some ({0xD0000010}, some 8, r, reads)) :
    ∃ s, Reach (libcStep flatEnv) (LibcLegal flatEnv) (heapBoot oneFrame) s ∧
      0xD0000010 ∈ s.live ∧ usable flatEnv s.heap 0xD0000010 = some 8 ∧
      ∃ h', flatEnv.realloc s.heap 0xD0000010 n = some (r, reads, h') := by
  obtain ⟨s, hs, hrest⟩ := Option.bind_eq_some_iff.mp hrun
  obtain ⟨⟨q, reads', h'⟩, hcall, hret⟩ := Option.map_eq_some_iff.mp hrest
  simp only [Prod.mk.injEq] at hret
  obtain ⟨hlive, husable, rfl, rfl⟩ := hret
  exact ⟨s, .tail (o := .client (.heap (.kmalloc 8))) .refl (show 8 ≤ 0xFFFFEFF0 by decide) hs,
    by rw [hlive]; simp, husable, h', hcall⟩

/-- Four of eight bytes. -/
theorem realloc_copies_old_shrunk : ∃ s : HeapRun Flat, 0xD0000010 ∈ s.live ∧ ∃ reads h',
    flatEnv.realloc s.heap 0xD0000010 4 = some (0xD0000028, reads, h') ∧
      CopiesOld flatEnv s.heap 0xD0000010 8 4 0xD0000028 reads h' := by
  obtain ⟨s, hreach, hlive, husable, h', hcall⟩ := oneFrame_realloc (n := 4) (r := 0xD0000028)
    (by decide +kernel : _ = some (_, _, _, memcpyReads 0xD0000010 4))
  obtain ⟨old, hold, -, hlaw⟩ := realloc_copies_old_iff flat_laws oneFrame oneFrame_supply s hreach
    0xD0000010 4 hlive (by decide)
  obtain rfl := Option.some.inj (husable.symm.trans hold)
  exact ⟨s, hlive, _, h', hcall, (hlaw _ _ _ hcall (by decide)).mpr (by decide)⟩

/-- **`realloc(p, 16)` of 8 bytes reads the header behind them**, at `p + 8`. -/
theorem realloc_over_reads : ∃ s,
    Reach (libcStep flatEnv) (LibcLegal flatEnv) (heapBoot oneFrame) s ∧ 0xD0000010 ∈ s.live ∧
      usable flatEnv s.heap 0xD0000010 = some 8 ∧ ∃ reads h',
      flatEnv.realloc s.heap 0xD0000010 16 = some (0xD0000028, reads, h') ∧
      0xD0000018 ∈ reads ∧ ¬ CopiesOld flatEnv s.heap 0xD0000010 8 16 0xD0000028 reads h' := by
  obtain ⟨s, hreach, hlive, husable, h', hcall⟩ := oneFrame_realloc (n := 16) (r := 0xD0000028)
    (by decide +kernel : _ = some (_, _, _, memcpyReads 0xD0000010 16))
  have hread : 0xD0000018 ∈ memcpyReads 0xD0000010 16 := by decide
  refine ⟨s, hreach, hlive, husable, _, h', hcall, hread, fun hlaw => ?_⟩
  have := hlaw.within _ hread
  omega

end JarvOs.Memory
