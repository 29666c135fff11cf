/-
# Allocations of at least the size asked for

A pointer from `kmalloc(n)`, `krealloc(p, n)` or `calloc(a, b)` is only of use if there is room for `n`
(or `a * b`) bytes behind it, inside the heap.  `calloc` of `libc/stdlib.c` checks its product for
overflow; below it nobody checks anything: rounding up to 8, adding the header and rounding up to pages
are 32-bit computations that wrap for requests near 2^32.  The largest request for which none of them
does is 0xFFFFEFF0.

`no_undersized_allocation` follows histories in which requests stay below that; clients may also write
to their allocations.  `kmalloc_undersized` is the smallest request whose rounding wraps to 0.
-/
import JarvOs.Memory.HeapRuns

namespace JarvOs.Memory

open JarvOs.Lib

variable {σ : Type} {E : HeapEnv σ} {Good : Nat → σ → Prop} {k : Nat} {h h' : HeapState σ}
  {bs bs' : List Block} {b : Block} {live : Finset Nat}

/-! ## 1. `calloc` -/

/-- `calloc` -/
def HeapEnv.calloc (E : HeapEnv σ) (h : HeapState σ) (nmemb size : Nat) :
    Option (Nat × HeapState σ) := do
  let total := mul32 nmemb size
  if nmemb ≠ 0 ∧ total / nmemb ≠ size then some (0, h)
  else
    let (ptr, h) ← E.kmalloc h total
    if ptr ≠ 0 then
      let m ← E.memset h.mach ptr 0 total
      some (ptr, { h with mach := m })
    else some (ptr, h)

/-- A product that does not fit is refused. -/
theorem calloc_overflow {nmemb size : Nat} (hbig : 2 ^ 32 ≤ nmemb * size) :
    E.calloc h nmemb size = some (0, h) := by
  rw [HeapEnv.calloc, if_pos (mul32_div_ne_iff.mpr hbig)]

/-- One that fits is asked for and cleared. -/
theorem calloc_fits {nmemb size : Nat} (hfits : nmemb * size < 2 ^ 32) :
    E.calloc h nmemb size = (E.kmalloc h (nmemb * size)).bind (fun r =>
      if r.1 ≠ 0 then (E.memset r.2.mach r.1 0 (nmemb * size)).map
        (fun m => (r.1, { r.2 with mach := m })) else some r) := by
  have hcheck : ¬ (nmemb ≠ 0 ∧ mul32 nmemb size / nmemb ≠ size) :=
    mul32_div_ne_iff.not.mpr (by omega)
  rw [HeapEnv.calloc, if_neg hcheck, mul32_of_lt hfits]
  simp only [Option.bind_eq_bind, Option.map_eq_bind]
  rfl

/-! ## 2. Clients -/

/-- What a client of the heap does: call it, or write a byte of an allocation. -/
inductive ClientOp
  | heap (op : HeapOp)
  | calloc (nmemb size : Nat)
  | write (p i : Nat) (x : UInt8)
deriving DecidableEq, Repr

/-- One operation and the pointer it returns. -/
def clientCall (E : HeapEnv σ) (h : HeapState σ) : ClientOp → Option (Nat × HeapState σ)
  | .heap op => heapCall E h op
  | .calloc nmemb size => E.calloc h nmemb size
  | .write p i x => (E.put h.mach (p + i) x).map (fun m => (0, { h with mach := m }))

/-- The pointers held afterwards. -/
def clientLive (live : Finset Nat) (op : ClientOp) (r : Nat) : Finset Nat :=
  match op with
  | .heap op => liveAfter live op r
  | .calloc _ _ => if r = 0 then live else insert r live
  | .write _ _ _ => live

def clientStep (E : HeapEnv σ) (s : HeapRun σ) (op : ClientOp) : Option (HeapRun σ) :=
  (clientCall E s.heap op).map (fun r => ⟨r.2, clientLive s.live op r.1⟩)

/-- The bytes asked for, as exact integers. -/
def ClientOp.wanted : ClientOp → Nat
  | .heap (.kmalloc n) => n
  | .heap (.krealloc _ n) => n
  | .heap (.kfree _) => 0
  | .calloc nmemb size => nmemb * size
  | .write _ _ _ => 0

/-- Requests that wrap nothing (a product `calloc` refuses may be as large as it likes), pointers that
are held, and writes inside them. -/
def ClientLegal (E : HeapEnv σ) (s : HeapRun σ) : ClientOp → Prop
  | .heap op => HeapLegal s op
  | .calloc nmemb size => nmemb * size ≤ 0xFFFFEFF0 ∨ 2 ^ 32 ≤ nmemb * size
  | .write p i _ => p ∈ s.live ∧ ∃ n, usable E s.heap p = some n ∧ i < n

/-- The allocation `p` has room for `n` bytes, and lies in the heap with its header. -/
def Sized (E : HeapEnv σ) (h : HeapState σ) (p n : Nat) : Prop :=
  ∃ size, usable E h p = some size ∧ n ≤ size ∧ kheapStart + headerSize ≤ p ∧ p + size ≤ h.heapEnd

theorem UsedIn.sized (hI : HeapInv E Good k h bs) (hb : UsedIn bs b) {n : Nat} (hn : n ≤ b.size) :
    Sized E h (b.addr + headerSize) n := by
  have hbd := hI.tiles.bounds b hb.1
  exact ⟨b.size, usable_of_used hI hb, hn, by omega, by omega⟩

/-! ## 3. One operation -/

theorem kmalloc_sized (L : HeapLaws E Good) (hI : HeapInv E Good k h bs) (hl : LiveIs bs live)
    {n r : Nat} (hn : n ≤ 0xFFFFEFF0) (hcall : E.kmalloc h n = some (r, h')) :
    ∃ k' bs', HeapInv E Good k' h' bs' ∧ LiveIs bs' (if r = 0 then live else insert r live) ∧
      (r ≠ 0 → ∃ b, UsedIn bs' b ∧ r = b.addr + headerSize ∧ n ≤ b.size) := by
  obtain ⟨r', h'', k', bs', e, hI', -, hcase⟩ := kmalloc_spec L hI hn
  obtain ⟨rfl, rfl⟩ := Prod.mk.inj (Option.some.inj (e.symm.trans hcall))
  rcases hcase with ⟨rfl, rfl⟩ | ⟨b, rfl, -, -, hall⟩
  · exact ⟨k', bs', hI', by rwa [if_pos rfl], fun hr => absurd rfl hr⟩
  · have hused : UsedIn bs' b := (hall.used b).mpr (Or.inl rfl)
    refine ⟨k', bs', hI', ?_, fun _ => ⟨b, hused, rfl, hall.size⟩⟩
    rw [if_neg hused.ptr_ne_zero]
    exact hl.insert hall

/-- `calloc` returns NULL, or room for the product with nothing but zeros in it. -/
theorem calloc_cleared (L : HeapLaws E Good) (hI : HeapInv E Good k h bs) (hl : LiveIs bs live)
    {nmemb size : Nat} (hok : nmemb * size ≤ 0xFFFFEFF0 ∨ 2 ^ 32 ≤ nmemb * size) :
    ∃ r h', E.calloc h nmemb size = some (r, h') ∧ ∃ k' bs', HeapInv E Good k' h' bs' ∧
      LiveIs bs' (if r = 0 then live else insert r live) ∧
      (r ≠ 0 → Sized E h' r (nmemb * size) ∧
        ∀ i < nmemb * size, E.get h'.mach (r + i) = some 0) := by
  rcases hok with hn | hbig
  · rw [calloc_fits (by omega)]
    obtain ⟨r, h₁, -, -, e, -⟩ := kmalloc_spec L hI hn
    obtain ⟨k', bs', hI', hl', hblock⟩ := kmalloc_sized L hI hl hn e
    rw [e, Option.bind_some]
    rcases eq_or_ne r 0 with rfl | hr
    · exact ⟨0, h₁, if_neg (not_not.mpr rfl), k', bs', hI', hl', fun h0 => absurd rfl h0⟩
    · obtain ⟨b, hb, rfl, hle⟩ := hblock hr
      have hbd := hI'.tiles.bounds b hb.1
      have hbound := hI'.bound
      -- the payload of the block is cleared
      obtain ⟨t, hset, hg, hfilled, hoff⟩ := (L.bytes k').memset_spec (le_refl _) 0 (nmemb * size)
        hI'.good (d := b.addr + headerSize) (by omega) (by omega)
        (fun j hj => hI'.mapped _ (by omega) (by omega))
      have hI'' := hI'.of_payload hb.1 hle hg hoff (fun j hj => by rw [hfilled j hj]; rfl)
      refine ⟨b.addr + headerSize, { h₁ with mach := t }, ?_, k', bs', hI'', hl', fun _ => ?_⟩
      · rw [if_pos hr]
        simp only [hset, Option.map_some]
      · exact ⟨hb.sized hI'' hle, hfilled⟩
  · exact ⟨0, h, calloc_overflow hbig, k, bs, hI, by rwa [if_pos rfl], fun h0 => absurd rfl h0⟩

/-- A byte of an allocation. -/
theorem write_spec (L : HeapLaws E Good) (hI : HeapInv E Good k h bs) (hl : LiveIs bs live)
    {p i n : Nat} (x : UInt8) (hp : p ∈ live) (hn : usable E h p = some n) (hi : i < n) :
    ∃ m, E.put h.mach (p + i) x = some m ∧ HeapInv E Good k { h with mach := m } bs := by
  obtain ⟨b, hb, rfl⟩ := (hl p).mp hp
  obtain rfl := Option.some.inj ((usable_of_used hI hb).symm.trans hn)
  have hbd := hI.tiles.bounds b hb.1
  have hbound := hI.bound
  obtain ⟨m, hput, hg, hget⟩ := (L.bytes k).put_ok x hI.good
    (show kheapStart ≤ b.addr + headerSize + i by omega) (by omega)
    (hI.mapped _ (by omega) (by omega))
  refine ⟨m, hput, hI.of_payload hb.1 (le_refl _) hg (fun y hlo hhi hy => ?_) (fun j hj => ?_)⟩
  · rw [hget y hlo hhi, if_neg (by omega)]
  · rw [hget _ (by omega) (by omega)]
    split
    · rfl
    · exact hI.mapped _ (by omega) (by omega)

/-- A pointer a call has returned is held. -/
theorem mem_liveAfter {op : HeapOp} {r : Nat} (hr : r ≠ 0) (hop : ∀ p, op ≠ .kfree p)
    (hn : ∀ p, op ≠ .krealloc p 0) : r ∈ liveAfter live op r := by
  cases op with
  | kmalloc n =>
    rw [liveAfter, if_neg hr]
    exact Finset.mem_insert_self _ _
  | krealloc p n =>
    have hn0 : n ≠ 0 := fun h0 => hn p (by rw [h0])
    rw [liveAfter, if_neg hn0, if_neg hr, if_neg hr]
    split
    · exact Finset.mem_insert_self _ _
    · exact Finset.mem_insert_self _ _
  | kfree p => exact absurd rfl (hop p)

/-- A `krealloc` to size 0 returns `NULL`. -/
theorem krealloc_zero {p r : Nat} (hcall : E.krealloc h p 0 = some (r, h')) : r = 0 := by
  rw [HeapEnv.krealloc] at hcall
  split at hcall
  · rw [HeapEnv.kmalloc, if_pos rfl] at hcall
    exact (Prod.mk.inj (Option.some.inj hcall)).1.symm
  · simp only [if_true, Option.bind_eq_bind, Option.bind_eq_some_iff] at hcall
    obtain ⟨_, -, heq⟩ := hcall
    exact (Prod.mk.inj (Option.some.inj heq)).1.symm

/-- **One call of the heap** gives at least what it was asked for. -/
theorem heapCall_sized (L : HeapLaws E Good) (hI : HeapInv E Good k h bs) (hl : LiveIs bs live)
    {op : HeapOp} (hok : HeapLegal ⟨h, live⟩ op) {r : Nat} (hcall : heapCall E h op = some (r, h'))
    (hr : r ≠ 0) : Sized E h' r (ClientOp.heap op).wanted := by
  cases op with
  | kmalloc n =>
    obtain ⟨k', bs', hI', -, hblock⟩ := kmalloc_sized L hI hl hok hcall
    obtain ⟨b, hb, rfl, hle⟩ := hblock hr
    exact hb.sized hI' hle
  | kfree p =>
    obtain ⟨_, -, heq⟩ := Option.map_eq_some_iff.mp hcall
    exact absurd (Prod.mk.inj heq).1.symm hr
  | krealloc p n =>
    obtain ⟨hn, hp⟩ := hok
    have hn0 : n ≠ 0 := by
      rintro rfl
      exact hr (krealloc_zero hcall)
    rcases eq_or_ne p 0 with rfl | hp0
    · rw [heapCall, HeapEnv.krealloc, if_pos rfl] at hcall
      obtain ⟨k', bs', hI', -, hblock⟩ := kmalloc_sized L hI hl hn hcall
      obtain ⟨b, hb, rfl, hle⟩ := hblock hr
      exact hb.sized hI' hle
    · obtain ⟨b, hb, rfl⟩ := (hl p).mp (hp.resolve_left hp0)
      obtain ⟨r', h'', e, k', bs', hI', hl', -, hre⟩ :=
        heapCall_spec L hI hl (show HeapLegal ⟨h, live⟩ (.krealloc _ n) from ⟨hn, hp⟩)
      obtain ⟨rfl, rfl⟩ := Prod.mk.inj (Option.some.inj (e.symm.trans hcall))
      obtain ⟨⟨size, husable, hle⟩, -⟩ := (hre b n rfl hb hn0).copied hI' hb hr
      obtain ⟨c, hc, rfl⟩ := (hl' r').mp (mem_liveAfter hr (by simp) (by simp [hn0]))
      obtain rfl := Option.some.inj ((usable_of_used hI' hc).symm.trans husable)
      exact hc.sized hI' hle

/-! ## 4. Every history -/

/-- **Step lemma**: a legal operation returns, keeps the representation, and gives what was asked
for. -/
theorem clientCall_spec (L : HeapLaws E Good) {s : HeapRun σ} (hs : RunInv E Good s) {op : ClientOp}
    (hok : ClientLegal E s op) :
    ∃ r h', clientCall E s.heap op = some (r, h') ∧ RunInv E Good ⟨h', clientLive s.live op r⟩ ∧
      (r ≠ 0 → Sized E h' r op.wanted) := by
  obtain ⟨k, bs, hI, hl⟩ := hs
  cases op with
  | heap op =>
    obtain ⟨r, h', e, k', bs', hI', hl', -, -⟩ := heapCall_spec L hI hl hok
    exact ⟨r, h', e, ⟨k', bs', hI', hl'⟩, heapCall_sized L hI hl hok e⟩
  | calloc nmemb size =>
    obtain ⟨r, h', e, k', bs', hI', hl', hcleared⟩ := calloc_cleared L hI hl hok
    exact ⟨r, h', e, ⟨k', bs', hI', hl'⟩, fun hr => (hcleared hr).1⟩
  | write p i x =>
    obtain ⟨hp, n, hn, hi⟩ := hok
    obtain ⟨m, hput, hI'⟩ := write_spec L hI hl x hp hn hi
    exact ⟨0, { s.heap with mach := m }, by rw [clientCall, hput, Option.map_some], ⟨k, bs, hI', hl⟩,
      fun h0 => absurd rfl h0⟩

theorem runInv_client (L : HeapLaws E Good) {m : σ} (hg : Good numberOfPages m) {s : HeapRun σ}
    (hreach : Reach (clientStep E) (ClientLegal E) (heapBoot m) s) : RunInv E Good s := by
  refine hreach.inv (runInv_boot hg) (fun u op t hu hok hst => ?_)
  obtain ⟨r, h', e, hrun, -⟩ := clientCall_spec L hu hok
  rw [clientStep, e, Option.map_some, Option.some.injEq] at hst
  rwa [← hst]

/-- **No undersized allocation.**  After any history of heap calls, `calloc`s and writes of clients in
which no request wraps, with any frames being handed out or refused: the next such call returns, and a
pointer it returns has room for the bytes asked for, inside `[KHEAP_START, heap_end)`. -/
theorem no_undersized_allocation (m : Flat) (hm : m.supply.countP Option.isSome ≤ numberOfPages)
    (s : HeapRun Flat) (hreach : Reach (clientStep flatEnv) (ClientLegal flatEnv) (heapBoot m) s)
    (op : ClientOp) (hok : ClientLegal flatEnv s op) :
    ∃ r h', clientCall flatEnv s.heap op = some (r, h') ∧ (r ≠ 0 → Sized flatEnv h' r op.wanted) := by
  obtain ⟨r, h', e, -, hsized⟩ :=
    clientCall_spec flat_laws (runInv_client flat_laws (m := m) hm hreach) hok
  exact ⟨r, h', e, hsized⟩

/-- Nine cleared bytes on a machine with one frame. -/
theorem no_undersized_allocation_oneFrame : ∃ h',
    clientCall flatEnv (heapBoot oneFrame).heap (.calloc 3 3) = some (0xD0000010, h') ∧
      Sized flatEnv h' 0xD0000010 9 := by
  obtain ⟨r, h', e, hsized⟩ := no_undersized_allocation oneFrame oneFrame_supply _ .refl
    (.calloc 3 3) (Or.inl (by decide))
  have hr : (clientCall flatEnv (heapBoot oneFrame).heap (.calloc 3 3)).map Prod.fst =
      some 0xD0000010 := by decide +kernel
  rw [e, Option.map_some, Option.some.injEq] at hr
  subst hr
  exact ⟨h', e, hsized (by decide)⟩

/-- **A request of 4 GB less one byte gets a block of size 0**: rounding it up to 8 gives 0. -/
theorem kmalloc_undersized : ∃ h',
    flatEnv.kmalloc (heapBoot oneFrame).heap 0xFFFFFFFF = some (0xD0000010, h') ∧
      usable flatEnv h' 0xD0000010 = some 0 ∧ ¬ Sized flatEnv h' 0xD0000010 0xFFFFFFFF := by
  have hcall : (flatEnv.kmalloc (heapBoot oneFrame).heap 0xFFFFFFFF).map
      (fun r => (r.1, usable flatEnv r.2 0xD0000010)) = some (0xD0000010, some 0) := by decide +kernel
  obtain ⟨⟨r, h'⟩, e, heq⟩ := Option.map_eq_some_iff.mp hcall
  obtain ⟨rfl, husable⟩ := Prod.mk.inj heq
  refine ⟨h', e, husable, ?_⟩
  rintro ⟨size, hsize, hle, -⟩
  rw [husable, Option.some.injEq] at hsize
  omega

end JarvOs.Memory
