/-
# The kernel heap (`kernel/memory/kmalloc.c`)

`kmalloc`, `kfree` and `krealloc` keep one list of blocks in the heap memory itself: every block
starts with a 16-byte header (`size`, `free`, `next`, `prev`) and the pointers a caller gets point
just behind it.  The model keeps that: headers are 32-bit words in a byte-addressed memory, every
`block->next->prev = new_block` is a sequence of loads and stores through addresses, and a load
or store that hits no mapped page makes the whole call `none`.  Sizes and addresses are 32-bit and
wrap (`add32`, `sub32`, `mul32`).

The code is generic in the machine under it (`HeapEnv`): what it needs is bytes and
`vmm_alloc_map_page`.  `flatEnv` below is the smallest such machine, with a scripted frame supply;
the page-table machine is another.
-/
import JarvOs.Memory.Vmm

namespace JarvOs.Memory

open JarvOs.Lib

/-! ## 1. Headers in memory -/

/-- `KHEAP_START` -/
abbrev kheapStart : Nat := 0xD0000000

theorem kheapStart_eq : kheapStart = 3489660928 := rfl

/-- `KMALLOC_PAGE` -/
abbrev kmallocPage : Nat := 0x1000

/-- `sizeof(block_header_t)` -/
abbrev headerSize : Nat := 16

theorem headerSize_eq : headerSize = 16 := rfl

/-- The members of `block_header_t`. -/
inductive Field
  | size | free | next | prev
deriving DecidableEq, Repr

/-- Where a member lies in the header. -/
def Field.offset : Field → Nat
  | .size => 0
  | .free => 4
  | .next => 8
  | .prev => 12

/-- A machine the heap can run on: its bytes, and `vmm_alloc_map_page (vaddr, flags)` with the
pointer it returns. -/
structure HeapEnv (σ : Type) extends ByteEnv σ where
  allocMapPage : σ → Nat → Nat → Option (Nat × σ)

/-- The machine together with the two statics of `kmalloc.c`. -/
structure HeapState (σ : Type) where
  mach : σ
  heapHead : Nat
  heapEnd : Nat

variable {σ : Type}

namespace HeapEnv

/-- Reading `block->field`. -/
def load (E : HeapEnv σ) (h : HeapState σ) (block : Nat) (f : Field) : Option Nat :=
  E.get32 h.mach (add32 block f.offset)

/-- `block->field = v` -/
def store (E : HeapEnv σ) (h : HeapState σ) (block : Nat) (f : Field) (v : Nat) :
    Option (HeapState σ) :=
  (E.put32 h.mach (add32 block f.offset) v).map (fun m => { h with mach := m })

/-! ## 2. The functions -/

/-- `kmalloc_init` -/
def kmallocInit (m : σ) : HeapState σ := ⟨m, 0, kheapStart⟩

/-- The loop of `expand_heap`: `n` pages left, the next one number `i`.  `false` as soon as one
`vmm_alloc_map_page` returns `NULL`; the pages mapped before it stay mapped. -/
def expandPages (E : HeapEnv σ) : HeapState σ → Nat → Nat → Option (Bool × HeapState σ)
  | h, _, 0 => some (true, h)
  | h, i, n + 1 => do
    let (r, m) ← E.allocMapPage h.mach (add32 h.heapEnd (mul32 i kmallocPage)) pageWritable
    if r = 0 then some (false, { h with mach := m })
    else E.expandPages { h with mach := m } (i + 1) n

/-- `expand_heap`: the new block's address, or 0. -/
def expandHeap (E : HeapEnv σ) (h : HeapState σ) (minSize : Nat) :
    Option (Nat × HeapState σ) := do
  let total := add32 minSize headerSize
  let pages := sub32 (add32 total kmallocPage) 1 / kmallocPage
  let blockAddr := h.heapEnd
  let (mapped, h) ← E.expandPages h 0 pages
  if mapped then
    let h := { h with heapEnd := add32 h.heapEnd (mul32 pages kmallocPage) }
    let h ← E.store h blockAddr .size (sub32 (mul32 pages kmallocPage) headerSize)
    let h ← E.store h blockAddr .free 1
    let h ← E.store h blockAddr .next 0
    let h ← E.store h blockAddr .prev 0
    some (blockAddr, h)
  else some (0, h)

/-- `if (c) c->prev = q` -/
def relinkPrev (E : HeapEnv σ) (h : HeapState σ) (c q : Nat) : Option (HeapState σ) :=
  if c ≠ 0 then E.store h c .prev q else some h

/-- `split_block` -/
def splitBlock (E : HeapEnv σ) (h : HeapState σ) (block size : Nat) : Option (HeapState σ) := do
  let remaining := sub32 (← E.load h block .size) size
  if remaining ≤ headerSize + 16 then some h
  else
    let newBlock := add32 (add32 block headerSize) size
    let h ← E.store h newBlock .size (sub32 remaining headerSize)
    let h ← E.store h newBlock .free 1
    let h ← E.store h newBlock .next (← E.load h block .next)
    let h ← E.store h newBlock .prev block
    let h ← E.relinkPrev h (← E.load h block .next) newBlock
    let h ← E.store h block .next newBlock
    E.store h block .size size

/-- `block->free && block->size >= size`, with the `&&` of C. -/
def fits (E : HeapEnv σ) (h : HeapState σ) (block size : Nat) : Option Bool := do
  if (← E.load h block .free) = 0 then some false
  else some (decide (size ≤ (← E.load h block .size)))

/-- The search loop of `kmalloc`: the first fitting block (0 if there is none) and `last`.  It is
given fuel; a list that is still going after that many blocks never ends. -/
def findFit (E : HeapEnv σ) (h : HeapState σ) (size : Nat) : Nat → Nat → Nat → Option (Nat × Nat)
  | 0, _, _ => none
  | fuel + 1, block, last => do
    if block = 0 then some (0, last)
    else if ← E.fits h block size then some (block, last)
    else E.findFit h size fuel (← E.load h block .next) block

/-- `(size + 7) & ~7` -/
def align8 (size : Nat) : Nat := add32 size 7 &&& 0xFFFFFFF8

/-- `if (last) { last->next = fresh; fresh->prev = last; } else heap_head = fresh;` -/
def appendBlock (E : HeapEnv σ) (h : HeapState σ) (last fresh : Nat) : Option (HeapState σ) := do
  if last ≠ 0 then
    let h ← E.store h last .next fresh
    E.store h fresh .prev last
  else some { h with heapHead := fresh }

/-- `split_block(block, size); block->free = 0; return block + 1;` -/
def takeBlock (E : HeapEnv σ) (h : HeapState σ) (block size : Nat) :
    Option (Nat × HeapState σ) := do
  let h ← E.splitBlock h block size
  let h ← E.store h block .free 0
  some (add32 block headerSize, h)

/-- `kmalloc`: the pointer, or 0.  A block's address is a 32-bit word, so a list of 2^32 blocks
would revisit one and the search would not end. -/
def kmalloc (E : HeapEnv σ) (h : HeapState σ) (size : Nat) : Option (Nat × HeapState σ) := do
  if size = 0 then some (0, h)
  else
    let size := align8 size
    let (block, last) ← E.findFit h size (2 ^ 32) h.heapHead 0
    if block ≠ 0 then E.takeBlock h block size
    else
      let (fresh, h) ← E.expandHeap h size
      if fresh = 0 then some (0, h)
      else
        let h ← E.appendBlock h last fresh
        E.takeBlock h fresh size

/-- Both merges of `kfree`: `block` takes over its neighbour `next`,
`block->size += sizeof(block_header_t) + next->size; block->next = next->next;`
`if (next->next) next->next->prev = block;` -/
def absorb (E : HeapEnv σ) (h : HeapState σ) (block next : Nat) : Option (HeapState σ) := do
  let size := add32 (← E.load h block .size) (add32 headerSize (← E.load h next .size))
  let h ← E.store h block .size size
  let h ← E.store h block .next (← E.load h next .next)
  E.relinkPrev h (← E.load h next .next) block

/-- `p && p->free` -/
def isFreeBlock (E : HeapEnv σ) (h : HeapState σ) (p : Nat) : Option Bool := do
  if p = 0 then some false else some (decide ((← E.load h p .free) ≠ 0))

/-- `if (block->next && block->next->free) { ... }` -/
def mergeNext (E : HeapEnv σ) (h : HeapState σ) (block : Nat) : Option (HeapState σ) := do
  let next ← E.load h block .next
  if ← E.isFreeBlock h next then E.absorb h block next else some h

/-- `if (block->prev && block->prev->free) { ... }` -/
def mergePrev (E : HeapEnv σ) (h : HeapState σ) (block : Nat) : Option (HeapState σ) := do
  let prev ← E.load h block .prev
  if ← E.isFreeBlock h prev then E.absorb h prev block else some h

/-- `kfree` -/
def kfree (E : HeapEnv σ) (h : HeapState σ) (ptr : Nat) : Option (HeapState σ) := do
  if ptr = 0 then some h
  else
    let block := sub32 ptr headerSize
    let h ← E.store h block .free 1
    let h ← E.mergeNext h block
    E.mergePrev h block

/-- `krealloc` -/
def krealloc (E : HeapEnv σ) (h : HeapState σ) (ptr size : Nat) : Option (Nat × HeapState σ) := do
  if ptr = 0 then E.kmalloc h size
  else if size = 0 then
    let h ← E.kfree h ptr
    some (0, h)
  else
    let block := sub32 ptr headerSize
    if size ≤ (← E.load h block .size) then some (ptr, h)
    else
      let (newPtr, h) ← E.kmalloc h size
      if newPtr = 0 then some (0, h)
      else
        let m ← E.memcpy h.mach newPtr ptr (← E.load h block .size)
        let h ← E.kfree { h with mach := m } ptr
        some (newPtr, h)

end HeapEnv

/-! ## 3. The laws of a machine -/

/-- What the heap relies on.  `Good k` describes the machine's own consistency together with a
bound `k` on the frames it can still hand out: reads and writes behave as memory from
`KHEAP_START` up, a failed `vmm_alloc_map_page` changes nothing there, and a successful one uses
up a frame, makes its page readable and leaves every other page alone. -/
structure HeapLaws (E : HeapEnv σ) (Good : Nat → σ → Prop) : Prop where
  bytes : ∀ k, E.toByteEnv.Lawful (Good k) kheapStart (2 ^ 32)
  map : ∀ {k : Nat} {s : σ} {va : Nat}, Good k s → kheapStart ≤ va → va < 2 ^ 32 → 4096 ∣ va →
    ∃ r t, E.allocMapPage s va pageWritable = some (r, t) ∧
      ((r = 0 ∧ Good k t ∧ ∀ x, kheapStart ≤ x → x < 2 ^ 32 → E.get t x = E.get s x) ∨
        (r ≠ 0 ∧ ∃ k', k = k' + 1 ∧ Good k' t ∧
          E.SameOff kheapStart (2 ^ 32) s t va (va + 4096) ∧
          ∀ x, va ≤ x → x < va + 4096 → (E.get t x).isSome))

/-- A machine that keeps one more thing in order. -/
theorem HeapLaws.and {E : HeapEnv σ} {Good : Nat → σ → Prop} {P : σ → Prop} (L : HeapLaws E Good)
    (hput : ∀ {k : Nat} {s t : σ} {a : Nat} {x : UInt8}, Good k s → P s → kheapStart ≤ a →
      a < 2 ^ 32 → E.put s a x = some t → P t)
    (hput32 : ∀ {k : Nat} {s t : σ} {a v : Nat}, Good k s → P s → kheapStart ≤ a →
      a + 4 ≤ 2 ^ 32 → E.put32 s a v = some t → P t)
    (hmap : ∀ {k : Nat} {s t : σ} {va r : Nat}, Good k s → P s → kheapStart ≤ va → va < 2 ^ 32 →
      E.allocMapPage s va pageWritable = some (r, t) → P t) :
    HeapLaws E (fun k s => Good k s ∧ P s) where
  bytes k := (L.bytes k).and hput hput32
  map hg hlo hhi hal := by
    obtain ⟨r, t, hrun, hcase⟩ := L.map hg.1 hlo hhi hal
    have hP := hmap hg.1 hg.2 hlo hhi hrun
    refine ⟨r, t, hrun, ?_⟩
    rcases hcase with ⟨hr, hgt, hsame⟩ | ⟨hr, k', hk, hgt, hoff, hsome⟩
    · exact Or.inl ⟨hr, ⟨hgt, hP⟩, hsame⟩
    · exact Or.inr ⟨hr, k', hk, ⟨hgt, hP⟩, hoff, hsome⟩

/-! ## 4. A flat machine -/

/-- Bytes that are mapped or not, and what the coming calls of `vmm_alloc_map_page` will do: fail,
or map a frame that holds the given bytes. -/
structure Flat where
  bytes : Nat → Option UInt8
  supply : List (Option (Nat → UInt8))

namespace Flat

/-- A byte write; an unmapped byte faults. -/
def put (s : Flat) (a : Nat) (x : UInt8) : Option Flat :=
  if (s.bytes a).isSome then
    some { s with bytes := fun b => if b = a then some x else s.bytes b }
  else none

/-- A 32-bit write; it faults before it changes anything. -/
def put32 (s : Flat) (a v : Nat) : Option Flat :=
  if ∀ k : Nat, k < 4 → (s.bytes (add32 a k)).isSome = true then do
    let s ← s.put a (byteOf v 0)
    let s ← s.put (add32 a 1) (byteOf v 1)
    let s ← s.put (add32 a 2) (byteOf v 2)
    s.put (add32 a 3) (byteOf v 3)
  else none

/-- `vmm_alloc_map_page` as the supply has it; an exhausted supply is out of memory. -/
def allocMapPage (s : Flat) (va : Nat) : Option (Nat × Flat) :=
  match s.supply with
  | [] => some (0, s)
  | none :: rest => some (0, { s with supply := rest })
  | some page :: rest =>
    some (va, ⟨fun x => if x / 4096 = va / 4096 then some (page (x % 4096)) else s.bytes x, rest⟩)

/-- The machine at `kmalloc_init`: nothing is mapped from `KHEAP_START` up. -/
def boot (supply : List (Option (Nat → UInt8))) : Flat := ⟨fun _ => none, supply⟩

end Flat

/-- The flat machine as a heap machine. -/
def flatEnv : HeapEnv Flat where
  get s a := s.bytes a
  put := Flat.put
  put32 := Flat.put32
  allocMapPage s va _ := s.allocMapPage va

/-- At most `k` frames are left. -/
def FlatGood (k : Nat) (s : Flat) : Prop := s.supply.countP Option.isSome ≤ k

theorem flat_put_ok {s : Flat} {a : Nat} (x : UInt8) (h : (s.bytes a).isSome) :
    s.put a x = some { s with bytes := fun b => if b = a then some x else s.bytes b } := by
  rw [Flat.put, if_pos h]

theorem flat_put32_ok {s : Flat} {a : Nat} (v : Nat) (ha : a + 4 ≤ 2 ^ 32)
    (h : ∀ k < 4, (s.bytes (a + k)).isSome) :
    ∃ t, s.put32 a v = some t ∧ t.supply = s.supply ∧
      ∀ b, t.bytes b = if a ≤ b ∧ b < a + 4 then some (byteOf v (b - a)) else s.bytes b := by
  have hadd : ∀ k < 4, add32 a k = a + k := fun k hk => add32_of_lt (by omega)
  have h0 := h 0 (by omega)
  have h1 := h 1 (by omega)
  have h2 := h 2 (by omega)
  have h3 := h 3 (by omega)
  rw [Nat.add_zero] at h0
  have hall : ∀ k < 4, (s.bytes (add32 a k)).isSome := fun k hk => hadd k hk ▸ h k hk
  unfold Flat.put32
  rw [if_pos hall, hadd 1 (by omega), hadd 2 (by omega), hadd 3 (by omega)]
  -- each byte is still mapped when its turn comes, since a write never unmaps one
  rw [flat_put_ok _ h0, Option.bind_eq_bind, Option.bind_some,
    flat_put_ok _ (by simpa using h1), Option.bind_some,
    flat_put_ok _ (by simpa using h2), Option.bind_some,
    flat_put_ok _ (by simpa using h3)]
  refine ⟨_, rfl, rfl, fun b => ?_⟩
  by_cases hb : a ≤ b ∧ b < a + 4
  · rw [if_pos hb]
    obtain ⟨j, rfl⟩ : ∃ j, b = a + j := ⟨b - a, by omega⟩
    have hj : j < 4 := by omega
    interval_cases j <;> simp
  · rw [if_neg hb]
    simp only
    rw [if_neg (by omega), if_neg (by omega), if_neg (by omega), if_neg (by omega)]

/-- **The flat machine is lawful.** -/
theorem flat_laws : HeapLaws flatEnv FlatGood where
  bytes k :=
    { put_ok := fun x hg _ _ hmap => ⟨_, flat_put_ok x hmap, hg, fun b _ _ => rfl⟩
      put32_ok := fun v hg _ ha hmap => by
        obtain ⟨t, ht, hsup, hget⟩ := flat_put32_ok v ha hmap
        refine ⟨t, ht, ?_, fun b _ _ => hget b⟩
        rw [FlatGood, hsup]
        exact hg }
  map := by
    intro k s va hg hlo hva hal
    obtain ⟨bytes, supply⟩ := s
    match supply, hg with
    | [], hg => exact ⟨0, _, rfl, Or.inl ⟨rfl, hg, fun _ _ _ => rfl⟩⟩
    | none :: rest, hg =>
      refine ⟨0, _, rfl, Or.inl ⟨rfl, ?_, fun _ _ _ => rfl⟩⟩
      simpa [FlatGood] using hg
    | some page :: rest, hg =>
      simp only [FlatGood, List.countP_cons, Option.isSome_some, if_true] at hg
      refine ⟨va, _, rfl, Or.inr ⟨by simp only [kheapStart_eq] at hlo; omega, k - 1, by omega, ?_, ?_, ?_⟩⟩
      · simp only [FlatGood]
        omega
      · intro x _ _ hx
        simp only [flatEnv]
        rw [if_neg (by omega)]
      · intro x h1 h2
        simp only [flatEnv]
        rw [if_pos (by omega)]
        rfl

end JarvOs.Memory
