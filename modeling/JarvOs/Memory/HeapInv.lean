/-
# What one call does to the heap

`HeapInv` is the representation invariant of `kmalloc.c` between calls: the list in memory tiles
the heap, sizes are nonzero multiples of 8, no two neighbours are free, `heap_end` is page aligned
and the frames the machine still has cannot carry it past 2^32.

The three specs say, for every state with the invariant and every request, that the call RETURNS,
that the invariant holds again, which blocks are in use afterwards, and that the payloads of the
blocks in use (`Keeps`) are byte for byte what they were.  Nothing above this module looks at
headers again.
-/
import JarvOs.Memory.HeapList

namespace JarvOs.Memory

open JarvOs.Lib

variable {σ : Type} {E : HeapEnv σ} {Good : Nat → σ → Prop} {k : Nat} {h h' : HeapState σ}
  {bs pre post : List Block} {b c : Block}

/-! ## 1. The invariant -/

/-- The representation invariant. -/
structure HeapInv (E : HeapEnv σ) (Good : Nat → σ → Prop) (k : Nat) (h : HeapState σ)
    (bs : List Block) : Prop extends Listed E Good k h bs where
  tiled : Tiled headerSize 8 kheapStart h.heapEnd bs
  paged : 4096 ∣ h.heapEnd
  room : h.heapEnd + 4096 * k < 2 ^ 32

/-- A block of the list that is in use. -/
def UsedIn (bs : List Block) (b : Block) : Prop := b ∈ bs ∧ b.free = false

/-- The payload of `b` is unchanged. -/
def KeepsBlock (E : HeapEnv σ) (b : Block) (h h' : HeapState σ) : Prop :=
  ∀ x, b.addr + headerSize ≤ x → x < b.addr + headerSize + b.size →
    E.get h'.mach x = E.get h.mach x

/-- The payloads of the blocks of `bs` that are in use are unchanged. -/
def Keeps (E : HeapEnv σ) (bs : List Block) (h h' : HeapState σ) : Prop :=
  ∀ b, UsedIn bs b → KeepsBlock E b h h'

/-- The heap after `kmalloc_init`. -/
theorem heapInv_init {m : σ} (hg : Good k m) (hk : kheapStart + 4096 * k < 2 ^ 32) :
    HeapInv E Good k (HeapEnv.kmallocInit m) [] := by
  refine { good := hg, bound := ?_, mapped := ?_, tiles := rfl, head := rfl, linked := trivial,
           tiled := tiled_nil, paged := ?_, room := hk }
  · simp only [HeapEnv.kmallocInit, kheapStart]
    norm_num
  · intro x h1 h2
    exact absurd h2 (not_lt.mpr h1)
  · simp only [HeapEnv.kmallocInit, kheapStart]
    norm_num

theorem Listed.load_of_mem (hL : Listed E Good k h bs) (hb : b ∈ bs) :
    E.load h b.addr .size = some b.size ∧ E.load h b.addr .free = some b.free.toNat := by
  obtain ⟨pre, post, rfl⟩ := List.append_of_mem hb
  exact ⟨hL.load .size, hL.load .free⟩

/-- Blocks of one list are told apart by their addresses. -/
theorem Listed.eq_of_addr (hL : Listed E Good k h bs) (hb : b ∈ bs) (hc : c ∈ bs)
    (h : b.addr = c.addr) : b = c := by
  rcases hL.tiles.apart b hb c hc with heq | hlt | hlt
  · exact heq
  · have := headerSize_eq
    omega
  · have := headerSize_eq
    omega

theorem Wrote.keepsBlock {ws : List Block} {hi : Nat} (W : Wrote E (addrs ws) h h')
    (ht : Tiles headerSize kheapStart ws hi) (hhi : hi < 2 ^ 32) (hb : b ∈ ws) :
    KeepsBlock E b h h' := fun _ h1 h2 => W.payload ht hhi hb h1 h2

theorem align8_eq {n : Nat} (hn : n + 7 < 2 ^ 32) : HeapEnv.align8 n = (n + 7) / 8 * 8 := by
  rw [HeapEnv.align8, add32_of_lt hn, and_mask8 hn]

theorem align8_spec {n : Nat} (h0 : n ≠ 0) (hn : n ≤ 0xFFFFEFF0) :
    n ≤ HeapEnv.align8 n ∧ HeapEnv.align8 n ≤ 0xFFFFEFF0 ∧ 8 ∣ HeapEnv.align8 n ∧
      0 < HeapEnv.align8 n := by
  rw [align8_eq (by omega)]
  exact ⟨by omega, by omega, Nat.dvd_mul_left 8 _, by omega⟩

/-! ## 2. `kmalloc` -/

/-- What a successful allocation of `n` bytes gives: a block `b` that was not in use. -/
structure Allocated (bs bs' : List Block) (b : Block) (n : Nat) : Prop where
  size : n ≤ b.size
  fresh : ∀ c, UsedIn bs c → c.addr ≠ b.addr
  used : ∀ c, UsedIn bs' c ↔ c = b ∨ UsedIn bs c

theorem allocated_carve {T n : Nat} (hnd : ((pre ++ b :: post).map Block.addr).Nodup)
    (hfree : b.free = true) (hn : n ≤ b.size) :
    Allocated (pre ++ b :: post) (pre ++ carve headerSize T b n ++ post) (carved T b n) n := by
  have hside : ∀ c, UsedIn (pre ++ b :: post) c ↔ c ∈ pre ++ post ∧ c.free = false := by
    intro c
    simp only [UsedIn, List.mem_append, List.mem_cons]
    constructor
    · rintro ⟨hc | rfl | hc, hf⟩
      · exact ⟨Or.inl hc, hf⟩
      · rw [hfree] at hf
        exact absurd hf (by simp)
      · exact ⟨Or.inr hc, hf⟩
    · rintro ⟨hc | hc, hf⟩
      · exact ⟨Or.inl hc, hf⟩
      · exact ⟨Or.inr (Or.inr hc), hf⟩
  refine ⟨le_carved_size hn, fun c hc => ?_, fun c => ?_⟩
  · show c.addr ≠ b.addr
    rcases List.mem_append.mp ((hside c).mp hc).1 with h | h
    · exact addr_ne_of_mem_pre hnd h
    · exact addr_ne_of_mem_post hnd h
  · rw [hside c]
    exact mem_carve_used

/-- Taking a free block between calls. -/
theorem HeapInv.take (L : HeapLaws E Good) (hI : HeapInv E Good k h (pre ++ b :: post)) {n : Nat}
    (hfree : b.free = true) (hn : n ≤ b.size) (h8 : 8 ∣ n) (hpos : 0 < n) :
    ∃ h', E.takeBlock h b.addr n = some (b.addr + headerSize, h') ∧
      HeapInv E Good k h' (pre ++ carve headerSize (headerSize + 16) b n ++ post) ∧
      Keeps E (pre ++ b :: post) h h' := by
  obtain ⟨h', e, hL, W⟩ := takeBlock_listed L hI.toListed hn
  have hall := allocated_carve (T := headerSize + 16) hI.nodup hfree hn
  refine ⟨h', e, { toListed := hL, tiled := ?_, paged := ?_, room := ?_ }, fun c hc => ?_⟩
  · rw [W.heapEnd]
    exact hI.tiled.carve (by decide) (by decide) h8 hpos hfree
  · rw [W.heapEnd]
    exact hI.paged
  · rw [W.heapEnd]
    exact hI.room
  · exact W.keepsBlock hL.tiles hL.bound ((hall.used c).mpr (Or.inr hc)).1

/-- Growing the heap and taking the fresh block. -/
theorem HeapInv.grow (L : HeapLaws E Good) (hI : HeapInv E Good k h bs) {n : Nat}
    (hn : n ≤ 0xFFFFEFF0) (h8 : 8 ∣ n) (hpos : 0 < n) :
    ∃ r h₁ k', E.expandHeap h n = some (r, h₁) ∧
      ((r = 0 ∧ HeapInv E Good k' h₁ bs ∧ Keeps E bs h h₁) ∨
        (r ≠ 0 ∧ ∃ h₂ h', E.appendBlock h₁ (lastAddr 0 bs) r = some h₂ ∧
          E.takeBlock h₂ r n = some (r + headerSize, h') ∧ ∃ b bs', b.addr = r ∧
          HeapInv E Good k' h' bs' ∧ Allocated bs bs' b n ∧ b.free = false ∧ Keeps E bs h h')) := by
  obtain ⟨r, h₁, k', e, hk, hframe, hcase⟩ :=
    grow_listed L hI.toListed hI.paged hI.room hn
  refine ⟨r, h₁, k', e, ?_⟩
  have hroom := hI.room
  rcases hcase with ⟨rfl, hend, hL⟩ | ⟨rfl, hr, hk', h₂, happ, hend, hL, hkeep⟩
  · refine Or.inl ⟨rfl, { toListed := hL, tiled := ?_, paged := ?_, room := ?_ },
      fun b hb x h1 h2 => ?_⟩
    · exact hend ▸ hI.tiled
    · exact hend ▸ hI.paged
    · rw [hend]
      omega
    · have hbd := hI.tiles.bounds b hb.1
      exact hframe x (by omega) (by omega)
  · have hle := le_expandCount n
    have hsize : n ≤ (freshBlock h.heapEnd n).size := by
      simp only [freshBlock]
      omega
    obtain ⟨h', etake, hL', W⟩ := takeBlock_listed L hL hsize
    have hall := allocated_carve (T := headerSize + 16) hL.nodup rfl hsize
    rw [List.append_nil] at hall hL' W
    -- the fresh block is free, so the blocks in use are the old ones
    have hused : ∀ c, UsedIn (bs ++ [freshBlock h.heapEnd n]) c ↔ UsedIn bs c := by
      intro c
      simp only [UsedIn, List.mem_append, List.mem_singleton]
      constructor
      · rintro ⟨hc | rfl, hf⟩
        · exact ⟨hc, hf⟩
        · exact absurd hf (by simp [freshBlock])
      · rintro ⟨hc, hf⟩
        exact ⟨Or.inl hc, hf⟩
    refine Or.inr ⟨hr, h₂, h', happ, etake, carved (headerSize + 16) (freshBlock h.heapEnd n) n, _,
      rfl, { toListed := hL', tiled := ?_, paged := ?_, room := ?_ },
      ⟨hall.size, fun c hc => hall.fresh c ((hused c).mpr hc), fun c => ?_⟩, rfl, fun c hc => ?_⟩
    · rw [W.heapEnd, hend]
      have hg := Tiled.grow (b := freshBlock h.heapEnd n) (T := headerSize + 16) (n := n)
        (by decide) (by decide) h8 hpos hI.tiled ⟨?_, by omega⟩
      · convert hg using 1
        simp only [freshBlock]
        omega
      · simp only [freshBlock, headerSize_eq]
        omega
    · rw [W.heapEnd, hend]
      exact hI.paged.add (Nat.dvd_mul_left 4096 _)
    · rw [W.heapEnd, hend]
      omega
    · rw [hall.used c, hused c]
    · intro x h1 h2
      have hmem := ((hall.used c).mpr (Or.inr ((hused c).mpr hc))).1
      rw [W.keepsBlock hL'.tiles hL'.bound hmem x h1 h2]
      exact hkeep c hc.1 x h1 h2

/-- **`kmalloc`** returns; either it returns `NULL` and the blocks in use are the same, or it
returns the payload of a block that was not in use and now is. -/
theorem kmalloc_spec (L : HeapLaws E Good) (hI : HeapInv E Good k h bs) {n : Nat}
    (hn : n ≤ 0xFFFFEFF0) :
    ∃ p h' k' bs', E.kmalloc h n = some (p, h') ∧ HeapInv E Good k' h' bs' ∧ Keeps E bs h h' ∧
      ((p = 0 ∧ bs' = bs) ∨
        ∃ b, p = b.addr + headerSize ∧ b.free = false ∧ n ≠ 0 ∧ Allocated bs bs' b n) := by
  by_cases h0 : n = 0
  · exact ⟨0, h, k, bs, by rw [HeapEnv.kmalloc, if_pos h0], hI, fun _ _ _ _ _ => rfl,
      Or.inl ⟨rfl, rfl⟩⟩
  · obtain ⟨hle, hmax, h8, hpos⟩ := align8_spec h0 hn
    obtain ⟨⟨block, last⟩, hfind, hfound⟩ := hI.toListed.findFit (HeapEnv.align8 n)
    have hweak : ∀ {bs' b}, Allocated bs bs' b (HeapEnv.align8 n) → Allocated bs bs' b n :=
      fun ha => ⟨hle.trans ha.size, ha.fresh, ha.used⟩
    rcases hfound with ⟨pre, b, post, rfl, hfree, hsize, hr⟩ | hr
    · obtain ⟨rfl, rfl⟩ := Prod.mk.inj hr
      obtain ⟨h', etake, hI', hkeep⟩ := hI.take L hfree hsize h8 hpos
      refine ⟨_, h', k, _, ?_, hI', hkeep, Or.inr ⟨carved (headerSize + 16) b (HeapEnv.align8 n),
        rfl, rfl, h0, hweak (allocated_carve hI.nodup hfree hsize)⟩⟩
      simp only [HeapEnv.kmalloc, if_neg h0, hfind, Option.bind_eq_bind, Option.bind_some,
        if_pos (hI.pos b (by simp)), etake, carved]
    · obtain ⟨rfl, rfl⟩ := Prod.mk.inj hr
      obtain ⟨r, h₁, k', hexp, hcase⟩ := hI.grow L hmax h8 hpos
      rcases hcase with ⟨hr0, hI', hkeep⟩ | ⟨hr0, h₂, h', happ, etake, b, bs', hbr, hI', hall, hbf,
        hkeep⟩
      · refine ⟨0, h₁, k', bs, ?_, hI', hkeep, Or.inl ⟨rfl, rfl⟩⟩
        simp only [HeapEnv.kmalloc, if_neg h0, hfind, Option.bind_eq_bind, Option.bind_some,
          ne_eq, not_true_eq_false, if_false, hexp, if_pos hr0]
      · refine ⟨r + headerSize, h', k', bs', ?_, hI', hkeep, Or.inr ⟨b, by rw [hbr], hbf, h0,
          hweak hall⟩⟩
        simp only [HeapEnv.kmalloc, if_neg h0, hfind, Option.bind_eq_bind, Option.bind_some,
          ne_eq, not_true_eq_false, if_false, hexp, if_neg hr0, List.nil_append, happ, etake]

/-- An allocation faults if the first header cannot be read. -/
theorem kmalloc_unreadable {n : Nat} (hn : n ≠ 0) (hhead : h.heapHead ≠ 0)
    (hload : E.load h h.heapHead .free = none) : E.kmalloc h n = none := by
  have hfit : E.findFit h (HeapEnv.align8 n) (2 ^ 32) h.heapHead 0 = none := by
    rw [show 2 ^ 32 = (2 ^ 32 - 1) + 1 from rfl, HeapEnv.findFit, if_neg hhead, HeapEnv.fits, hload]
    rfl
  simp only [HeapEnv.kmalloc, if_neg hn, hfit, Option.bind_eq_bind, Option.bind_none]

/-- The first allocation, if it fits a page and the page can be had. -/
theorem kmalloc_first {m m' : σ} {n r p : Nat} (h0 : n ≠ 0) (hn : n ≤ 4080)
    (halloc : E.allocMapPage m kheapStart pageWritable = some (r, m')) (hr : r ≠ 0)
    (hk : E.kmalloc (HeapEnv.kmallocInit m) n = some (p, h')) : p = kheapStart + headerSize := by
  have hfit : E.findFit (HeapEnv.kmallocInit m) (HeapEnv.align8 n) (2 ^ 32) 0 0 = some (0, 0) := by
    rw [show 2 ^ 32 = (2 ^ 32 - 1) + 1 from rfl, HeapEnv.findFit, if_pos rfl]
  have hpages : sub32 (add32 (add32 (HeapEnv.align8 n) headerSize) kmallocPage) 1 / kmallocPage =
      1 := by
    rw [align8_eq (by omega), expandCount_eq (by omega), expandCount, headerSize_eq]
    omega
  have hexp : E.expandPages (HeapEnv.kmallocInit m) 0 1 =
      some (true, { HeapEnv.kmallocInit m with mach := m' }) := by
    have halloc' : E.allocMapPage (HeapEnv.kmallocInit m).mach (add32 (HeapEnv.kmallocInit m).heapEnd
      (mul32 0 kmallocPage)) pageWritable = some (r, m') := halloc
    simp only [HeapEnv.expandPages, halloc', Option.bind_eq_bind, Option.bind_some, if_neg hr]
  have hhead : (HeapEnv.kmallocInit m).heapHead = 0 := rfl
  have hend : (HeapEnv.kmallocInit m).heapEnd = kheapStart := rfl
  simp only [HeapEnv.kmalloc, if_neg h0, hhead, hfit, HeapEnv.expandHeap, hpages, hexp,
    HeapEnv.takeBlock, Option.bind_eq_bind, Option.bind_some, ne_eq, not_true_eq_false, if_false,
    if_true, Option.bind_eq_some_iff, Option.some.injEq] at hk
  obtain ⟨_, ⟨_, -, _, -, _, -, _, -, rfl⟩, hrest⟩ := hk
  simp only [hend, if_neg (show ¬ kheapStart = 0 by decide), Option.bind_eq_some_iff,
    Option.some.injEq, Prod.mk.injEq] at hrest
  obtain ⟨_, -, _, -, _, -, rfl, -⟩ := hrest
  exact add32_of_lt (by decide)

/-! ## 3. `kfree` -/

/-- **`kfree`** of a block in use returns, and takes exactly that block out of use. -/
theorem kfree_spec (L : HeapLaws E Good) (hI : HeapInv E Good k h bs) (hb : UsedIn bs b) :
    ∃ h' bs', E.kfree h (b.addr + headerSize) = some h' ∧ HeapInv E Good k h' bs' ∧
      (∀ c, UsedIn bs' c ↔ UsedIn bs c ∧ c ≠ b) ∧ Keeps E bs h h' := by
  obtain ⟨hmem, hfree⟩ := hb
  obtain ⟨pre, post, rfl⟩ := List.append_of_mem hmem
  obtain ⟨h', e, hL, W⟩ := kfree_listed L hI.toListed
  refine ⟨h', _, e, { toListed := hL, tiled := ?_, paged := ?_, room := ?_ }, fun c => ?_,
    fun c hc => W.keepsBlock hI.tiles hI.bound hc.1⟩
  · rw [W.heapEnd]
    exact hI.tiled.release (by decide)
  · rw [W.heapEnd]
    exact hI.paged
  · rw [W.heapEnd]
    exact hI.room
  · have hnd := hI.nodup
    rw [UsedIn, mem_release_used (by decide) hI.tiled]
    simp only [UsedIn, List.mem_append, List.mem_cons]
    constructor
    · rintro ⟨hc | hc, hf⟩
      · exact ⟨⟨Or.inl hc, hf⟩, fun heq => addr_ne_of_mem_pre hnd hc (by rw [heq])⟩
      · exact ⟨⟨Or.inr (Or.inr hc), hf⟩, fun heq => addr_ne_of_mem_post hnd hc (by rw [heq])⟩
    · rintro ⟨⟨hc | hc | hc, hf⟩, hne⟩
      · exact ⟨Or.inl hc, hf⟩
      · exact absurd hc hne
      · exact ⟨Or.inr hc, hf⟩

/-! ## 4. `krealloc` -/

/-- The same heap on another machine, also one with other laws: its memory is readable and its
headers are the same. -/
theorem HeapInv.on {Good' : Nat → σ → Prop} (hI : HeapInv E Good k h bs) {t : σ} (hg : Good' k t)
    (hmap : ∀ x, kheapStart ≤ x → x < h.heapEnd → (E.get t x).isSome)
    (hhead : ∀ b ∈ bs, ∀ x, b.addr ≤ x → x < b.addr + headerSize →
      E.get t x = E.get h.mach x) :
    HeapInv E Good' k { h with mach := t } bs := by
  refine { good := hg, bound := hI.bound, mapped := hmap, tiles := hI.tiles, head := hI.head,
           linked := ?_, tiled := hI.tiled, paged := hI.paged, room := hI.room }
  refine hI.linked.congr fun c hc => headers_congr ?_ (hhead c hc)
  have := hI.size_lt c hc
  omega

/-- Another bound on the frames left. -/
theorem HeapInv.rebound {k' : Nat} (hI : HeapInv E Good k h bs) (hg : Good k' h.mach)
    (hroom : h.heapEnd + 4096 * k' < 2 ^ 32) : HeapInv E Good k' h bs :=
  { good := hg, bound := hI.bound, mapped := hI.mapped, tiles := hI.tiles, head := hI.head,
    linked := hI.linked, tiled := hI.tiled, paged := hI.paged, room := hroom }

/-- Writes inside the payload of one block leave the representation alone. -/
theorem HeapInv.of_payload (hI : HeapInv E Good k h bs) (hb : b ∈ bs) {t : σ} {len : Nat}
    (hlen : len ≤ b.size) (hg : Good k t)
    (hoff : E.SameOff kheapStart (2 ^ 32) h.mach t (b.addr + headerSize)
      (b.addr + headerSize + len))
    (hmap : ∀ j < len, (E.get t (b.addr + headerSize + j)).isSome) :
    HeapInv E Good k { h with mach := t } bs := by
  have hbound := hI.bound
  have hbb := hI.tiles.bounds b hb
  refine hI.on hg (fun x h1 h2 => ?_) (fun c hc x h1 h2 => ?_)
  · by_cases hx : b.addr + headerSize ≤ x ∧ x < b.addr + headerSize + len
    · obtain ⟨j, rfl⟩ := Nat.exists_eq_add_of_le hx.1
      exact hmap j (by omega)
    · rw [hoff x h1 (by omega) (by omega)]
      exact hI.mapped x h1 h2
  · -- no header byte lies in a payload
    have hcb := hI.tiles.bounds c hc
    refine hoff x (by omega) (by omega) ?_
    rcases hI.tiles.apart b hb c hc with rfl | h3 | h3
    · exact Or.inl h2
    · exact Or.inr (by omega)
    · exact Or.inl (by omega)

/-- A machine that reads the same from `KHEAP_START` up has the same heap. -/
theorem HeapInv.of_same {Good' : Nat → σ → Prop} (hI : HeapInv E Good k h bs) {t : σ}
    (hg : Good' k t)
    (hsame : ∀ x, kheapStart ≤ x → x < 2 ^ 32 → E.get t x = E.get h.mach x) :
    HeapInv E Good' k { h with mach := t } bs := by
  have hbound := hI.bound
  refine hI.on hg (fun x h1 h2 => ?_) (fun c hc x h1 h2 => ?_)
  · rw [hsame x h1 (by omega)]
    exact hI.mapped x h1 h2
  · have hcb := hI.tiles.bounds c hc
    exact hsame x (by omega) (by omega)

/-- The three ways a `krealloc` of a block in use can end. -/
inductive Reallocated (E : HeapEnv σ) (bs : List Block) (b : Block) (n : Nat) (h : HeapState σ) :
    Nat → HeapState σ → List Block → Prop
  | inPlace : n ≤ b.size → Reallocated E bs b n h (b.addr + headerSize) h bs
  | failed {h' : HeapState σ} : Keeps E bs h h' → Reallocated E bs b n h 0 h' bs
  | moved {h' : HeapState σ} {bs' : List Block} {d : Block} : d.free = false → b.size < n →
      n ≤ d.size → (∀ c, UsedIn bs c → c.addr ≠ d.addr) →
      (∀ c, UsedIn bs' c ↔ c = d ∨ (UsedIn bs c ∧ c ≠ b)) →
      (∀ c, UsedIn bs c → c ≠ b → KeepsBlock E c h h') →
      (∀ j < b.size, E.get h'.mach (d.addr + headerSize + j) =
        E.get h.mach (b.addr + headerSize + j)) →
      Reallocated E bs b n h (d.addr + headerSize) h' bs'

/-- A copy into the payload of `d` that returns, wherever it copies from: bytes of another block have
been copied. -/
theorem HeapInv.memcpy_into (L : HeapLaws E Good) (hI : HeapInv E Good k h bs) {d : Block} (hd : d ∈ bs)
    {src len : Nat} (hlen : len ≤ d.size) {t : σ}
    (hcpy : E.memcpy h.mach (d.addr + headerSize) src len = some t) :
    HeapInv E Good k { h with mach := t } bs ∧
      (∀ c ∈ bs, c.addr ≠ d.addr → KeepsBlock E c h { h with mach := t }) ∧
      ∀ c ∈ bs, c.addr ≠ d.addr → ∀ j < len, c.addr + headerSize ≤ src + j →
        src + j < c.addr + headerSize + c.size →
        E.get t (d.addr + headerSize + j) = E.get h.mach (src + j) := by
  have hbound := hI.bound
  have hdb := hI.tiles.bounds d hd
  -- the payload of another block does not meet the one of `d`
  have hout : ∀ c ∈ bs, c.addr ≠ d.addr → ∀ x, c.addr + headerSize ≤ x →
      x < c.addr + headerSize + c.size → kheapStart ≤ x ∧ x < 2 ^ 32 ∧
      (x < d.addr + headerSize ∨ d.addr + headerSize + len ≤ x) := by
    intro c hc hcd x h1 h2
    have hcb := hI.tiles.bounds c hc
    refine ⟨by omega, by omega, ?_⟩
    rcases hI.tiles.apart c hc d hd with rfl | h3 | h3
    · exact absurd rfl hcd
    · exact Or.inl (by omega)
    · exact Or.inr (by omega)
  obtain ⟨hg, hoff, hmapped, hcopied⟩ := (L.bytes k).memcpy_returns (le_refl _) len hI.good
    (d := d.addr + headerSize) (by omega) (by omega)
    (fun j hj => hI.mapped _ (by omega) (by omega)) hcpy
  refine ⟨hI.of_payload hd hlen hg hoff hmapped, fun c hc hcd x h1 h2 => ?_,
    fun c hc hcd j hj h1 h2 => ?_⟩
  · obtain ⟨hl, hh, hx⟩ := hout c hc hcd x h1 h2
    exact hoff x hl hh hx
  · obtain ⟨hl, hh, hx⟩ := hout c hc hcd _ h1 h2
    exact hcopied j hj hl hh hx

/-- A copy from the payload of `b` to that of `d` returns. -/
theorem HeapInv.memcpy_isSome (L : HeapLaws E Good) (hI : HeapInv E Good k h bs) {d : Block} (hb : b ∈ bs)
    (hd : d ∈ bs) {len : Nat} (hlen : len ≤ b.size) (hsize : len ≤ d.size) :
    ∃ t, E.memcpy h.mach (d.addr + headerSize) (b.addr + headerSize) len = some t := by
  have hbound := hI.bound
  have hbb := hI.tiles.bounds b hb
  have hdb := hI.tiles.bounds d hd
  exact (L.bytes k).memcpy_isSome (le_refl _) len hI.good (by omega) (by omega) (by omega) (by omega)
    (fun j hj => hI.mapped _ (by omega) (by omega)) (fun j hj => hI.mapped _ (by omega) (by omega))

/-- **`krealloc`** of a block in use, for a size other than 0: it returns, in one of the three
ways. -/
theorem krealloc_spec (L : HeapLaws E Good) (hI : HeapInv E Good k h bs) {n : Nat}
    (hn : n ≤ 0xFFFFEFF0) (h0 : n ≠ 0) (hb : UsedIn bs b) :
    ∃ p h' k' bs', E.krealloc h (b.addr + headerSize) n = some (p, h') ∧
      HeapInv E Good k' h' bs' ∧ Reallocated E bs b n h p h' bs' := by
  have h16 := headerSize_eq
  have hlt := hI.size_lt b hb.1
  have hptr : b.addr + headerSize ≠ 0 := by omega
  have hblock : sub32 (b.addr + headerSize) headerSize = b.addr := by
    rw [sub32_of_le (by omega) (by omega), Nat.add_sub_cancel]
  have hload := (hI.toListed.load_of_mem hb.1).1
  rcases Nat.lt_or_ge b.size n with hgrow | hfits
  · obtain ⟨p, h₁, k₁, bs₁, ek, hI₁, hkeep, hcase⟩ := kmalloc_spec L hI hn
    rcases hcase with ⟨rfl, rfl⟩ | ⟨d, rfl, hdf, -, hall⟩
    · refine ⟨0, h₁, k₁, bs₁, ?_, hI₁, .failed hkeep⟩
      simp only [HeapEnv.krealloc, if_neg hptr, if_neg h0, hblock, hload, Option.bind_eq_bind,
        Option.bind_some, if_neg (not_le.mpr hgrow), ek, if_true]
    · -- the old block is still in use, so its size can be read again and its bytes copied
      have hb₁ : UsedIn bs₁ b := (hall.used b).mpr (Or.inr hb)
      have hd₁ : UsedIn bs₁ d := (hall.used d).mpr (Or.inl rfl)
      have hdsize : n ≤ d.size := hall.size
      obtain ⟨t, hcpy⟩ := hI₁.memcpy_isSome L hb₁.1 hd₁.1 (le_refl b.size) (by omega)
      obtain ⟨hI₂, hkeep₂, hcopied⟩ := hI₁.memcpy_into L hd₁.1 (by omega) hcpy
      obtain ⟨h₃, bs₃, ef, hI₃, hused, hkeep₃⟩ := kfree_spec L hI₂ hb₁
      refine ⟨_, h₃, k₁, bs₃, ?_, hI₃, .moved hdf hgrow hdsize hall.fresh (fun c => ?_)
        (fun c hc hcb x h1 h2 => ?_) (fun j hj => ?_)⟩
      · have hload₁ := (hI₁.toListed.load_of_mem hb₁.1).1
        have hd0 : d.addr + headerSize ≠ 0 := by omega
        simp only [HeapEnv.krealloc, if_neg hptr, if_neg h0, hblock, hload, Option.bind_eq_bind,
          Option.bind_some, if_neg (not_le.mpr hgrow), ek, if_neg hd0, hload₁, hcpy, ef]
      · rw [hused c, hall.used c]
        constructor
        · rintro ⟨rfl | hc, hcb⟩
          · exact Or.inl rfl
          · exact Or.inr ⟨hc, hcb⟩
        · rintro (rfl | ⟨hc, hcb⟩)
          · exact ⟨Or.inl rfl, fun heq => hall.fresh b hb (by rw [heq])⟩
          · exact ⟨Or.inr hc, hcb⟩
      · have hc₁ : UsedIn bs₁ c := (hall.used c).mpr (Or.inr hc)
        rw [hkeep₃ c hc₁ x h1 h2, hkeep₂ c hc₁.1 (hall.fresh c hc) x h1 h2]
        exact hkeep c hc x h1 h2
      · rw [hkeep₃ d hd₁ _ (by omega) (by omega)]
        simp only
        rw [hcopied b hb₁.1 (hall.fresh b hb) j hj (by omega) (by omega)]
        exact hkeep b hb _ (by omega) (by omega)
  · refine ⟨_, h, k, bs, ?_, hI, .inPlace hfits⟩
    simp only [HeapEnv.krealloc, if_neg hptr, if_neg h0, hblock, hload, Option.bind_eq_bind,
      Option.bind_some, if_pos hfits]

end JarvOs.Memory
