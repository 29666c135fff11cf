/-
# Block headers as a map

Every function of `kmalloc.c` edits block headers and nothing else.  This module turns those
edits from stores into a byte memory to updates of a map `Headers := Nat → Header`.

* `Holds E Good k A h m`: the addresses in `A` carry pairwise disjoint headers, and memory holds
  there what the map `m` says.  Under it a load IS a lookup and a store IS `Headers.put`
  (`Holds.load`, `Holds.store`), whichever machine the heap runs on.
* `Wrote E A h h'`: only bytes of headers in `A` differ.  This is the whole frame of `split_block`
  and of both merges of `kfree`; payloads never need to be mentioned here.
* `Linked m p bs n`: the map chains the blocks `bs` in order, `next` forwards and `prev` backwards.

`splitBlock_holds` and `absorb_holds` run the two editing functions symbolically;
`linked_split` and `linked_absorb` say what their map-level effect does to a chain.
-/
import JarvOs.Memory.Kmalloc
import JarvOs.Lib.Blocks

namespace JarvOs.Memory

open JarvOs.Lib

/-! ## 1. Header maps -/

/-- The contents of a `block_header_t`. -/
structure Header where
  size : Nat
  free : Nat
  next : Nat
  prev : Nat
deriving DecidableEq, Repr

/-- The member `f`. -/
def Header.get : Header → Field → Nat
  | ⟨s, _, _, _⟩, .size => s
  | ⟨_, f, _, _⟩, .free => f
  | ⟨_, _, n, _⟩, .next => n
  | ⟨_, _, _, p⟩, .prev => p

/-- The header with the member `f` replaced. -/
def Header.set : Header → Field → Nat → Header
  | ⟨_, f, n, p⟩, .size, v => ⟨v, f, n, p⟩
  | ⟨s, _, n, p⟩, .free, v => ⟨s, v, n, p⟩
  | ⟨s, f, _, p⟩, .next, v => ⟨s, f, v, p⟩
  | ⟨s, f, n, _⟩, .prev, v => ⟨s, f, n, v⟩

theorem Header.get_set (x : Header) (f g : Field) (v : Nat) :
    (x.set f v).get g = if g = f then v else x.get g := by
  cases f <;> cases g <;> rfl

/-- The headers of a heap, by address. -/
abbrev Headers := Nat → Header

/-- `m[a].f = v` -/
def Headers.put (m : Headers) (a : Nat) (f : Field) (v : Nat) : Headers :=
  Function.update m a ((m a).set f v)

/-- `if (c) c->prev = q` -/
def Headers.relink (m : Headers) (c q : Nat) : Headers := if c = 0 then m else m.put c .prev q

variable {m m' : Headers}

@[simp] theorem put_same (m : Headers) (a : Nat) (f : Field) (v : Nat) :
    m.put a f v a = (m a).set f v := by
  rw [Headers.put, Function.update_self]

theorem put_ne {a c : Nat} (h : c ≠ a) (f : Field) (v : Nat) : m.put a f v c = m c := by
  rw [Headers.put, Function.update_of_ne h]

theorem relink_ne {a c : Nat} (h : a ≠ c) (q : Nat) : m.relink c q a = m a := by
  unfold Headers.relink
  split
  · rfl
  · exact put_ne h _ _

/-! ## 2. Chains -/

/-- The address of the first block, `n` if there is none. -/
def firstAddr : List Block → Nat → Nat
  | [], n => n
  | b :: _, _ => b.addr

/-- The address of the last block, `p` if there is none. -/
def lastAddr : Nat → List Block → Nat
  | p, [] => p
  | _, b :: bs => lastAddr b.addr bs

/-- The map chains the blocks of `bs`: sizes and `free` flags are theirs, `next` is the block
after (`n` at the end), `prev` the block before (`p` at the start). -/
def Linked (m : Headers) : Nat → List Block → Nat → Prop
  | _, [], _ => True
  | p, b :: bs, n => m b.addr = ⟨b.size, b.free.toNat, firstAddr bs n, p⟩ ∧ Linked m b.addr bs n

theorem firstAddr_append (xs ys : List Block) (n : Nat) :
    firstAddr (xs ++ ys) n = firstAddr xs (firstAddr ys n) := by
  cases xs <;> rfl

theorem lastAddr_append (xs ys : List Block) (p : Nat) :
    lastAddr p (xs ++ ys) = lastAddr (lastAddr p xs) ys := by
  induction xs generalizing p with
  | nil => rfl
  | cons x xs ih => exact ih x.addr

theorem firstAddr_mem (bs : List Block) (n : Nat) :
    firstAddr bs n = n ∨ ∃ b ∈ bs, b.addr = firstAddr bs n := by
  cases bs with
  | nil => exact Or.inl rfl
  | cons b bs => exact Or.inr ⟨b, by simp, rfl⟩

theorem linked_append (xs ys : List Block) (p n : Nat) :
    Linked m p (xs ++ ys) n ↔ Linked m p xs (firstAddr ys n) ∧ Linked m (lastAddr p xs) ys n := by
  induction xs generalizing p with
  | nil => simp [Linked, lastAddr]
  | cons x xs ih =>
    simp only [List.cons_append, Linked, lastAddr, firstAddr_append]
    rw [ih x.addr, and_assoc]

/-- A chain only depends on the headers of its blocks. -/
theorem Linked.congr {p n : Nat} {bs : List Block} (h : Linked m p bs n)
    (hm : ∀ b ∈ bs, m' b.addr = m b.addr) : Linked m' p bs n := by
  induction bs generalizing p with
  | nil => trivial
  | cons b bs ih =>
    exact ⟨(hm b (by simp)).trans h.1, ih h.2 (fun c hc => hm c (List.mem_cons_of_mem _ hc))⟩

theorem Linked.header {p n : Nat} {pre post : List Block} {b : Block}
    (h : Linked m p (pre ++ b :: post) n) :
    m b.addr = ⟨b.size, b.free.toNat, firstAddr post n, lastAddr p pre⟩ :=
  ((linked_append pre (b :: post) p n).mp h).2.1

/-- `if (c) c->prev = q` on the first block of a chain hooks the chain behind `q`. -/
theorem Linked.relink {p q : Nat} {bs : List Block} (h : Linked m p bs 0)
    (hpos : ∀ b ∈ bs, b.addr ≠ 0) (hnd : (bs.map Block.addr).Nodup) :
    Linked (m.relink (firstAddr bs 0) q) q bs 0 := by
  cases bs with
  | nil => trivial
  | cons b bs =>
    have hb : b.addr ≠ 0 := hpos b (by simp)
    rw [show m.relink (firstAddr (b :: bs) 0) q = m.put b.addr .prev q from if_neg hb]
    refine ⟨by rw [put_same, h.1]; rfl, h.2.congr (fun c hc => put_ne ?_ _ _)⟩
    intro heq
    rw [List.map_cons, List.nodup_cons] at hnd
    exact hnd.1 (List.mem_map.mpr ⟨c, hc, heq⟩)

/-! ## 3. Memory that holds a map -/

variable {σ : Type}

/-- Only bytes of headers in `A` differ. -/
structure Wrote (E : HeapEnv σ) (A : Set Nat) (h h' : HeapState σ) : Prop where
  heapHead : h'.heapHead = h.heapHead
  heapEnd : h'.heapEnd = h.heapEnd
  off : ∀ x, kheapStart ≤ x → x < 2 ^ 32 → (∀ a ∈ A, x < a ∨ a + headerSize ≤ x) →
    E.get h'.mach x = E.get h.mach x

/-- The headers at the addresses of `A` lie in the heap's half of memory, are disjoint, and read
as `m` has them. -/
structure Holds (E : HeapEnv σ) (Good : Nat → σ → Prop) (k : Nat) (A : Set Nat) (h : HeapState σ)
    (m : Headers) : Prop where
  good : Good k h.mach
  window : ∀ a ∈ A, kheapStart ≤ a ∧ a + headerSize ≤ 2 ^ 32
  apart : ∀ a ∈ A, ∀ c ∈ A, a = c ∨ a + headerSize ≤ c ∨ c + headerSize ≤ a
  reads : ∀ a ∈ A, ∀ f, E.load h a f = some ((m a).get f)

variable {E : HeapEnv σ} {Good : Nat → σ → Prop} {k : Nat} {A : Set Nat} {h h' h'' : HeapState σ}

theorem Wrote.refl (h : HeapState σ) : Wrote E A h h := ⟨rfl, rfl, fun _ _ _ _ => rfl⟩

theorem Wrote.trans (h1 : Wrote E A h h') (h2 : Wrote E A h' h'') : Wrote E A h h'' :=
  ⟨h2.heapHead.trans h1.heapHead, h2.heapEnd.trans h1.heapEnd,
    fun x hl hh hx => (h2.off x hl hh hx).trans (h1.off x hl hh hx)⟩

theorem Field.offset_add_le (f : Field) : f.offset + 4 ≤ headerSize := by
  cases f <;> decide

/-- Two members of one header do not overlap. -/
theorem Field.offset_apart {f g : Field} (h : f ≠ g) :
    f.offset + 4 ≤ g.offset ∨ g.offset + 4 ≤ f.offset := by
  revert h
  cases f <;> cases g <;> simp [Field.offset]

theorem load_eq {a : Nat} (ha : a + headerSize ≤ 2 ^ 32) (f : Field) :
    E.load h a f = E.get32 h.mach (a + f.offset) := by
  have hf := f.offset_add_le
  rw [HeapEnv.load, add32_of_lt (by omega)]

/-- The bytes of a header can be read. -/
theorem Holds.isSome (H : Holds E Good k A h m) {a x : Nat} (ha : a ∈ A) (h1 : a ≤ x)
    (h2 : x < a + headerSize) : (E.get h.mach x).isSome := by
  have hw := (H.window a ha).2
  have hread : ∀ f : Field, ∀ j < 4, (E.get h.mach (a + f.offset + j)).isSome := fun f j hj => by
    have hf := f.offset_add_le
    have hr := H.reads a ha f
    rw [load_eq hw] at hr
    exact ByteEnv.isSome_of_get32 (by omega) hr j hj
  obtain ⟨d, rfl⟩ := Nat.exists_eq_add_of_le h1
  have hd : d < 16 := by simpa using h2
  -- byte `d` of the header belongs to the member at offset `d / 4 * 4`
  rcases (by omega : d < 4 ∨ (4 ≤ d ∧ d < 8) ∨ (8 ≤ d ∧ d < 12) ∨ (12 ≤ d ∧ d < 16)) with
    h | h | h | h
  · simpa [Field.offset] using hread .size d h
  · have := hread .free (d - 4) (by omega)
    rwa [show a + Field.offset .free + (d - 4) = a + d by simp [Field.offset]; omega] at this
  · have := hread .next (d - 8) (by omega)
    rwa [show a + Field.offset .next + (d - 8) = a + d by simp [Field.offset]; omega] at this
  · have := hread .prev (d - 12) (by omega)
    rwa [show a + Field.offset .prev + (d - 12) = a + d by simp [Field.offset]; omega] at this

/-- A byte that could be read still can. -/
theorem Wrote.isSome (hw : Wrote E A h h') (H : Holds E Good k A h' m) {x : Nat}
    (hl : kheapStart ≤ x) (hh : x < 2 ^ 32) (hx : (E.get h.mach x).isSome) :
    (E.get h'.mach x).isSome := by
  by_cases hin : ∀ a ∈ A, x < a ∨ a + headerSize ≤ x
  · rwa [hw.off x hl hh hin]
  · push Not at hin
    obtain ⟨a, ha, h1, h2⟩ := hin
    exact H.isSome ha h1 h2

theorem Holds.load (H : Holds E Good k A h m) {a : Nat} (ha : a ∈ A) (f : Field) :
    E.load h a f = some ((m a).get f) := H.reads a ha f

/-- What memory holds is a 32-bit word. -/
theorem Holds.get_lt (H : Holds E Good k A h m) {a : Nat} (ha : a ∈ A) (f : Field) :
    (m a).get f < 2 ^ 32 := by
  have hw := (H.window a ha).2
  have hf := f.offset_add_le
  have hr := H.reads a ha f
  rw [load_eq hw] at hr
  obtain ⟨v, hv, hlt⟩ := ByteEnv.exists_get32 (E := E.toByteEnv) (s := h.mach)
    (a := a + f.offset) (by omega)
    (fun j hj => H.isSome ha (by omega) (by omega))
  rw [hr] at hv
  rw [Option.some.inj hv]
  exact hlt

/-- **A store is a map update.** -/
theorem Holds.store (L : HeapLaws E Good) (H : Holds E Good k A h m) {a v : Nat} (ha : a ∈ A)
    (f : Field) (hv : v < 2 ^ 32) :
    ∃ h', E.store h a f v = some h' ∧ Holds E Good k A h' (m.put a f v) ∧ Wrote E A h h' := by
  obtain ⟨hlo, hhi⟩ := H.window a ha
  have hf := f.offset_add_le
  obtain ⟨t, hput, hgood, hget, hoff⟩ := (L.bytes k).put32_spec (le_refl _) H.good
    (a := a + f.offset) (by omega) (by omega) (fun j hj => H.isSome ha (by omega) (by omega)) hv
  refine ⟨{ h with mach := t }, ?_, ⟨hgood, H.window, H.apart, fun c hc g => ?_⟩,
    ⟨rfl, rfl, fun x hl hh hx => ?_⟩⟩
  · rw [HeapEnv.store, add32_of_lt (by omega), hput, Option.map_some]
  · obtain ⟨hclo, hchi⟩ := H.window c hc
    have hg := g.offset_add_le
    rw [load_eq hchi]
    by_cases hsame : c = a ∧ g = f
    · obtain ⟨rfl, rfl⟩ := hsame
      rw [hget, put_same, Header.get_set, if_pos rfl]
    · -- another member, or a member of a header that is apart
      have hdis : c + g.offset + 4 ≤ a + f.offset ∨ a + f.offset + 4 ≤ c + g.offset := by
        by_cases hca : c = a
        · have := Field.offset_apart (fun hgf => hsame ⟨hca, hgf⟩)
          omega
        · rcases H.apart c hc a ha with h | h | h
          · exact absurd h hca
          · omega
          · omega
      rw [ByteEnv.get32_congr (by omega) (fun j hj =>
        hoff (c + g.offset + j) (by omega) (by omega) (by omega)), ← load_eq hchi, H.load hc]
      congr 1
      by_cases hca : c = a
      · rw [hca, put_same, Header.get_set, if_neg (fun hgf => hsame ⟨hca, hgf⟩)]
      · rw [put_ne hca]
  · have := hx a ha
    exact hoff x hl hh (by omega)

/-- `if (c) c->prev = q` -/
theorem Holds.relink (L : HeapLaws E Good) (H : Holds E Good k A h m) {c q : Nat}
    (hc : c ≠ 0 → c ∈ A) (hq : q < 2 ^ 32) :
    ∃ h', E.relinkPrev h c q = some h' ∧ Holds E Good k A h' (m.relink c q) ∧
      Wrote E A h h' := by
  unfold HeapEnv.relinkPrev Headers.relink
  by_cases h0 : c = 0
  · rw [if_neg (not_not.mpr h0), if_pos h0]
    exact ⟨h, rfl, H, Wrote.refl h⟩
  · rw [if_pos h0, if_neg h0]
    exact H.store L (hc h0) .prev hq

/-! ## 4. The two editing functions -/

/-- What `split_block` does to the headers once it decides to split. -/
def Headers.split (m : Headers) (block size : Nat) : Headers :=
  let new := block + headerSize + size
  let m₁ := (((m.put new .size ((m block).size - size - headerSize)).put new .free 1).put
    new .next (m block).next).put new .prev block
  ((m₁.relink (m block).next new).put block .next new).put block .size size

/-- What each merge of `kfree` does to the headers. -/
def Headers.absorb (m : Headers) (block next : Nat) : Headers :=
  ((m.put block .size ((m block).size + headerSize + (m next).size)).put
    block .next (m next).next).relink (m next).next block

theorem splitBlock_small (H : Holds E Good k A h m) (block size : Nat) (hb : block ∈ A)
    (hs : size ≤ (m block).size) (hsmall : (m block).size - size ≤ headerSize + 16) :
    E.splitBlock h block size = some h := by
  have hlt : (m block).size < 2 ^ 32 := H.get_lt hb .size
  simp only [HeapEnv.splitBlock, H.load hb, Header.get, Option.bind_eq_bind, Option.bind_some,
    sub32_of_le hlt hs, if_pos hsmall]

/-- **`split_block`**, the case in which it splits. -/
theorem splitBlock_holds (L : HeapLaws E Good) (H : Holds E Good k A h m) (block size : Nat)
    (hb : block ∈ A) (hs : size ≤ (m block).size)
    (hbig : headerSize + 16 < (m block).size - size) (hnew : block + headerSize + size ∈ A)
    (hnext : (m block).next ≠ 0 → (m block).next ∈ A) (hne : (m block).next ≠ block) :
    ∃ h', E.splitBlock h block size = some h' ∧ Holds E Good k A h' (m.split block size) ∧
      Wrote E A h h' := by
  have hlt : (m block).size < 2 ^ 32 := H.get_lt hb .size
  have hnlt : (m block).next < 2 ^ 32 := H.get_lt hb .next
  have hw := (H.window _ hnew).2
  have h16 := headerSize_eq
  have hbn : block ≠ block + headerSize + size := by omega
  have hnew32 : add32 (add32 block headerSize) size = block + headerSize + size := by
    rw [add32_of_lt (show block + headerSize < 2 ^ 32 by omega), add32_of_lt (by omega)]
  obtain ⟨h₁, e₁, H₁, W₁⟩ := H.store L hnew .size (v := (m block).size - size - headerSize)
    (by omega)
  obtain ⟨h₂, e₂, H₂, W₂⟩ := H₁.store L hnew .free (v := 1) (by omega)
  obtain ⟨h₃, e₃, H₃, W₃⟩ := H₂.store L hnew .next hnlt
  obtain ⟨h₄, e₄, H₄, W₄⟩ := H₃.store L hnew .prev (v := block) (by omega)
  obtain ⟨h₅, e₅, H₅, W₅⟩ := H₄.relink L hnext (q := block + headerSize + size) (by omega)
  obtain ⟨h₆, e₆, H₆, W₆⟩ := H₅.store L hb .next (v := block + headerSize + size) (by omega)
  obtain ⟨h₇, e₇, H₇, W₇⟩ := H₆.store L hb .size (v := size) (by omega)
  refine ⟨h₇, ?_, H₇, W₁.trans (W₂.trans (W₃.trans (W₄.trans (W₅.trans (W₆.trans W₇)))))⟩
  -- every load of `block->next` on the way still sees the old value
  have l₂ : E.load h₂ block .next = some (m block).next := by
    rw [H₂.load hb, put_ne hbn, put_ne hbn]
    rfl
  have l₄ : E.load h₄ block .next = some (m block).next := by
    rw [H₄.load hb, put_ne hbn, put_ne hbn, put_ne hbn, put_ne hbn]
    rfl
  simp only [HeapEnv.splitBlock, H.load hb, Header.get, Option.bind_eq_bind, Option.bind_some,
    sub32_of_le hlt hs, if_neg (not_le.mpr hbig), hnew32,
    sub32_of_le (show (m block).size - size < 2 ^ 32 by omega)
      (show headerSize ≤ (m block).size - size by omega), e₁, e₂, l₂, e₃, e₄, l₄, e₅, e₆, e₇]

/-- **One merge of `kfree`.** -/
theorem absorb_holds (L : HeapLaws E Good) (H : Holds E Good k A h m) (block next : Nat)
    (hb : block ∈ A) (hn : next ∈ A) (hne : next ≠ block)
    (hsize : (m block).size + headerSize + (m next).size < 2 ^ 32)
    (hafter : (m next).next ≠ 0 → (m next).next ∈ A) :
    ∃ h', E.absorb h block next = some h' ∧ Holds E Good k A h' (m.absorb block next) ∧
      Wrote E A h h' := by
  have hnlt : (m next).next < 2 ^ 32 := H.get_lt hn .next
  have hw := (H.window _ hb).2
  have h16 := headerSize_eq
  have hadd : add32 (m block).size (add32 headerSize (m next).size) =
      (m block).size + headerSize + (m next).size := by
    rw [add32_of_lt (show headerSize + (m next).size < 2 ^ 32 by omega), add32_of_lt (by omega)]
    omega
  obtain ⟨h₁, e₁, H₁, W₁⟩ := H.store L hb .size hsize
  obtain ⟨h₂, e₂, H₂, W₂⟩ := H₁.store L hb .next hnlt
  obtain ⟨h₃, e₃, H₃, W₃⟩ := H₂.relink L hafter (q := block) (by omega)
  refine ⟨h₃, ?_, H₃, W₁.trans (W₂.trans W₃)⟩
  have l₁ : E.load h₁ next .next = some (m next).next := by
    rw [H₁.load hn, put_ne hne]
    rfl
  have l₂ : E.load h₂ next .next = some (m next).next := by
    rw [H₂.load hn, put_ne hne, put_ne hne]
    rfl
  simp only [HeapEnv.absorb, H.load hb, H.load hn, Header.get, Option.bind_eq_bind,
    Option.bind_some, hadd, e₁, l₁, e₂, l₂, e₃]

/-! ## 5. What the edits do to a chain -/

section Chains

variable {p : Nat} {pre post : List Block} {a b c : Block}

theorem addr_ne_of_mem_pre (hnd : ((pre ++ b :: post).map Block.addr).Nodup) (hc : c ∈ pre) :
    c.addr ≠ b.addr := by
  rw [List.map_append, List.nodup_append] at hnd
  exact hnd.2.2 _ (List.mem_map_of_mem hc) _ (by simp)

theorem addr_ne_of_mem_post (hnd : ((pre ++ b :: post).map Block.addr).Nodup) (hc : c ∈ post) :
    c.addr ≠ b.addr := by
  rw [List.map_append, List.map_cons, List.nodup_append, List.nodup_cons] at hnd
  intro heq
  exact hnd.2.1.1 (heq ▸ List.mem_map_of_mem hc)

theorem nodup_post (hnd : ((pre ++ b :: post).map Block.addr).Nodup) :
    (post.map Block.addr).Nodup := by
  rw [List.map_append, List.map_cons, List.nodup_append, List.nodup_cons] at hnd
  exact hnd.2.1.2

theorem pre_ne_post (hnd : ((pre ++ b :: post).map Block.addr).Nodup) {x y : Block} (hx : x ∈ pre)
    (hy : y ∈ post) : x.addr ≠ y.addr := by
  rw [List.map_append, List.nodup_append] at hnd
  exact hnd.2.2 _ (List.mem_map_of_mem hx) _ (by simp [List.mem_map_of_mem hy])

/-- The first block after `b`, if there is one, differs from everything the address `x` avoids. -/
theorem ne_firstAddr {x : Nat} (h0 : x ≠ 0) (h : ∀ c ∈ post, x ≠ c.addr) :
    x ≠ firstAddr post 0 := by
  rcases firstAddr_mem post 0 with h1 | ⟨c, hc, h1⟩
  · rwa [h1]
  · rw [← h1]
    exact h c hc

/-- `b->free = f` -/
theorem Linked.setFree (h : Linked m p (pre ++ b :: post) 0)
    (hnd : ((pre ++ b :: post).map Block.addr).Nodup) (f : Bool) :
    Linked (m.put b.addr .free f.toNat) p (pre ++ { b with free := f } :: post) 0 := by
  obtain ⟨hpre, hb, hpost⟩ := (linked_append pre (b :: post) p 0).mp h
  refine (linked_append pre _ p 0).mpr ⟨hpre.congr fun c hc => ?_, ?_, hpost.congr fun c hc => ?_⟩
  · exact put_ne (addr_ne_of_mem_pre hnd hc) _ _
  · rw [put_same, hb]
    rfl
  · exact put_ne (addr_ne_of_mem_post hnd hc) _ _

/-- **Splitting** a block of a chain puts the rest of it right behind. -/
theorem Linked.split {n : Nat} (h : Linked m p (pre ++ b :: post) 0)
    (hnd : ((pre ++ b :: post).map Block.addr).Nodup)
    (hpos : ∀ c ∈ pre ++ b :: post, c.addr ≠ 0)
    (hnew : ∀ c ∈ pre ++ b :: post, c.addr ≠ b.addr + headerSize + n) :
    Linked (m.split b.addr n) p (pre ++ ⟨b.addr, n, b.free⟩ ::
      ⟨b.addr + headerSize + n, b.size - n - headerSize, true⟩ :: post) 0 := by
  obtain ⟨hpre, hb, hpost⟩ := (linked_append pre (b :: post) p 0).mp h
  have hbn := hnew b (by simp)
  have hb0 := hpos b (by simp)
  have hbf : b.addr ≠ firstAddr post 0 :=
    ne_firstAddr hb0 (fun c hc => (addr_ne_of_mem_post hnd hc).symm)
  have hnf : b.addr + headerSize + n ≠ firstAddr post 0 :=
    ne_firstAddr (by omega) (fun c hc => (hnew c (by simp [hc])).symm)
  have hnext : (m b.addr).next = firstAddr post 0 := by rw [hb]
  simp only [Headers.split, hnext]
  refine (linked_append pre _ p 0).mpr ⟨hpre.congr fun c hc => ?_, ?_, ?_, ?_⟩
  · have hcb := addr_ne_of_mem_pre hnd hc
    have hcn := hnew c (by simp [hc])
    have hcf : c.addr ≠ firstAddr post 0 :=
      ne_firstAddr (hpos c (by simp [hc])) (fun d hd => pre_ne_post hnd hc hd)
    rw [put_ne hcb, put_ne hcb, relink_ne hcf, put_ne hcn, put_ne hcn, put_ne hcn, put_ne hcn]
  · rw [put_same, put_same, relink_ne hbf, put_ne hbn, put_ne hbn, put_ne hbn, put_ne hbn, hb]
    rfl
  · rw [put_ne hbn.symm, put_ne hbn.symm, relink_ne hnf, put_same, put_same, put_same, put_same, hb]
    rfl
  · -- the blocks after: only their first `prev` has changed
    have hsame : ∀ c ∈ post, ((((m.put (b.addr + headerSize + n) .size
        ((m b.addr).size - n - headerSize)).put (b.addr + headerSize + n) .free 1).put
        (b.addr + headerSize + n) .next (firstAddr post 0)).put
        (b.addr + headerSize + n) .prev b.addr) c.addr = m c.addr := fun c hc => by
      have hcn := hnew c (by simp [hc])
      rw [put_ne hcn, put_ne hcn, put_ne hcn, put_ne hcn]
    have hpost' := (hpost.congr hsame).relink (q := b.addr + headerSize + n)
      (fun c hc => hpos c (by simp [hc])) (nodup_post hnd)
    refine hpost'.congr fun c hc => ?_
    have hcb := addr_ne_of_mem_post hnd hc
    rw [put_ne hcb, put_ne hcb]

/-- **Merging** two neighbours of a chain. -/
theorem Linked.absorb (h : Linked m p (pre ++ a :: c :: post) 0)
    (hnd : ((pre ++ a :: c :: post).map Block.addr).Nodup)
    (hpos : ∀ d ∈ pre ++ a :: c :: post, d.addr ≠ 0) :
    Linked (m.absorb a.addr c.addr) p
      (pre ++ ⟨a.addr, a.size + headerSize + c.size, a.free⟩ :: post) 0 := by
  obtain ⟨hpre, ha, hc, hpost⟩ := (linked_append pre (a :: c :: post) p 0).mp h
  have haf : a.addr ≠ firstAddr post 0 :=
    ne_firstAddr (hpos a (by simp)) (fun d hd => (addr_ne_of_mem_post hnd (by simp [hd])).symm)
  have hnext : (m c.addr).next = firstAddr post 0 := by rw [hc]
  have hnd' : ((pre ++ [a] ++ c :: post).map Block.addr).Nodup := by simpa using hnd
  simp only [Headers.absorb, hnext]
  refine (linked_append pre _ p 0).mpr ⟨hpre.congr fun d hd => ?_, ?_, ?_⟩
  · have hda := addr_ne_of_mem_pre hnd hd
    have hdf : d.addr ≠ firstAddr post 0 :=
      ne_firstAddr (hpos d (by simp [hd])) (fun e he => pre_ne_post hnd hd (by simp [he]))
    rw [relink_ne hdf, put_ne hda, put_ne hda]
  · rw [relink_ne haf, put_same, put_same, ha, hc]
    rfl
  · refine (hpost.congr fun d hd => ?_).relink (fun d hd => hpos d (by simp [hd]))
      (nodup_post hnd')
    have hda := addr_ne_of_mem_post hnd (List.mem_cons_of_mem c hd)
    rw [put_ne hda, put_ne hda]

/-- **Appending**: `a->next = b; b->prev = a` joins a chain that ends in `a` and the chain `b`. -/
theorem Linked.concat {q : Nat} (h : Linked m p (pre ++ [a]) 0) (hb : Linked m q [b] 0)
    (hnd : ((pre ++ a :: [b]).map Block.addr).Nodup) :
    Linked ((m.put a.addr .next b.addr).put b.addr .prev a.addr) p (pre ++ a :: [b]) 0 := by
  obtain ⟨hpre, ha, -⟩ := (linked_append pre [a] p 0).mp h
  have hab : b.addr ≠ a.addr := addr_ne_of_mem_post hnd (by simp)
  refine (linked_append pre _ p 0).mpr ⟨hpre.congr fun d hd => ?_, ?_, ?_, trivial⟩
  · rw [put_ne (pre_ne_post hnd hd (by simp)), put_ne (addr_ne_of_mem_pre hnd hd)]
  · rw [put_ne hab.symm, put_same, ha]
    rfl
  · rw [put_same, put_ne hab, hb.1]
    rfl

end Chains

end JarvOs.Memory
