/-
# Lists of blocks that tile an interval

The abstract side of a boundary-tag allocator.  An interval `[lo, hi)` of addresses is cut into
BLOCKS, each a header of `H` bytes followed by `size` usable bytes, and each either free or in
use.  Allocation carves a block off the front of a free one, releasing gives a block back and
merges it with its free neighbours.

`Tiled H g lo hi bs` is the invariant: the blocks follow each other without gap or overlap, sizes
are positive multiples of the granule `g`, and no two neighbours are both free.  `Tiled.carve`,
`Tiled.grow` and `Tiled.release` say that the three edits keep it; `mem_carve_used` and
`mem_release_used` say that among the blocks in use they change exactly one.
-/
import Mathlib

namespace JarvOs.Lib

/-! ## 1. Tilings -/

/-- A block: its header's address, its usable bytes, and whether it is free. -/
structure Block where
  addr : Nat
  size : Nat
  free : Bool
deriving DecidableEq, Repr

variable {H g lo hi : Nat} {bs pre post : List Block} {b c : Block}

/-- The blocks of `bs`, headers of `H` bytes included, cover `[lo, hi)` in order. -/
def Tiles (H : Nat) : Nat → List Block → Nat → Prop
  | lo, [], hi => lo = hi
  | lo, b :: bs, hi => b.addr = lo ∧ Tiles H (lo + H + b.size) bs hi

theorem tiles_append : ∀ {lo : Nat} (xs ys : List Block),
    Tiles H lo (xs ++ ys) hi ↔ ∃ mid, Tiles H lo xs mid ∧ Tiles H mid ys hi
  | lo, [], ys => by simp [Tiles]
  | lo, x :: xs, ys => by
    simp only [List.cons_append, Tiles]
    rw [tiles_append xs ys]
    constructor
    · rintro ⟨hx, mid, h1, h2⟩; exact ⟨mid, ⟨hx, h1⟩, h2⟩
    · rintro ⟨mid, ⟨hx, h1⟩, h2⟩; exact ⟨hx, mid, h1, h2⟩

/-- A tiling cut at a block: the part before it ends where it starts. -/
theorem tiles_split : Tiles H lo (pre ++ b :: post) hi ↔
    Tiles H lo pre b.addr ∧ Tiles H (b.addr + H + b.size) post hi := by
  rw [tiles_append]
  constructor
  · rintro ⟨mid, h1, rfl, h2⟩; exact ⟨h1, h2⟩
  · rintro ⟨h1, h2⟩; exact ⟨b.addr, h1, rfl, h2⟩

theorem Tiles.le : ∀ {lo : Nat} {bs : List Block}, Tiles H lo bs hi → lo ≤ hi
  | _, [], h => Nat.le_of_eq h
  | lo, b :: bs, ⟨_, h⟩ => by
    have := Tiles.le h
    omega

/-- Every block lies inside the tiled interval. -/
theorem Tiles.bounds : ∀ {lo : Nat} {bs : List Block}, Tiles H lo bs hi → ∀ b ∈ bs,
    lo ≤ b.addr ∧ b.addr + H + b.size ≤ hi
  | lo, b :: bs, ⟨hb, h⟩, c, hc => by
    rcases List.mem_cons.mp hc with rfl | hc
    · have := Tiles.le h
      omega
    · have := Tiles.bounds h c hc
      omega

/-- Two blocks of a tiling are one and the same, or one ends before the other starts. -/
theorem Tiles.apart : ∀ {lo : Nat} {bs : List Block}, Tiles H lo bs hi → ∀ b ∈ bs, ∀ c ∈ bs,
    b = c ∨ b.addr + H + b.size ≤ c.addr ∨ c.addr + H + c.size ≤ b.addr
  | lo, x :: bs, ⟨hx, h⟩, b, hb, c, hc => by
    rcases List.mem_cons.mp hb with rfl | hb' <;> rcases List.mem_cons.mp hc with rfl | hc'
    · exact Or.inl rfl
    · have := Tiles.bounds h c hc'
      exact Or.inr (Or.inl (by omega))
    · have := Tiles.bounds h b hb'
      exact Or.inr (Or.inr (by omega))
    · exact Tiles.apart h b hb' c hc'

/-- With headers of positive size there are no more blocks than bytes. -/
theorem Tiles.length_le (hH : 0 < H) : ∀ {lo : Nat} {bs : List Block}, Tiles H lo bs hi →
    lo + bs.length ≤ hi
  | _, [], h => Nat.le_of_eq h
  | lo, b :: bs, ⟨_, h⟩ => by
    have := Tiles.length_le hH h
    rw [List.length_cons]
    omega

/-- With headers of positive size no two blocks start at one address. -/
theorem Tiles.nodup (hH : 0 < H) : ∀ {lo : Nat} {bs : List Block}, Tiles H lo bs hi →
    (bs.map Block.addr).Nodup
  | _, [], _ => List.nodup_nil
  | lo, b :: bs, ⟨hb, h⟩ => by
    rw [List.map_cons, List.nodup_cons]
    refine ⟨fun hmem => ?_, Tiles.nodup hH h⟩
    obtain ⟨c, hc, hcb⟩ := List.mem_map.mp hmem
    have := Tiles.bounds h c hc
    omega

/-! ## 2. The invariant -/

/-- Not both free. -/
def Apart (a b : Block) : Prop := ¬ (a.free = true ∧ b.free = true)

/-- The blocks tile `[lo, hi)`, sizes are positive multiples of `g`, and no two neighbours are
both free. -/
structure Tiled (H g lo hi : Nat) (bs : List Block) : Prop where
  tiles : Tiles H lo bs hi
  sizes : ∀ b ∈ bs, g ∣ b.size ∧ 0 < b.size
  coalesced : bs.IsChain Apart

theorem tiled_nil : Tiled H g lo lo [] := ⟨rfl, by simp, List.isChain_nil⟩

/-- The neighbours of a free block are in use. -/
theorem Tiled.next_used (h : Tiled H g lo hi (pre ++ b :: post)) (hb : b.free = true) :
    ∀ c ∈ post.head?, c.free = false := by
  intro c hc
  have hchain := (List.isChain_append.mp h.coalesced).2.1
  rw [List.isChain_cons] at hchain
  exact Bool.eq_false_iff.mpr (fun hcf => hchain.1 c hc ⟨hb, hcf⟩)

/-- Once every block is free there is at most one. -/
theorem Tiled.length_le_one (h : Tiled H g lo hi bs) (hall : ∀ b ∈ bs, b.free = true) :
    bs.length ≤ 1 := by
  match bs, h.coalesced with
  | [], _ => simp
  | [_], _ => simp
  | x :: y :: _, hc =>
    exact absurd ⟨hall x (by simp), hall y (by simp)⟩ (List.isChain_cons_cons.mp hc).1

/-- Every block starts at a multiple of the granule. -/
theorem Tiled.dvd_addr (hgH : g ∣ H) (hlo : g ∣ lo) (h : Tiled H g lo hi bs) :
    ∀ b ∈ bs, g ∣ b.addr := by
  obtain ⟨ht, hs, -⟩ := h
  induction bs generalizing lo with
  | nil => simp
  | cons b bs ih =>
    obtain ⟨rfl, ht⟩ := ht
    intro c hc
    rcases List.mem_cons.mp hc with rfl | hc
    · exact hlo
    · exact ih ((hlo.add hgH).add (hs b (by simp)).1) ht
        (fun d hd => hs d (List.mem_cons_of_mem _ hd)) c hc

/-! ## 3. Carving -/

/-- A block put to use for `n` bytes: what is left over becomes a free block of its own if it is
larger than `T` bytes, and stays part of the block otherwise. -/
def carve (H T : Nat) (b : Block) (n : Nat) : List Block :=
  if b.size - n ≤ T then [{ b with free := false }]
  else [⟨b.addr, n, false⟩, ⟨b.addr + H + n, b.size - n - H, true⟩]

/-- The block in use that carving produces. -/
def carved (T : Nat) (b : Block) (n : Nat) : Block :=
  ⟨b.addr, if b.size - n ≤ T then b.size else n, false⟩

theorem le_carved_size {T n : Nat} (hn : n ≤ b.size) : n ≤ (carved T b n).size := by
  simp only [carved]
  split
  · exact hn
  · exact le_refl _

theorem carve_eq {T n : Nat} : ∃ rest : List Block, carve H T b n = carved T b n :: rest ∧
    (rest = [] ∨ rest = [⟨b.addr + H + n, b.size - n - H, true⟩]) := by
  unfold carve carved
  split
  · exact ⟨[], rfl, Or.inl rfl⟩
  · exact ⟨_, rfl, Or.inr rfl⟩

theorem tiles_carve {T n : Nat} (hT : H ≤ T) :
    Tiles H b.addr (carve H T b n) (b.addr + H + b.size) := by
  unfold carve
  split
  · exact ⟨rfl, rfl⟩
  · refine ⟨rfl, rfl, ?_⟩
    simp only [Tiles]
    omega

theorem sizes_carve {T n : Nat} (hT : H ≤ T) (hgH : g ∣ H) (hgn : g ∣ n) (hn : 0 < n)
    (hb : g ∣ b.size ∧ 0 < b.size) : ∀ c ∈ carve H T b n, g ∣ c.size ∧ 0 < c.size := by
  intro c hc
  unfold carve at hc
  split at hc
  · rw [List.mem_singleton.mp hc]
    exact hb
  · rcases List.mem_cons.mp hc with rfl | hc
    · exact ⟨hgn, hn⟩
    · rw [List.mem_singleton.mp hc]
      exact ⟨Nat.dvd_sub (Nat.dvd_sub hb.1 hgn) hgH, by simp only; omega⟩

/-- Carving the block between `pre` and `post`.  Nothing is asked about the seam between `pre`
and the block: its front part is in use afterwards. -/
theorem Tiled.carve_between {T n : Nat} (hT : H ≤ T) (hgH : g ∣ H) (hgn : g ∣ n) (hn : 0 < n)
    (hpre : Tiled H g lo b.addr pre) (hpost : Tiled H g (b.addr + H + b.size) hi post)
    (hb : g ∣ b.size ∧ 0 < b.size) (hnext : ∀ c ∈ post.head?, c.free = false) :
    Tiled H g lo hi (pre ++ carve H T b n ++ post) := by
  refine ⟨?_, ?_, ?_⟩
  · rw [tiles_append]
    refine ⟨_, ?_, hpost.tiles⟩
    rw [tiles_append]
    exact ⟨_, hpre.tiles, tiles_carve hT⟩
  · intro c hc
    rcases List.mem_append.mp hc with hc | hc
    · rcases List.mem_append.mp hc with hc | hc
      · exact hpre.sizes c hc
      · exact sizes_carve hT hgH hgn hn hb c hc
    · exact hpost.sizes c hc
  · obtain ⟨rest, hrest, hcase⟩ := carve_eq (H := H) (b := b) (T := T) (n := n)
    rw [hrest, List.append_assoc, List.cons_append]
    refine List.isChain_append.mpr ⟨hpre.coalesced, ?_, ?_⟩
    · rcases hcase with rfl | rfl
      · rw [List.nil_append, List.isChain_cons]
        exact ⟨fun y _ h => absurd h.1 (by simp [carved]), hpost.coalesced⟩
      · rw [List.singleton_append, List.isChain_cons, List.isChain_cons]
        refine ⟨fun y _ h => absurd h.1 (by simp [carved]), fun y hy h => ?_, hpost.coalesced⟩
        rw [hnext y hy] at h
        exact absurd h.2 (by simp)
    · intro x _ y hy h
      rw [List.head?_cons, Option.mem_some_iff] at hy
      rw [← hy] at h
      exact absurd h.2 (by simp [carved])

/-- The two sides of a block in a tiled list. -/
theorem Tiled.sides (h : Tiled H g lo hi (pre ++ b :: post)) :
    Tiled H g lo b.addr pre ∧ Tiled H g (b.addr + H + b.size) hi post := by
  obtain ⟨h1, h2⟩ := tiles_split.mp h.tiles
  obtain ⟨c1, c2, -⟩ := List.isChain_append.mp h.coalesced
  exact ⟨⟨h1, fun c hc => h.sizes c (by simp [hc]), c1⟩,
    ⟨h2, fun c hc => h.sizes c (by simp [hc]), (List.isChain_cons.mp c2).2⟩⟩

/-- **Carving a free block** keeps the invariant. -/
theorem Tiled.carve {T n : Nat} (hT : H ≤ T) (hgH : g ∣ H) (hgn : g ∣ n) (hn : 0 < n)
    (h : Tiled H g lo hi (pre ++ b :: post)) (hb : b.free = true) :
    Tiled H g lo hi (pre ++ Lib.carve H T b n ++ post) := by
  obtain ⟨hpre, hpost⟩ := h.sides
  exact Tiled.carve_between hT hgH hgn hn hpre hpost (h.sizes b (by simp)) (h.next_used hb)

/-- **Growing** the interval by a fresh block and carving that one keeps the invariant, whatever
the old last block is. -/
theorem Tiled.grow {T n : Nat} (hT : H ≤ T) (hgH : g ∣ H) (hgn : g ∣ n) (hn : 0 < n)
    (h : Tiled H g lo b.addr bs) (hb : g ∣ b.size ∧ 0 < b.size) :
    Tiled H g lo (b.addr + H + b.size) (bs ++ Lib.carve H T b n) := by
  have := Tiled.carve_between hT hgH hgn hn h
    (⟨rfl, by simp, List.isChain_nil⟩ : Tiled H g (b.addr + H + b.size) _ []) hb (by simp)
  rwa [List.append_nil] at this

/-- Among the blocks in use, carving adds exactly the carved one. -/
theorem mem_carve_used {T n : Nat} :
    (c ∈ pre ++ carve H T b n ++ post ∧ c.free = false) ↔
      c = carved T b n ∨ (c ∈ pre ++ post ∧ c.free = false) := by
  obtain ⟨rest, hrest, hcase⟩ := carve_eq (H := H) (b := b) (T := T) (n := n)
  have hused : ∀ x ∈ rest, x.free = true := by
    rcases hcase with rfl | rfl <;> simp
  rw [hrest]
  constructor
  · rintro ⟨hc, hf⟩
    simp only [List.mem_append, List.mem_cons] at hc
    rcases hc with (hc | hc | hc) | hc
    · exact Or.inr ⟨by simp [hc], hf⟩
    · exact Or.inl hc
    · rw [hused c hc] at hf
      exact absurd hf (by simp)
    · exact Or.inr ⟨by simp [hc], hf⟩
  · rintro (rfl | ⟨hc, hf⟩)
    · exact ⟨by simp, rfl⟩
    · refine ⟨?_, hf⟩
      rcases List.mem_append.mp hc with hc | hc <;> simp [hc]

/-! ## 4. Releasing -/

/-- A block swallows the block after it if that one is free. -/
def absorbNext (H : Nat) (b : Block) : List Block → Block × List Block
  | [] => (b, [])
  | c :: post => if c.free then (⟨b.addr, b.size + H + c.size, b.free⟩, post) else (b, c :: post)

/-- A block is swallowed by the block before it if that one is free. -/
def absorbPrev (H : Nat) (pre : List Block) (b : Block) (post : List Block) : List Block :=
  match pre.getLast? with
  | none => pre ++ b :: post
  | some a =>
    if a.free then pre.dropLast ++ ⟨a.addr, a.size + H + b.size, a.free⟩ :: post
    else pre ++ b :: post

/-- A block is given back: it becomes free, swallows a free block after it, and is swallowed by a
free block before it. -/
def release (H : Nat) (pre : List Block) (b : Block) (post : List Block) : List Block :=
  let r := absorbNext H { b with free := true } post
  absorbPrev H pre r.1 r.2

/-- What is left after swallowing starts with a block in use, tiles what it should, and has the
same blocks in use. -/
theorem absorbNext_spec (hgH : g ∣ H) (hb : g ∣ b.size ∧ 0 < b.size)
    (hpost : Tiled H g (b.addr + H + b.size) hi post) :
    (absorbNext H b post).1.addr = b.addr ∧ (absorbNext H b post).1.free = b.free ∧
      (g ∣ (absorbNext H b post).1.size ∧ 0 < (absorbNext H b post).1.size) ∧
      Tiled H g (b.addr + H + (absorbNext H b post).1.size) hi (absorbNext H b post).2 ∧
      (∀ c ∈ (absorbNext H b post).2.head?, c.free = false) ∧
      (∀ c, c ∈ (absorbNext H b post).2 ∧ c.free = false ↔ c ∈ post ∧ c.free = false) := by
  match post with
  | [] => exact ⟨rfl, rfl, hb, hpost, by simp [absorbNext], fun c => Iff.rfl⟩
  | c :: post =>
    by_cases hc : c.free = true
    · simp only [absorbNext, hc, if_true]
      obtain ⟨haddr, htiles⟩ := hpost.tiles
      have hsz := hpost.sizes c (by simp)
      have hpost' : Tiled H g _ hi ([] ++ c :: post) := hpost
      obtain ⟨-, hrest⟩ := hpost'.sides
      rw [haddr] at hrest
      refine ⟨trivial, trivial, ⟨(hb.1.add hgH).add hsz.1, by omega⟩, ?_, ?_, fun x => ?_⟩
      · convert hrest using 1
        omega
      · exact hpost'.next_used hc
      · constructor
        · rintro ⟨hx, hf⟩
          exact ⟨List.mem_cons_of_mem _ hx, hf⟩
        · rintro ⟨hx, hf⟩
          rcases List.mem_cons.mp hx with rfl | hx
          · rw [hc] at hf
            exact absurd hf (by simp)
          · exact ⟨hx, hf⟩
    · have hcf : c.free = false := by simpa using hc
      simp only [absorbNext, hcf, Bool.false_eq_true, if_false]
      exact ⟨trivial, trivial, hb, hpost, by simp [hcf], fun _ => trivial⟩

/-- Putting a block between two tiled parts none of whose blocks touching it is free. -/
theorem Tiled.join (hb : g ∣ b.size ∧ 0 < b.size) (hpre : Tiled H g lo b.addr pre)
    (hpost : Tiled H g (b.addr + H + b.size) hi post) (hprev : ∀ a ∈ pre.getLast?, a.free = false)
    (hnext : ∀ c ∈ post.head?, c.free = false) : Tiled H g lo hi (pre ++ b :: post) := by
  refine ⟨tiles_split.mpr ⟨hpre.tiles, hpost.tiles⟩, ?_, ?_⟩
  · intro c hc
    rcases List.mem_append.mp hc with hc | hc
    · exact hpre.sizes c hc
    · rcases List.mem_cons.mp hc with rfl | hc
      · exact hb
      · exact hpost.sizes c hc
  · refine List.isChain_append.mpr ⟨hpre.coalesced, List.isChain_cons.mpr ⟨?_, hpost.coalesced⟩, ?_⟩
    · intro c hc h
      rw [hnext c hc] at h
      exact absurd h.2 (by simp)
    · intro a ha c _ h
      rw [hprev a ha] at h
      exact absurd h.1 (by simp)

/-- The two cases of swallowing by the block before. -/
theorem absorbPrev_cases (H : Nat) (pre : List Block) (b : Block) (post : List Block) :
    (absorbPrev H pre b post = pre ++ b :: post ∧ ∀ a ∈ pre.getLast?, a.free = false) ∨
      ∃ pre' a, pre = pre' ++ [a] ∧ a.free = true ∧
        absorbPrev H pre b post = pre' ++ ⟨a.addr, a.size + H + b.size, true⟩ :: post := by
  rcases List.eq_nil_or_concat pre with rfl | ⟨pre', a, rfl⟩
  · exact Or.inl ⟨rfl, by simp⟩
  · unfold absorbPrev
    rw [List.concat_eq_append, List.getLast?_concat, List.dropLast_concat]
    by_cases ha : a.free = true
    · exact Or.inr ⟨pre', a, rfl, ha, by simp [ha]⟩
    · have haf : a.free = false := by simpa using ha
      exact Or.inl ⟨by simp [haf], by simp [haf]⟩

/-- **Releasing a block** keeps the invariant. -/
theorem Tiled.release (hgH : g ∣ H) (h : Tiled H g lo hi (pre ++ b :: post)) :
    Tiled H g lo hi (Lib.release H pre b post) := by
  obtain ⟨hpre, hpost⟩ := h.sides
  obtain ⟨haddr, -, hsz, hrest, hnext, -⟩ :=
    absorbNext_spec (b := { b with free := true }) hgH (h.sizes b (by simp)) hpost
  unfold Lib.release
  simp only at haddr hsz hrest hnext ⊢
  generalize absorbNext H { b with free := true } post = r at haddr hsz hrest hnext ⊢
  rcases absorbPrev_cases H pre r.1 r.2 with ⟨heq, hlast⟩ | ⟨pre', a, rfl, ha, heq⟩
  · rw [heq]
    exact Tiled.join hsz (haddr ▸ hpre) (haddr ▸ hrest) hlast hnext
  · rw [heq]
    obtain ⟨hpre', hlo⟩ := hpre.sides
    have hab : a.addr + H + a.size = b.addr := hlo.tiles
    have hasz := hpre.sizes a (by simp)
    refine Tiled.join ⟨(hasz.1.add hgH).add hsz.1, by simp only; omega⟩ hpre' ?_ ?_ hnext
    · convert hrest using 1
      simp only
      omega
    · -- the block before `a` is in use because `a` is free
      intro x hx
      have hchain := (List.isChain_append.mp hpre.coalesced).2.2 x hx a (by simp)
      exact Bool.eq_false_iff.mpr (fun hxf => hchain ⟨hxf, ha⟩)

/-- Among the blocks in use, releasing removes exactly the released one. -/
theorem mem_release_used (hgH : g ∣ H) (h : Tiled H g lo hi (pre ++ b :: post)) :
    (c ∈ release H pre b post ∧ c.free = false) ↔ (c ∈ pre ++ post ∧ c.free = false) := by
  obtain ⟨-, hpost⟩ := h.sides
  obtain ⟨-, hfree, -, -, -, hused⟩ :=
    absorbNext_spec (b := { b with free := true }) hgH (h.sizes b (by simp)) hpost
  unfold release
  simp only at hfree hused ⊢
  generalize absorbNext H { b with free := true } post = r at hfree hused ⊢
  have hmid : ∀ (xs : List Block) (m : Block), m.free = true →
      ((c ∈ xs ++ m :: r.2 ∧ c.free = false) ↔ (c ∈ xs ++ post ∧ c.free = false)) := by
    intro xs m hm
    simp only [List.mem_append, List.mem_cons]
    constructor
    · rintro ⟨hc | rfl | hc, hf⟩
      · exact ⟨Or.inl hc, hf⟩
      · rw [hm] at hf
        exact absurd hf (by simp)
      · exact ⟨Or.inr ((hused c).mp ⟨hc, hf⟩).1, hf⟩
    · rintro ⟨hc | hc, hf⟩
      · exact ⟨Or.inl hc, hf⟩
      · exact ⟨Or.inr (Or.inr ((hused c).mpr ⟨hc, hf⟩).1), hf⟩
  rcases absorbPrev_cases H pre r.1 r.2 with ⟨heq, -⟩ | ⟨pre', a, rfl, ha, heq⟩
  · rw [heq]
    exact hmid pre r.1 hfree
  · rw [heq, hmid pre' _ rfl]
    simp only [List.mem_append, List.mem_singleton]
    constructor
    · rintro ⟨hc | hc, hf⟩
      · exact ⟨Or.inl (Or.inl hc), hf⟩
      · exact ⟨Or.inr hc, hf⟩
    · rintro ⟨(hc | rfl) | hc, hf⟩
      · exact ⟨Or.inl hc, hf⟩
      · rw [ha] at hf
        exact absurd hf (by simp)
      · exact ⟨Or.inr hc, hf⟩

end JarvOs.Lib
