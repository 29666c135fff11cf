/-
# The heap's block list in memory

`Listed` says that a block list is the one in memory: it tiles `[KHEAP_START, heap_end)` and the
headers chain it.  It says nothing about which blocks are free, because inside a call that may be
anything (after `expand_heap` the fresh block can follow a free one).  Each editing step of
`kmalloc.c` is specified here on `Listed` alone, as the list edit it performs: `takeBlock_listed`
is `carve`, `kfree_listed` is `release`, `grow_listed` appends the block `expand_heap` makes, and
`findFit_listed` is the search.  Every one of them holds on any machine with `HeapLaws`.
-/
import JarvOs.Memory.Headers

namespace JarvOs.Memory

open JarvOs.Lib

variable {σ : Type} {E : HeapEnv σ} {Good : Nat → σ → Prop} {k : Nat} {h h' : HeapState σ}
  {bs pre post : List Block} {b c : Block}

/-! ## 1. The block list in memory -/

/-- The addresses at which the blocks of a list have their headers. -/
def addrs (bs : List Block) : Set Nat := {a | ∃ b ∈ bs, b.addr = a}

/-- The headers as memory has them, wherever there is one. -/
def HeapEnv.headers (E : HeapEnv σ) (h : HeapState σ) : Headers := fun a =>
  ⟨(E.load h a .size).getD 0, (E.load h a .free).getD 0, (E.load h a .next).getD 0,
    (E.load h a .prev).getD 0⟩

/-- The machine is consistent and every byte of `[KHEAP_START, heap_end)` is mapped. -/
structure Backed (E : HeapEnv σ) (Good : Nat → σ → Prop) (k : Nat) (h : HeapState σ) : Prop where
  good : Good k h.mach
  bound : h.heapEnd < 2 ^ 32
  mapped : ∀ x, kheapStart ≤ x → x < h.heapEnd → (E.get h.mach x).isSome

/-- The list from `heap_head` is `bs`, and `bs` tiles the heap. -/
structure Listed (E : HeapEnv σ) (Good : Nat → σ → Prop) (k : Nat) (h : HeapState σ)
    (bs : List Block) : Prop extends Backed E Good k h where
  tiles : Tiles headerSize kheapStart bs h.heapEnd
  head : h.heapHead = firstAddr bs 0
  linked : Linked (E.headers h) 0 bs 0

theorem headers_get {a : Nat} {f : Field} {v : Nat} (hl : E.load h a f = some v) :
    (E.headers h a).get f = v := by
  cases f <;> simp [HeapEnv.headers, Header.get, hl]

theorem Holds.headers_eq {A : Set Nat} {m : Headers} (H : Holds E Good k A h m) {a : Nat}
    (ha : a ∈ A) : E.headers h a = m a := by
  have h1 := headers_get (H.load ha .size)
  have h2 := headers_get (H.load ha .free)
  have h3 := headers_get (H.load ha .next)
  have h4 := headers_get (H.load ha .prev)
  generalize E.headers h a = x at *
  generalize m a = y at *
  cases x
  cases y
  simp only [Header.get] at h1 h2 h3 h4
  rw [h1, h2, h3, h4]

theorem Backed.exists_load (hB : Backed E Good k h) {a : Nat} (hlo : kheapStart ≤ a)
    (hhi : a + headerSize ≤ h.heapEnd) (f : Field) : ∃ v, E.load h a f = some v := by
  have hb := hB.bound
  have hf := f.offset_add_le
  rw [load_eq (by omega)]
  obtain ⟨v, hv, -⟩ := ByteEnv.exists_get32 (E := E.toByteEnv) (s := h.mach) (a := a + f.offset)
    (by omega) (fun j hj => hB.mapped _ (by omega) (by omega))
  exact ⟨v, hv⟩

/-- Headers at the starts of any tiling inside the heap can be edited. -/
theorem Backed.holds {lo hi : Nat} (hB : Backed E Good k h) (ht : Tiles headerSize lo bs hi)
    (hlo : kheapStart ≤ lo) (hhi : hi ≤ h.heapEnd) :
    Holds E Good k (addrs bs) h (E.headers h) := by
  have hb := hB.bound
  refine ⟨hB.good, ?_, ?_, ?_⟩
  · rintro a ⟨b, hbm, rfl⟩
    have := ht.bounds b hbm
    omega
  · rintro a ⟨b, hbm, rfl⟩ c ⟨d, hd, rfl⟩
    rcases ht.apart b hbm d hd with rfl | h1 | h1
    · exact Or.inl rfl
    · exact Or.inr (Or.inl (by omega))
    · exact Or.inr (Or.inr (by omega))
  · rintro a ⟨b, hbm, rfl⟩ f
    have hbd := ht.bounds b hbm
    obtain ⟨v, hv⟩ := hB.exists_load (hlo.trans hbd.1) (by omega) f
    rw [headers_get hv, hv]

theorem Wrote.backed {A : Set Nat} {m : Headers} (W : Wrote E A h h')
    (H : Holds E Good k A h' m) (hB : Backed E Good k h) : Backed E Good k h' := by
  have hb := hB.bound
  refine ⟨H.good, by rwa [W.heapEnd], fun x hl hh => ?_⟩
  rw [W.heapEnd] at hh
  exact W.isSome H hl (by omega) (hB.mapped x hl hh)

theorem Wrote.mono {A B : Set Nat} (W : Wrote E A h h') (hAB : A ⊆ B) : Wrote E B h h' :=
  ⟨W.heapHead, W.heapEnd, fun x hl hh hx => W.off x hl hh (fun a ha => hx a (hAB ha))⟩

/-- After edits of the headers `ws`, the list in memory is what the edited map chains. -/
theorem Wrote.listed {ws : List Block} {m : Headers} (W : Wrote E (addrs ws) h h')
    (H : Holds E Good k (addrs ws) h' m) (hB : Backed E Good k h)
    (ht : Tiles headerSize kheapStart bs h.heapEnd) (hhead : h.heapHead = firstAddr bs 0)
    (hsub : addrs bs ⊆ addrs ws) (hl : Linked m 0 bs 0) : Listed E Good k h' bs := by
  refine { toBacked := W.backed H hB, tiles := ?_, head := ?_, linked := ?_ }
  · rwa [W.heapEnd]
  · rwa [W.heapHead]
  · exact hl.congr (fun b hb => H.headers_eq (hsub ⟨b, hb, rfl⟩))

/-- The payload of a block is none of the bytes header edits touch. -/
theorem Wrote.payload {ws : List Block} {hi : Nat} (W : Wrote E (addrs ws) h h')
    (ht : Tiles headerSize kheapStart ws hi) (hhi : hi < 2 ^ 32) (hb : b ∈ ws) {x : Nat}
    (h1 : b.addr + headerSize ≤ x) (h2 : x < b.addr + headerSize + b.size) :
    E.get h'.mach x = E.get h.mach x := by
  have hbd := ht.bounds b hb
  refine W.off x (by omega) (by omega) ?_
  rintro a ⟨c, hc, rfl⟩
  rcases ht.apart b hb c hc with rfl | h3 | h3
  · exact Or.inr h1
  · exact Or.inl (by omega)
  · exact Or.inr (by omega)

section Facts

variable (hL : Listed E Good k h bs)
include hL

theorem Listed.nodup : (bs.map Block.addr).Nodup := hL.tiles.nodup (by decide)

theorem Listed.pos : ∀ b ∈ bs, b.addr ≠ 0 := fun b hb => by
  have := hL.tiles.bounds b hb
  have := kheapStart_eq
  omega

theorem Listed.size_lt : ∀ b ∈ bs, b.addr + headerSize + b.size < 2 ^ 32 := fun b hb => by
  have := hL.tiles.bounds b hb
  have := hL.bound
  omega

theorem Listed.holds : Holds E Good k (addrs bs) h (E.headers h) :=
  hL.toBacked.holds hL.tiles (le_refl _) (le_refl _)

end Facts

theorem Listed.header (hL : Listed E Good k h (pre ++ b :: post)) :
    E.headers h b.addr = ⟨b.size, b.free.toNat, firstAddr post 0, lastAddr 0 pre⟩ :=
  hL.linked.header

theorem Listed.load (hL : Listed E Good k h (pre ++ b :: post)) (f : Field) :
    E.load h b.addr f =
      some ((⟨b.size, b.free.toNat, firstAddr post 0, lastAddr 0 pre⟩ : Header).get f) := by
  rw [← hL.header]
  exact hL.holds.load ⟨b, by simp, rfl⟩ f

/-- Another block at the same address, with fewer blocks behind it. -/
theorem addrs_subset {post' : List Block} (h : c.addr = b.addr)
    (hpost : ∀ x ∈ post', x ∈ post) : addrs (pre ++ c :: post') ⊆ addrs (pre ++ b :: post) := by
  rintro _ ⟨x, hx, rfl⟩
  rcases List.mem_append.mp hx with hx | hx
  · exact ⟨x, List.mem_append_left _ hx, rfl⟩
  · rcases List.mem_cons.mp hx with rfl | hx
    · exact ⟨b, List.mem_append_right _ List.mem_cons_self, h.symm⟩
    · exact ⟨x, List.mem_append_right _ (List.mem_cons_of_mem _ (hpost x hx)), rfl⟩

theorem addrs_append_cons (h : c.addr = b.addr) :
    addrs (pre ++ c :: post) = addrs (pre ++ b :: post) :=
  (addrs_subset h (fun _ hx => hx)).antisymm (addrs_subset h.symm (fun _ hx => hx))

theorem addrs_setFree (pre post : List Block) (b : Block) (f : Bool) :
    addrs (pre ++ { b with free := f } :: post) = addrs (pre ++ b :: post) :=
  addrs_append_cons rfl

/-- A `next` pointer is `NULL` or leads to a block of the list. -/
theorem firstAddr_mem_addrs (hsub : ∀ c ∈ post, c ∈ bs) (h0 : firstAddr post 0 ≠ 0) :
    firstAddr post 0 ∈ addrs bs := by
  rcases firstAddr_mem post 0 with h1 | ⟨c, hc, h1⟩
  · exact absurd h1 h0
  · exact ⟨c, hsub c hc, h1⟩

/-! ## 2. Taking a block -/

theorem Listed.setFree (L : HeapLaws E Good) (hL : Listed E Good k h (pre ++ b :: post)) (f : Bool) :
    ∃ h', E.store h b.addr .free f.toNat = some h' ∧
      Listed E Good k h' (pre ++ { b with free := f } :: post) ∧
      Wrote E (addrs (pre ++ b :: post)) h h' := by
  have hf : f.toNat < 2 ^ 32 := lt_of_le_of_lt f.toNat_le (by norm_num)
  obtain ⟨h', e, H, W⟩ := hL.holds.store L ⟨b, by simp, rfl⟩ .free hf
  refine ⟨h', e, ?_, W⟩
  refine W.listed H hL.toBacked ?_ ?_ (addrs_setFree pre post b f).subset
    (hL.linked.setFree hL.nodup f)
  · obtain ⟨ht1, ht2⟩ := tiles_split.mp hL.tiles
    exact tiles_split.mpr ⟨ht1, ht2⟩
  · rw [hL.head, firstAddr_append, firstAddr_append]
    rfl

theorem Listed.setFree_same (L : HeapLaws E Good) (hL : Listed E Good k h (pre ++ b :: post))
    (f : Bool) : ∃ h', E.store h b.addr .free f.toNat = some h' ∧
      Listed E Good k h' (pre ++ { b with free := f } :: post) ∧
      Wrote E (addrs (pre ++ { b with free := f } :: post)) h h' := by
  obtain ⟨h', e, hL', W⟩ := hL.setFree L f
  exact ⟨h', e, hL', W.mono (addrs_setFree pre post b f).superset⟩

/-- `split_block` when it splits: the rest becomes a free block of its own. -/
theorem Listed.splitBlock (L : HeapLaws E Good) (hL : Listed E Good k h (pre ++ b :: post)) {n : Nat}
    (hbig : headerSize + 16 < b.size - n) :
    ∃ h', E.splitBlock h b.addr n = some h' ∧
      Listed E Good k h' (pre ++ ⟨b.addr, n, b.free⟩ ::
        ⟨b.addr + headerSize + n, b.size - n - headerSize, true⟩ :: post) ∧
      Wrote E (addrs (pre ++ ⟨b.addr, n, b.free⟩ ::
        ⟨b.addr + headerSize + n, b.size - n - headerSize, true⟩ :: post)) h h' := by
  have hhead := hL.header
  have h16 := headerSize_eq
  obtain ⟨ht1, ht2⟩ := tiles_split.mp hL.tiles
  have ht : Tiles headerSize kheapStart (pre ++ ⟨b.addr, n, b.free⟩ ::
      ⟨b.addr + headerSize + n, b.size - n - headerSize, true⟩ :: post) h.heapEnd := by
    refine tiles_split.mpr ⟨ht1, rfl, ?_⟩
    convert ht2 using 1
    simp only
    omega
  -- the new header lies strictly inside the old block, so no old header is at its address
  have hnew : ∀ c ∈ pre ++ b :: post, c.addr ≠ b.addr + headerSize + n := by
    intro c hc
    rcases hL.tiles.apart b (by simp) c hc with rfl | h1 | h1 <;> omega
  have hnext : firstAddr post 0 ≠ b.addr := by
    refine (ne_firstAddr (hL.pos b (by simp)) (fun c hc => ?_)).symm
    exact (addr_ne_of_mem_post hL.nodup hc).symm
  obtain ⟨h', e, H, W⟩ := splitBlock_holds L
    (hL.toBacked.holds ht (le_refl _) (le_refl _)) b.addr n
    ⟨⟨b.addr, n, b.free⟩, by simp, rfl⟩ (by rw [hhead]; simp only; omega)
    (by rw [hhead]; exact hbig) ⟨⟨_, b.size - n - headerSize, true⟩, by simp, rfl⟩
    (by
      rw [hhead]
      exact firstAddr_mem_addrs (fun c hc => by simp [hc]))
    (by rwa [hhead])
  refine ⟨h', e, W.listed H hL.toBacked ht ?_ (le_refl _)
    (hL.linked.split hL.nodup hL.pos hnew), W⟩
  rw [hL.head, firstAddr_append, firstAddr_append]
  rfl

/-- **Taking a block** carves it. -/
theorem takeBlock_listed (L : HeapLaws E Good) (hL : Listed E Good k h (pre ++ b :: post)) {n : Nat}
    (hn : n ≤ b.size) :
    ∃ h', E.takeBlock h b.addr n = some (b.addr + headerSize, h') ∧
      Listed E Good k h' (pre ++ carve headerSize (headerSize + 16) b n ++ post) ∧
      Wrote E (addrs (pre ++ carve headerSize (headerSize + 16) b n ++ post)) h h' := by
  have hadd : add32 b.addr headerSize = b.addr + headerSize :=
    add32_of_lt (by have := hL.size_lt b (by simp); omega)
  have hsz : (E.headers h b.addr).size = b.size := by rw [hL.header]
  unfold carve
  by_cases hsmall : b.size - n ≤ headerSize + 16
  · obtain ⟨h', e, hL', W⟩ := hL.setFree_same L false
    rw [if_pos hsmall, List.append_assoc]
    refine ⟨h', ?_, hL', W⟩
    have hs := splitBlock_small hL.holds b.addr n ⟨b, by simp, rfl⟩
      (by rwa [hsz]) (by rwa [hsz])
    rw [Bool.toNat_false] at e
    simp only [HeapEnv.takeBlock, hs, e, hadd, Option.bind_eq_bind, Option.bind_some]
  · obtain ⟨h₁, e₁, hL₁, W₁⟩ := hL.splitBlock L (n := n) (by omega)
    obtain ⟨h₂, e₂, hL₂, W₂⟩ := hL₁.setFree_same L false
    rw [if_neg hsmall, List.append_assoc]
    refine ⟨h₂, ?_, hL₂, (W₁.mono (addrs_setFree pre _ ⟨b.addr, n, b.free⟩ false).superset).trans
      W₂⟩
    rw [Bool.toNat_false] at e₂
    simp only [HeapEnv.takeBlock, e₁, e₂, hadd, Option.bind_eq_bind, Option.bind_some]

/-! ## 3. Giving a block back -/

/-- One merge. -/
theorem Listed.absorb {a : Block} (L : HeapLaws E Good)
    (hL : Listed E Good k h (pre ++ a :: c :: post)) :
    ∃ h', E.absorb h a.addr c.addr = some h' ∧
      Listed E Good k h' (pre ++ ⟨a.addr, a.size + headerSize + c.size, a.free⟩ :: post) ∧
      Wrote E (addrs (pre ++ a :: c :: post)) h h' := by
  have hL' : Listed E Good k h ((pre ++ [a]) ++ c :: post) := by simpa using hL
  have ha := hL.header
  have hc := hL'.header
  obtain ⟨ht1, hca, ht2⟩ := tiles_split.mp hL.tiles
  have hend := hL.size_lt c (by simp)
  obtain ⟨h', e, H, W⟩ := absorb_holds L hL.holds a.addr c.addr
    ⟨a, by simp, rfl⟩ ⟨c, by simp, rfl⟩ (addr_ne_of_mem_post hL.nodup (by simp))
    (by rw [ha, hc]; simp only; omega)
    (by
      rw [hc]
      exact firstAddr_mem_addrs (fun d hd => by simp [hd]))
  refine ⟨h', e, W.listed H hL.toBacked ?_ ?_ ?_ (hL.linked.absorb hL.nodup hL.pos), W⟩
  · refine tiles_split.mpr ⟨ht1, ?_⟩
    convert ht2 using 1
    simp only
    omega
  · rw [hL.head, firstAddr_append, firstAddr_append]
    rfl
  · exact addrs_subset rfl (fun _ hx => List.mem_cons_of_mem _ hx)

theorem Listed.isFreeBlock (hL : Listed E Good k h (pre ++ b :: post)) :
    E.isFreeBlock h b.addr = some b.free := by
  have h0 := hL.pos b (by simp)
  cases hf : b.free <;>
    simp [HeapEnv.isFreeBlock, h0, hL.load .free, Header.get, hf]

theorem isFreeBlock_null : E.isFreeBlock h 0 = some false := rfl

theorem mergeNext_listed (L : HeapLaws E Good) (hL : Listed E Good k h (pre ++ b :: post)) :
    ∃ h', E.mergeNext h b.addr = some h' ∧
      Listed E Good k h' (pre ++ (absorbNext headerSize b post).1 ::
        (absorbNext headerSize b post).2) ∧
      Wrote E (addrs (pre ++ b :: post)) h h' := by
  have hnext : E.load h b.addr .next = some (firstAddr post 0) := hL.load .next
  cases post with
  | nil =>
    refine ⟨h, ?_, hL, Wrote.refl h⟩
    simp only [HeapEnv.mergeNext, hnext, firstAddr, Option.bind_eq_bind, Option.bind_some,
      isFreeBlock_null]
    rfl
  | cons c post =>
    have hL' : Listed E Good k h ((pre ++ [b]) ++ c :: post) := by simpa using hL
    have hfree := hL'.isFreeBlock
    cases hc : c.free with
    | true =>
      obtain ⟨h', e, hL', W⟩ := hL.absorb L
      refine ⟨h', ?_, by simpa only [absorbNext, hc, if_true] using hL', W⟩
      simp only [HeapEnv.mergeNext, hnext, firstAddr, Option.bind_eq_bind, Option.bind_some, hfree,
        hc, if_true, e]
    | false =>
      refine ⟨h, ?_, by simpa only [absorbNext, hc, Bool.false_eq_true, if_false] using hL,
        Wrote.refl h⟩
      simp only [HeapEnv.mergeNext, hnext, firstAddr, Option.bind_eq_bind, Option.bind_some, hfree,
        hc, Bool.false_eq_true, if_false]

theorem mergePrev_listed (L : HeapLaws E Good) (hL : Listed E Good k h (pre ++ b :: post)) :
    ∃ h', E.mergePrev h b.addr = some h' ∧
      Listed E Good k h' (absorbPrev headerSize pre b post) ∧
      Wrote E (addrs (pre ++ b :: post)) h h' := by
  have hprev : E.load h b.addr .prev = some (lastAddr 0 pre) := hL.load .prev
  rcases List.eq_nil_or_concat pre with rfl | ⟨pre', a, rfl⟩
  · refine ⟨h, ?_, hL, Wrote.refl h⟩
    simp only [HeapEnv.mergePrev, hprev, lastAddr, Option.bind_eq_bind, Option.bind_some,
      isFreeBlock_null]
    rfl
  · rw [List.concat_eq_append] at hL hprev ⊢
    have hL' : Listed E Good k h (pre' ++ a :: b :: post) := by simpa using hL
    have hfree := hL'.isFreeBlock
    rw [lastAddr_append] at hprev
    simp only [lastAddr] at hprev
    simp only [absorbPrev, List.getLast?_concat, List.dropLast_concat]
    cases ha : a.free with
    | true =>
      obtain ⟨h', e, hL'', W⟩ := hL'.absorb L
      rw [ha] at hL''
      refine ⟨h', ?_, hL'', by simpa using W⟩
      simp only [HeapEnv.mergePrev, hprev, Option.bind_eq_bind, Option.bind_some, hfree, ha,
        if_true, e]
    | false =>
      refine ⟨h, ?_, hL, Wrote.refl h⟩
      simp only [HeapEnv.mergePrev, hprev, Option.bind_eq_bind, Option.bind_some, hfree, ha,
        Bool.false_eq_true, if_false]

theorem absorbNext_addr (H : Nat) (b : Block) (post : List Block) :
    (absorbNext H b post).1.addr = b.addr := by
  unfold absorbNext
  split
  · rfl
  · split <;> rfl

theorem absorbNext_subset (H : Nat) (b : Block) (post : List Block) :
    ∀ c ∈ (absorbNext H b post).2, c ∈ post := by
  unfold absorbNext
  split
  · simp
  · split
    · intro c hc
      exact List.mem_cons_of_mem _ hc
    · exact fun c hc => hc

/-- **Giving a block back** releases it. -/
theorem kfree_listed (L : HeapLaws E Good) (hL : Listed E Good k h (pre ++ b :: post)) :
    ∃ h', E.kfree h (b.addr + headerSize) = some h' ∧
      Listed E Good k h' (release headerSize pre b post) ∧
      Wrote E (addrs (pre ++ b :: post)) h h' := by
  have hlt := hL.size_lt b (by simp)
  have h16 := headerSize_eq
  obtain ⟨h₁, e₁, hL₁, W₁⟩ := hL.setFree L true
  obtain ⟨h₂, e₂, hL₂, W₂⟩ := mergeNext_listed L hL₁
  obtain ⟨h₃, e₃, hL₃, W₃⟩ := mergePrev_listed L hL₂
  have haddr := absorbNext_addr headerSize { b with free := true } post
  refine ⟨h₃, ?_, hL₃, W₁.trans ((W₂.mono (addrs_setFree pre post b true).subset).trans
    (W₃.mono ?_))⟩
  · have hblock : sub32 (b.addr + headerSize) headerSize = b.addr := by
      rw [sub32_of_le (by omega) (by omega), Nat.add_sub_cancel]
    rw [haddr] at e₃
    rw [Bool.toNat_true] at e₁
    unfold HeapEnv.kfree
    rw [if_neg (by omega)]
    simp only [hblock, e₁, e₂, e₃, Option.bind_eq_bind, Option.bind_some]
  · exact addrs_subset haddr (absorbNext_subset _ _ _)

/-! ## 4. Searching -/

/-- Where the search of `kmalloc` ends: at a free block that is large enough, or past the last
block. -/
def Found (pre post : List Block) (n : Nat) (r : Nat × Nat) : Prop :=
  (∃ pre' b post', post = pre' ++ b :: post' ∧ b.free = true ∧ n ≤ b.size ∧
      r = (b.addr, lastAddr 0 (pre ++ pre'))) ∨
    r = (0, lastAddr 0 (pre ++ post))

theorem Listed.fits (hL : Listed E Good k h (pre ++ b :: post)) (n : Nat) :
    E.fits h b.addr n = some (b.free && decide (n ≤ b.size)) := by
  cases hf : b.free <;>
    simp [HeapEnv.fits, hL.load .free, hL.load .size, Header.get, hf]

theorem findFit_listed {n : Nat} : ∀ (post pre : List Block) (fuel : Nat),
    Listed E Good k h (pre ++ post) → post.length < fuel →
    ∃ r, E.findFit h n fuel (firstAddr post 0) (lastAddr 0 pre) = some r ∧ Found pre post n r := by
  intro post
  induction post with
  | nil =>
    intro pre fuel _ hfuel
    obtain ⟨fuel, rfl⟩ : ∃ f, fuel = f + 1 := ⟨fuel - 1, by simp at hfuel; omega⟩
    exact ⟨_, rfl, Or.inr (by rw [List.append_nil])⟩
  | cons b post ih =>
    intro pre fuel hL hfuel
    obtain ⟨fuel, rfl⟩ : ∃ f, fuel = f + 1 := ⟨fuel - 1, by simp at hfuel; omega⟩
    have h0 : b.addr ≠ 0 := hL.pos b (by simp)
    simp only [HeapEnv.findFit, firstAddr, if_neg h0, hL.fits, Option.bind_eq_bind,
      Option.bind_some]
    by_cases hfit : (b.free && decide (n ≤ b.size)) = true
    · rw [if_pos hfit]
      rw [Bool.and_eq_true, decide_eq_true_eq] at hfit
      exact ⟨_, rfl, Or.inl ⟨[], b, post, rfl, hfit.1, hfit.2, by rw [List.append_nil]⟩⟩
    · rw [if_neg hfit]
      have hL' : Listed E Good k h ((pre ++ [b]) ++ post) := by simpa using hL
      obtain ⟨r, hr, hfound⟩ := ih (pre ++ [b]) fuel hL' (by simpa using hfuel)
      rw [lastAddr_append] at hr
      refine ⟨r, by simpa [hL.load .next, Header.get, lastAddr] using hr, ?_⟩
      rcases hfound with ⟨pre', c, post', rfl, h1, h2, rfl⟩ | rfl
      · exact Or.inl ⟨b :: pre', c, post', rfl, h1, h2, by simp⟩
      · exact Or.inr (by simp)

/-- The search from `heap_head` ends: the list has no more blocks than there are addresses. -/
theorem Listed.findFit (hL : Listed E Good k h bs) (n : Nat) :
    ∃ r, E.findFit h n (2 ^ 32) h.heapHead 0 = some r ∧ Found [] bs n r := by
  have hlen := hL.tiles.length_le (by decide)
  have hb := hL.bound
  rw [hL.head]
  exact findFit_listed bs [] (2 ^ 32) hL (by omega)

/-! ## 5. Growing -/

/-- The loop of `expand_heap`. -/
theorem expandPages_spec (L : HeapLaws E Good) : ∀ (n : Nat) {h : HeapState σ} {i k : Nat},
    Good k h.mach → kheapStart ≤ h.heapEnd → 4096 ∣ h.heapEnd →
    h.heapEnd + 4096 * (i + k) < 2 ^ 32 →
    ∃ mapped h' k', E.expandPages h i n = some (mapped, h') ∧ h'.heapHead = h.heapHead ∧
      h'.heapEnd = h.heapEnd ∧ k' ≤ k ∧ Good k' h'.mach ∧
      (∀ x, kheapStart ≤ x → x < h.heapEnd + 4096 * i → E.get h'.mach x = E.get h.mach x) ∧
      (mapped = true → k = k' + n ∧ ∀ x, h.heapEnd + 4096 * i ≤ x →
        x < h.heapEnd + 4096 * (i + n) → (E.get h'.mach x).isSome) := by
  intro n
  induction n with
  | zero =>
    intro h i k hg _ _ _
    exact ⟨true, h, k, rfl, rfl, rfl, le_refl k, hg, fun _ _ _ => rfl,
      fun _ => ⟨rfl, fun x h1 h2 => absurd h2 (by omega)⟩⟩
  | succ n ih =>
    intro h i k hg hlo hal hroom
    have hva : add32 h.heapEnd (mul32 i kmallocPage) = h.heapEnd + 4096 * i := by
      rw [mul32_of_lt (by simp only [kmallocPage]; omega), add32_of_lt (by
        simp only [kmallocPage]; omega), Nat.mul_comm]
    obtain ⟨r, t, hmap, hcase⟩ := L.map hg (show kheapStart ≤ h.heapEnd + 4096 * i by omega)
      (by omega) (hal.add (Nat.dvd_mul_right 4096 i))
    rcases hcase with ⟨hr, hgt, hsame⟩ | ⟨hr, k₁, rfl, hgt, hoff, hpage⟩
    · refine ⟨false, { h with mach := t }, k, ?_, rfl, rfl, le_refl k, hgt,
        fun x h1 h2 => hsame x h1 (by omega), by simp⟩
      simp only [HeapEnv.expandPages, hva, hmap, Option.bind_eq_bind, Option.bind_some, if_pos hr]
    · -- the page is mapped; the rest of the loop runs one page further on
      obtain ⟨mapped, h', k', hrun, hhead, hend, hk, hg', hframe, hok⟩ :=
        ih (h := { h with mach := t }) (i := i + 1) hgt hlo hal (by simp only; omega)
      refine ⟨mapped, h', k', ?_, hhead, hend, by omega, hg', fun x h1 h2 => ?_, fun hm => ?_⟩
      · simp only [HeapEnv.expandPages, hva, hmap, Option.bind_eq_bind, Option.bind_some,
          if_neg hr, hrun]
      · rw [hframe x h1 (by simp only; omega)]
        exact hoff x h1 (by omega) (Or.inl h2)
      · obtain ⟨hk', hnew⟩ := hok hm
        refine ⟨by omega, fun x h1 h2 => ?_⟩
        simp only at hnew hframe
        rcases Nat.lt_or_ge x (h.heapEnd + 4096 * (i + 1)) with hx | hx
        · have hpx := hpage x h1 (lt_of_lt_of_eq hx (by ring))
          rwa [hframe x (by omega) hx]
        · exact hnew x hx (by rwa [Nat.add_assoc i 1 n, Nat.add_comm 1 n])

theorem headers_congr {a : Nat} (ha : a + headerSize ≤ 2 ^ 32)
    (hx : ∀ x, a ≤ x → x < a + headerSize → E.get h'.mach x = E.get h.mach x) :
    E.headers h' a = E.headers h a := by
  have hload : ∀ f, E.load h' a f = E.load h a f := fun f => by
    have hf := f.offset_add_le
    rw [load_eq ha, load_eq ha]
    exact ByteEnv.get32_congr (by omega) (fun j hj => hx _ (by omega) (by omega))
  simp only [HeapEnv.headers, hload]

/-- Pages `expand_heap` asks for. -/
def expandCount (n : Nat) : Nat := (n + headerSize + 4095) / 4096

theorem expandCount_eq {n : Nat} (hn : n ≤ 0xFFFFEFF0) :
    sub32 (add32 (add32 n headerSize) kmallocPage) 1 / kmallocPage = expandCount n := by
  have h16 := headerSize_eq
  rw [add32_of_lt (show n + headerSize < 2 ^ 32 by omega)]
  -- the largest request wraps in the sum and wraps back in the difference
  have : sub32 (add32 (n + headerSize) kmallocPage) 1 = n + headerSize + 4095 := by
    simp only [sub32, add32, kmallocPage]
    omega
  rw [this, expandCount]

theorem le_expandCount (n : Nat) : n + headerSize ≤ expandCount n * 4096 := by
  have h16 := headerSize_eq
  unfold expandCount
  omega

/-- The block `expand_heap` makes at the end `e` of the heap. -/
def freshBlock (e n : Nat) : Block := ⟨e, expandCount n * 4096 - headerSize, true⟩

/-- **`expand_heap`**: out of memory with nothing changed in the heap, or a fresh free block
behind it. -/
theorem expandHeap_spec (L : HeapLaws E Good) (hL : Listed E Good k h bs) {n : Nat}
    (hal : 4096 ∣ h.heapEnd) (hroom : h.heapEnd + 4096 * k < 2 ^ 32) (hn : n ≤ 0xFFFFEFF0) :
    ∃ r h' k', E.expandHeap h n = some (r, h') ∧ k' ≤ k ∧ h'.heapHead = h.heapHead ∧
      (∀ x, kheapStart ≤ x → x < h.heapEnd → E.get h'.mach x = E.get h.mach x) ∧
      ((r = 0 ∧ h'.heapEnd = h.heapEnd ∧ Backed E Good k' h') ∨
        (r = h.heapEnd ∧ k = k' + expandCount n ∧ h'.heapEnd = h.heapEnd + expandCount n * 4096 ∧
          Backed E Good k' h' ∧ Linked (E.headers h') 0 [freshBlock h.heapEnd n] 0)) := by
  have h16 := headerSize_eq
  have hlo := hL.tiles.le
  obtain ⟨mapped, h₀, k', hrun, hhead, hend, hk, hg, hframe, hok⟩ :=
    expandPages_spec L (expandCount n) (i := 0) hL.good hlo hal (by omega)
  rw [Nat.mul_zero, Nat.add_zero] at hframe hok
  cases mapped with
  | false =>
    refine ⟨0, h₀, k', ?_, hk, hhead, hframe, Or.inl ⟨rfl, hend, hg, hend ▸ hL.bound, ?_⟩⟩
    · simp only [HeapEnv.expandHeap, expandCount_eq hn, hrun, Option.bind_eq_bind,
        Option.bind_some, Bool.false_eq_true, if_false]
    · intro x h1 h2
      rw [hend] at h2
      rw [hframe x h1 h2]
      exact hL.mapped x h1 h2
  | true =>
    obtain ⟨hk', hnew⟩ := hok rfl
    have hpages := le_expandCount n
    have hmul : mul32 (expandCount n) kmallocPage = expandCount n * 4096 :=
      mul32_of_lt (by simp only [kmallocPage]; omega)
    have hadd : add32 h₀.heapEnd (expandCount n * 4096) = h.heapEnd + expandCount n * 4096 := by
      rw [hend, add32_of_lt (by omega)]
    -- the machine with its new pages, before the header is written
    have hB : Backed E Good k' { h₀ with heapEnd := h.heapEnd + expandCount n * 4096 } := by
      refine ⟨hg, by simp only; omega, fun x h1 h2 => ?_⟩
      rcases Nat.lt_or_ge x h.heapEnd with hx | hx
      · simp only [hframe x h1 hx]
        exact hL.mapped x h1 hx
      · exact hnew x hx (by simp only at h2; omega)
    have ht : Tiles headerSize h.heapEnd [freshBlock h.heapEnd n]
        (h.heapEnd + expandCount n * 4096) := ⟨rfl, by simp only [freshBlock, Tiles]; omega⟩
    have H := hB.holds ht hlo (le_refl _)
    have ha : h.heapEnd ∈ addrs [freshBlock h.heapEnd n] :=
      ⟨freshBlock h.heapEnd n, by simp, rfl⟩
    obtain ⟨h₂, e₂, H₂, W₂⟩ := H.store L ha .size (v := expandCount n * 4096 - headerSize)
      (by omega)
    obtain ⟨h₃, e₃, H₃, W₃⟩ := H₂.store L ha .free (v := 1) (by omega)
    obtain ⟨h₄, e₄, H₄, W₄⟩ := H₃.store L ha .next (v := 0) (by omega)
    obtain ⟨h₅, e₅, H₅, W₅⟩ := H₄.store L ha .prev (v := 0) (by omega)
    have W := W₂.trans (W₃.trans (W₄.trans W₅))
    refine ⟨h.heapEnd, h₅, k', ?_, hk, W.heapHead.trans hhead, fun x h1 h2 => ?_,
      Or.inr ⟨rfl, hk', W.heapEnd, W.backed H₅ hB, ?_, trivial⟩⟩
    · simp only [HeapEnv.expandHeap, expandCount_eq hn, hrun, Option.bind_eq_bind,
        Option.bind_some, if_true, hmul, hadd,
        sub32_of_le (show expandCount n * 4096 < 2 ^ 32 by omega)
          (show headerSize ≤ expandCount n * 4096 by omega), e₂, e₃, e₄, e₅]
    · rw [W.off x h1 (by omega) ?_]
      · exact hframe x h1 h2
      · rintro a ⟨b, hb, rfl⟩
        rw [List.mem_singleton.mp hb]
        exact Or.inl h2
    · rw [show (freshBlock h.heapEnd n).addr = h.heapEnd from rfl, H₅.headers_eq ha, put_same,
        put_same, put_same, put_same]
      generalize E.headers _ h.heapEnd = x
      cases x
      rfl

/-- A list with a block at its end. -/
theorem lastAddr_cases (bs : List Block) :
    bs = [] ∨ ∃ bs' a, bs = bs' ++ [a] ∧ lastAddr 0 bs = a.addr := by
  rcases List.eq_nil_or_concat bs with rfl | ⟨bs', a, rfl⟩
  · exact Or.inl rfl
  · refine Or.inr ⟨bs', a, List.concat_eq_append, ?_⟩
    rw [List.concat_eq_append, lastAddr_append]
    rfl

/-- Hooking the fresh block behind the list. -/
theorem appendBlock_listed (L : HeapLaws E Good) {f : Block} (hB : Backed E Good k h)
    (ht : Tiles headerSize kheapStart (bs ++ [f]) h.heapEnd) (hhead : h.heapHead = firstAddr bs 0)
    (hl : Linked (E.headers h) 0 bs 0) (hf : Linked (E.headers h) 0 [f] 0) :
    ∃ h', E.appendBlock h (lastAddr 0 bs) f.addr = some h' ∧
      Listed E Good k h' (bs ++ [f]) ∧ h'.heapEnd = h.heapEnd ∧
      ∀ b ∈ bs, ∀ x, b.addr + headerSize ≤ x → x < b.addr + headerSize + b.size →
        E.get h'.mach x = E.get h.mach x := by
  have H := hB.holds ht (le_refl _) (le_refl _)
  rcases lastAddr_cases bs with rfl | ⟨bs', a, rfl, hlast⟩
  · exact ⟨{ h with heapHead := f.addr }, rfl, ⟨⟨hB.good, hB.bound, hB.mapped⟩, ht, rfl, hf⟩, rfl,
      by simp⟩
  · have ht' : Tiles headerSize kheapStart (bs' ++ a :: [f]) h.heapEnd := by simpa using ht
    have h0 : a.addr ≠ 0 := by
      have := ht'.bounds a (by simp)
      have := kheapStart_eq
      omega
    have hlt : ∀ b ∈ bs' ++ [a] ++ [f], b.addr < 2 ^ 32 := fun b hb => by
      have := ht.bounds b hb
      have := hB.bound
      omega
    rw [hlast]
    obtain ⟨h₁, e₁, H₁, W₁⟩ := H.store L ⟨a, by simp, rfl⟩ .next (hlt f (by simp))
    obtain ⟨h₂, e₂, H₂, W₂⟩ := H₁.store L ⟨f, by simp, rfl⟩ .prev (hlt a (by simp))
    have W := W₁.trans W₂
    refine ⟨h₂, ?_, W.listed H₂ hB ht ?_ (le_refl _) ?_, W.heapEnd, fun b hb x h1 h2 => ?_⟩
    · simp only [HeapEnv.appendBlock, if_pos h0, e₁, Option.bind_eq_bind, Option.bind_some, e₂]
    · rw [hhead, firstAddr_append, firstAddr_append, firstAddr_append]
      rfl
    · have := hl.concat hf (ht'.nodup (by decide))
      simpa using this
    · exact W.payload ht hB.bound (by simp at hb ⊢; tauto) h1 h2

/-- **Growing the heap**: `expand_heap` and the linking of its block. -/
theorem grow_listed (L : HeapLaws E Good) (hL : Listed E Good k h bs) {n : Nat}
    (hal : 4096 ∣ h.heapEnd) (hroom : h.heapEnd + 4096 * k < 2 ^ 32) (hn : n ≤ 0xFFFFEFF0) :
    ∃ r h' k', E.expandHeap h n = some (r, h') ∧ k' ≤ k ∧
      (∀ x, kheapStart ≤ x → x < h.heapEnd → E.get h'.mach x = E.get h.mach x) ∧
      ((r = 0 ∧ h'.heapEnd = h.heapEnd ∧ Listed E Good k' h' bs) ∨
        (r = h.heapEnd ∧ r ≠ 0 ∧ k = k' + expandCount n ∧ ∃ h'',
          E.appendBlock h' (lastAddr 0 bs) r = some h'' ∧
          h''.heapEnd = h.heapEnd + expandCount n * 4096 ∧
          Listed E Good k' h'' (bs ++ [freshBlock h.heapEnd n]) ∧
          ∀ b ∈ bs, ∀ x, b.addr + headerSize ≤ x → x < b.addr + headerSize + b.size →
            E.get h''.mach x = E.get h.mach x)) := by
  obtain ⟨r, h', k', hrun, hk, hhead, hframe, hcase⟩ := expandHeap_spec L hL hal hroom hn
  have hlinked : Linked (E.headers h') 0 bs 0 := hL.linked.congr (fun b hb => by
    have hbd := hL.tiles.bounds b hb
    have hlt := hL.bound
    exact headers_congr (by omega) (fun x h1 h2 => hframe x (by omega) (by omega)))
  refine ⟨r, h', k', hrun, hk, hframe, ?_⟩
  rcases hcase with ⟨rfl, hend, hB⟩ | ⟨rfl, hk', hend, hB, hfresh⟩
  · exact Or.inl ⟨rfl, hend, hB, hend ▸ hL.tiles, hhead.trans hL.head, hlinked⟩
  · have hlo := hL.tiles.le
    have hpos : h.heapEnd ≠ 0 := by
      have := kheapStart_eq
      omega
    have hpages := le_expandCount n
    have ht : Tiles headerSize kheapStart (bs ++ [freshBlock h.heapEnd n]) h'.heapEnd := by
      refine (tiles_append bs _).mpr ⟨h.heapEnd, hL.tiles, rfl, ?_⟩
      simp only [Tiles, freshBlock, hend]
      omega
    obtain ⟨h'', happ, hL'', hend', hkeep⟩ := appendBlock_listed L hB ht
      (hhead.trans hL.head) hlinked hfresh
    refine Or.inr ⟨rfl, hpos, hk', h'', happ, hend'.trans hend, hL'', fun b hb x h1 h2 => ?_⟩
    have hbd := hL.tiles.bounds b hb
    rw [hkeep b hb x h1 h2, hframe x (by omega) (by omega)]

end JarvOs.Memory
