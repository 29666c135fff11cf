/-
# Byte-addressed machines

What C code sees of the machine under it: single bytes that can be read and written, 32-bit words
stored least significant byte first, and accesses that may FAULT (`none`).  A `ByteEnv` is exactly
that, over an arbitrary state type, so that code which only reads and writes memory can be written
once and run on a flat array of bytes as well as behind a page-table walk.

What a proof about such code needs is `Lawful E Good lo hi`: as long as the state is `Good`, a
write to a readable address of the window `[lo, hi)` succeeds, keeps the state good, and changes
that address's byte and no other byte of the window.  How the machine keeps its bytes is not
visible past these two laws.

Which addresses a copy READS does not depend on the machine.  `memcpyReads` lists them.  The simplest
machine is `ram`: a byte for every 32-bit address, no faults.
-/
import JarvOs.Lib.Word

namespace JarvOs.Lib

/-! ## 1. Words as bytes -/

/-- Byte `k` of a word, 0 the least significant. -/
def byteOf (v k : Nat) : UInt8 := UInt8.ofNat (v / 256 ^ k)

/-- The word four bytes make. -/
def word (b₀ b₁ b₂ b₃ : UInt8) : Nat :=
  b₀.toNat + 256 * b₁.toNat + 65536 * b₂.toNat + 16777216 * b₃.toNat

theorem word_lt (b₀ b₁ b₂ b₃ : UInt8) : word b₀ b₁ b₂ b₃ < 2 ^ 32 := by
  have h0 := b₀.toNat_lt
  have h1 := b₁.toNat_lt
  have h2 := b₂.toNat_lt
  have h3 := b₃.toNat_lt
  unfold word
  omega

theorem toNat_byteOf (v k : Nat) : (byteOf v k).toNat = v / 256 ^ k % 256 := by
  simp [byteOf]

/-- Taking a word apart and putting it together again. -/
theorem word_byteOf (v : Nat) :
    word (byteOf v 0) (byteOf v 1) (byteOf v 2) (byteOf v 3) = v % 2 ^ 32 := by
  simp only [word, toNat_byteOf]
  omega

/-! ## 2. The interface -/

/-- Byte reads, byte writes and 32-bit writes; `none` is a fault. -/
structure ByteEnv (σ : Type) where
  get : σ → Nat → Option UInt8
  put : σ → Nat → UInt8 → Option σ
  put32 : σ → Nat → Nat → Option σ

variable {σ : Type}

namespace ByteEnv

/-- A 32-bit read. -/
def get32 (E : ByteEnv σ) (s : σ) (a : Nat) : Option Nat := do
  let b₀ ← E.get s a
  let b₁ ← E.get s (add32 a 1)
  let b₂ ← E.get s (add32 a 2)
  let b₃ ← E.get s (add32 a 3)
  some (word b₀ b₁ b₂ b₃)

/-- `memcpy`: `n` bytes, one at a time, upwards. -/
def memcpy (E : ByteEnv σ) : σ → Nat → Nat → Nat → Option σ
  | s, _, _, 0 => some s
  | s, dest, src, n + 1 => do
    let b ← E.get s src
    let s ← E.put s dest b
    E.memcpy s (add32 dest 1) (add32 src 1) n

/-- `memset`: `n` bytes, upwards. -/
def memset (E : ByteEnv σ) : σ → Nat → UInt8 → Nat → Option σ
  | s, _, _, 0 => some s
  | s, dest, x, n + 1 => (E.put s dest x).bind (fun s => E.memset s (add32 dest 1) x n)

/-- The laws of the window `[lo, hi)` for the states `Good` describes. -/
structure Lawful (E : ByteEnv σ) (Good : σ → Prop) (lo hi : Nat) : Prop where
  put_ok : ∀ {s : σ} {a : Nat} (x : UInt8), Good s → lo ≤ a → a < hi → (E.get s a).isSome →
    ∃ t, E.put s a x = some t ∧ Good t ∧
      ∀ b, lo ≤ b → b < hi → E.get t b = if b = a then some x else E.get s b
  put32_ok : ∀ {s : σ} {a : Nat} (v : Nat), Good s → lo ≤ a → a + 4 ≤ hi →
    (∀ k < 4, (E.get s (a + k)).isSome) →
    ∃ t, E.put32 s a v = some t ∧ Good t ∧
      ∀ b, lo ≤ b → b < hi →
        E.get t b = if a ≤ b ∧ b < a + 4 then some (byteOf v (b - a)) else E.get s b

/-- The laws hold of fewer states if writes to the window do not leave them. -/
theorem Lawful.and {E : ByteEnv σ} {Good P : σ → Prop} {lo hi : Nat} (L : Lawful E Good lo hi)
    (hput : ∀ {s t : σ} {a : Nat} {x : UInt8}, Good s → P s → lo ≤ a → a < hi →
      E.put s a x = some t → P t)
    (hput32 : ∀ {s t : σ} {a v : Nat}, Good s → P s → lo ≤ a → a + 4 ≤ hi →
      E.put32 s a v = some t → P t) : Lawful E (fun s => Good s ∧ P s) lo hi where
  put_ok x hg hlo hhi hmap := by
    obtain ⟨t, ht, hgt, hget⟩ := L.put_ok x hg.1 hlo hhi hmap
    exact ⟨t, ht, ⟨hgt, hput hg.1 hg.2 hlo hhi ht⟩, hget⟩
  put32_ok v hg hlo hhi hmap := by
    obtain ⟨t, ht, hgt, hget⟩ := L.put32_ok v hg.1 hlo hhi hmap
    exact ⟨t, ht, ⟨hgt, hput32 hg.1 hg.2 hlo hhi ht⟩, hget⟩

/-- Two states agree on the window outside `[a, c)`. -/
def SameOff (E : ByteEnv σ) (lo hi : Nat) (s t : σ) (a c : Nat) : Prop :=
  ∀ b, lo ≤ b → b < hi → b < a ∨ c ≤ b → E.get t b = E.get s b

variable {E : ByteEnv σ} {Good : σ → Prop} {lo hi : Nat} {s t u : σ} {a c : Nat}

theorem SameOff.refl (s : σ) (a c : Nat) : E.SameOff lo hi s s a c := fun _ _ _ _ => rfl

/-! ## 3. Words in the window -/

/-- A 32-bit read that does not wrap. -/
theorem get32_of_le (E : ByteEnv σ) (s : σ) (ha : a + 4 ≤ 2 ^ 32) :
    E.get32 s a = (E.get s a).bind (fun b₀ => (E.get s (a + 1)).bind (fun b₁ =>
      (E.get s (a + 2)).bind (fun b₂ => (E.get s (a + 3)).bind (fun b₃ =>
        some (word b₀ b₁ b₂ b₃))))) := by
  have h1 : add32 a 1 = a + 1 := add32_of_lt (by omega)
  have h2 : add32 a 2 = a + 2 := add32_of_lt (by omega)
  have h3 : add32 a 3 = a + 3 := add32_of_lt (by omega)
  simp only [get32, h1, h2, h3, Option.bind_eq_bind]

/-- A 32-bit read of four readable bytes. -/
theorem get32_eq_some (ha : a + 4 ≤ 2 ^ 32) {b₀ b₁ b₂ b₃ : UInt8} (h0 : E.get s a = some b₀)
    (h1 : E.get s (a + 1) = some b₁) (h2 : E.get s (a + 2) = some b₂)
    (h3 : E.get s (a + 3) = some b₃) : E.get32 s a = some (word b₀ b₁ b₂ b₃) := by
  simp only [get32_of_le E s ha, h0, h1, h2, h3, Option.bind_some]

/-- A 32-bit read looks at four bytes. -/
theorem get32_congr (ha : a + 4 ≤ 2 ^ 32) (h : ∀ k < 4, E.get t (a + k) = E.get s (a + k)) :
    E.get32 t a = E.get32 s a := by
  have h0 := h 0 (by norm_num)
  have h1 := h 1 (by norm_num)
  have h2 := h 2 (by norm_num)
  have h3 := h 3 (by norm_num)
  rw [Nat.add_zero] at h0
  rw [get32_of_le E t ha, get32_of_le E s ha, h0, h1, h2, h3]

/-- The bytes of a word that can be read can be read. -/
theorem isSome_of_get32 (ha : a + 4 ≤ 2 ^ 32) {v : Nat} (h : E.get32 s a = some v) :
    ∀ k < 4, (E.get s (a + k)).isSome := by
  simp only [get32_of_le E s ha, Option.bind_eq_some_iff] at h
  obtain ⟨b₀, h0, b₁, h1, b₂, h2, b₃, h3, -⟩ := h
  intro k hk
  interval_cases k
  · simp [h0]
  · simp [h1]
  · simp [h2]
  · simp [h3]

/-- Four readable bytes make a readable word. -/
theorem exists_get32 (ha : a + 4 ≤ 2 ^ 32) (h : ∀ k < 4, (E.get s (a + k)).isSome) :
    ∃ v, E.get32 s a = some v ∧ v < 2 ^ 32 := by
  obtain ⟨b₀, h0⟩ := Option.isSome_iff_exists.mp (h 0 (by norm_num))
  obtain ⟨b₁, h1⟩ := Option.isSome_iff_exists.mp (h 1 (by norm_num))
  obtain ⟨b₂, h2⟩ := Option.isSome_iff_exists.mp (h 2 (by norm_num))
  obtain ⟨b₃, h3⟩ := Option.isSome_iff_exists.mp (h 3 (by norm_num))
  exact ⟨_, get32_eq_some ha h0 h1 h2 h3, word_lt _ _ _ _⟩

/-- **Storing a word**: it is read back, and nothing outside its four bytes changes. -/
theorem Lawful.put32_spec (L : Lawful E Good lo hi) (hhi : hi ≤ 2 ^ 32) (hg : Good s) (hlo : lo ≤ a)
    (ha : a + 4 ≤ hi) (hmap : ∀ k < 4, (E.get s (a + k)).isSome) {v : Nat} (hv : v < 2 ^ 32) :
    ∃ t, E.put32 s a v = some t ∧ Good t ∧ E.get32 t a = some v ∧
      E.SameOff lo hi s t a (a + 4) := by
  obtain ⟨t, hput, hgt, hget⟩ := L.put32_ok v hg hlo ha hmap
  have hbyte : ∀ k < 4, E.get t (a + k) = some (byteOf v k) := fun k hk => by
    rw [hget (a + k) (by omega) (by omega), if_pos (by omega), Nat.add_sub_cancel_left]
  refine ⟨t, hput, hgt, ?_, fun b hl hh hb => ?_⟩
  · have h := get32_eq_some (E := E) (by omega) (hbyte 0 (by norm_num)) (hbyte 1 (by norm_num))
      (hbyte 2 (by norm_num)) (hbyte 3 (by norm_num))
    rwa [word_byteOf, Nat.mod_eq_of_lt hv] at h
  · rw [hget b hl hh, if_neg (by omega)]

/-! ## 4. Copying -/

/-- The first byte of a copy. -/
theorem Lawful.memcpy_step (L : Lawful E Good lo hi) (hg : Good s) {d r n : Nat} (hd : lo ≤ d)
    (hdn : d + n < hi) (hmd : (E.get s d).isSome) (h : E.memcpy s d r (n + 1) = some t) :
    ∃ b s₁, E.get s r = some b ∧ Good s₁ ∧ E.get s₁ d = some b ∧
      (∀ c, lo ≤ c → c < hi → c ≠ d → E.get s₁ c = E.get s c) ∧
      E.memcpy s₁ (add32 d 1) (add32 r 1) n = some t := by
  simp only [memcpy, Option.bind_eq_bind, Option.bind_eq_some_iff] at h
  obtain ⟨b, hb, s₁, hput, hrest⟩ := h
  obtain ⟨s₁', hput', hg₁, hget⟩ := L.put_ok b hg hd (by omega) hmd
  obtain rfl := Option.some.inj (hput'.symm.trans hput)
  refine ⟨b, s₁', hb, hg₁, ?_, fun c hl hh hc => ?_, hrest⟩
  · rw [hget d hd (by omega), if_pos rfl]
  · rw [hget c hl hh, if_neg hc]

/-- **A `memcpy` that returns**, wherever it copies from: nothing outside of the destination has changed,
and a byte whose source is not in the destination has been copied. -/
theorem Lawful.memcpy_returns (L : Lawful E Good lo hi) (hhi : hi ≤ 2 ^ 32) :
    ∀ (n : Nat) {s t : σ} {d r : Nat}, Good s → lo ≤ d → d + n < hi →
      (∀ k < n, (E.get s (d + k)).isSome) → E.memcpy s d r n = some t →
      Good t ∧ E.SameOff lo hi s t d (d + n) ∧ (∀ k < n, (E.get t (d + k)).isSome) ∧
        ∀ k < n, lo ≤ r + k → r + k < hi → (r + k < d ∨ d + n ≤ r + k) →
          E.get t (d + k) = E.get s (r + k) := by
  intro n
  induction n with
  | zero =>
    intro s t d r hg _ _ _ h
    obtain rfl := Option.some.inj h
    exact ⟨hg, SameOff.refl s _ _, fun k hk => absurd hk (Nat.not_lt_zero k),
      fun k hk => absurd hk (Nat.not_lt_zero k)⟩
  | succ n ih =>
    intro s t d r hg hd hdn hmd h
    obtain ⟨b, s₁, hb, hg₁, hnew, hsame, hrest⟩ := L.memcpy_step hg hd (by omega) (hmd 0 (by omega)) h
    rw [add32_of_lt (show d + 1 < 2 ^ 32 by omega)] at hrest
    -- the rest of the copy starts one byte further, in the state after the first byte
    obtain ⟨hgt, hoff, hmapped, hcopied⟩ := ih hg₁ (d := d + 1) (by omega) (by omega)
      (fun k hk => by
        rw [hsame _ (by omega) (by omega) (by omega), Nat.add_assoc, Nat.add_comm 1 k]
        exact hmd (k + 1) (by omega)) hrest
    have hfirst : E.get t d = some b := by
      rw [hoff d hd (by omega) (by omega), hnew]
    refine ⟨hgt, fun c hl hh hc => ?_, fun k hk => ?_, fun k hk hl hh hout => ?_⟩
    · rw [hoff c hl hh (by omega), hsame c hl hh (by omega)]
    · rcases Nat.eq_zero_or_pos k with rfl | hpos
      · rw [Nat.add_zero, hfirst]
        rfl
      · rw [show d + k = d + 1 + (k - 1) by omega]
        exact hmapped (k - 1) (by omega)
    · rcases Nat.eq_zero_or_pos k with rfl | hpos
      · rw [Nat.add_zero, Nat.add_zero, hfirst, hb]
      · rw [add32_of_lt (show r + 1 < 2 ^ 32 by omega)] at hcopied
        have hk := hcopied (k - 1) (by omega) (by omega) (by omega) (by omega)
        rw [show d + 1 + (k - 1) = d + k by omega, show r + 1 + (k - 1) = r + k by omega] at hk
        rw [hk, hsame _ hl hh (by omega)]

/-- A `memcpy` of readable bytes to readable bytes returns. -/
theorem Lawful.memcpy_isSome (L : Lawful E Good lo hi) (hhi : hi ≤ 2 ^ 32) :
    ∀ (n : Nat) {s : σ} {d r : Nat}, Good s → lo ≤ d → d + n < hi → lo ≤ r → r + n < hi →
      (∀ k < n, (E.get s (d + k)).isSome) → (∀ k < n, (E.get s (r + k)).isSome) →
      ∃ t, E.memcpy s d r n = some t := by
  intro n
  induction n with
  | zero =>
    intro s d r _ _ _ _ _ _ _
    exact ⟨s, rfl⟩
  | succ n ih =>
    intro s d r hg hd hdn hr hrn hmd hmr
    obtain ⟨b, hb⟩ := Option.isSome_iff_exists.mp (hmr 0 (by omega))
    rw [Nat.add_zero] at hb
    obtain ⟨s₁, hput, hg₁, hget⟩ := L.put_ok b hg hd (by omega) (hmd 0 (by omega))
    have hmapped : ∀ c, lo ≤ c → c < hi → (E.get s c).isSome → (E.get s₁ c).isSome := by
      intro c hl hh hc
      rw [hget c hl hh]
      split
      · rfl
      · exact hc
    obtain ⟨t, ht⟩ := ih hg₁ (d := d + 1) (r := r + 1) (by omega) (by omega) (by omega) (by omega)
      (fun k hk => hmapped _ (by omega) (by omega) (by
        rw [Nat.add_assoc, Nat.add_comm 1 k]
        exact hmd (k + 1) (by omega)))
      (fun k hk => hmapped _ (by omega) (by omega) (by
        rw [Nat.add_assoc, Nat.add_comm 1 k]
        exact hmr (k + 1) (by omega)))
    exact ⟨t, by simp [memcpy, hb, hput, add32_of_lt (show d + 1 < 2 ^ 32 by omega),
      add32_of_lt (show r + 1 < 2 ^ 32 by omega), ht]⟩

/-- **`memset`** of readable bytes: they all become the byte, nothing else changes. -/
theorem Lawful.memset_spec (L : Lawful E Good lo hi) (hhi : hi ≤ 2 ^ 32) (x : UInt8) :
    ∀ (n : Nat) {s : σ} {d : Nat}, Good s → lo ≤ d → d + n < hi →
      (∀ k < n, (E.get s (d + k)).isSome) →
      ∃ t, E.memset s d x n = some t ∧ Good t ∧ (∀ k < n, E.get t (d + k) = some x) ∧
        E.SameOff lo hi s t d (d + n) := by
  intro n
  induction n with
  | zero =>
    intro s d hg _ _ _
    exact ⟨s, rfl, hg, fun k hk => absurd hk (by omega), SameOff.refl s _ _⟩
  | succ n ih =>
    intro s d hg hd hdn hmap
    obtain ⟨s₁, hput, hg₁, hget⟩ := L.put_ok x hg hd (by omega) (hmap 0 (by omega))
    obtain ⟨t, hset, hgt, hfilled, hoff⟩ := ih hg₁ (d := d + 1) (by omega) (by omega)
      (fun k hk => by
        rw [hget (d + 1 + k) (by omega) (by omega), if_neg (by omega),
          show d + 1 + k = d + (k + 1) by omega]
        exact hmap (k + 1) (by omega))
    refine ⟨t, ?_, hgt, fun k hk => ?_, fun c hl hh hc => ?_⟩
    · simp [memset, hput, add32_of_lt (show d + 1 < 2 ^ 32 by omega), hset]
    · rcases Nat.eq_zero_or_pos k with rfl | hpos
      · rw [hoff (d + 0) (by omega) (by omega) (by omega), hget (d + 0) (by omega) (by omega),
          if_pos (Nat.add_zero d)]
      · rw [show d + k = d + 1 + (k - 1) by omega]
        exact hfilled (k - 1) (by omega)
    · rw [hoff c hl hh (by omega), hget c hl hh, if_neg (by omega)]

end ByteEnv

/-! ## 5. What a copy reads -/

/-- The addresses `memcpy (_, src, n)` reads, in order. -/
def memcpyReads : Nat → Nat → List Nat
  | _, 0 => []
  | src, n + 1 => src :: memcpyReads (add32 src 1) n

theorem add_mem_memcpyReads {src n j : Nat} (hj : j < n) (hlt : src + j < 2 ^ 32) :
    src + j ∈ memcpyReads src n := by
  induction n generalizing src j with
  | zero => exact absurd hj (Nat.not_lt_zero j)
  | succ n ih =>
    rw [memcpyReads, List.mem_cons]
    rcases Nat.eq_zero_or_pos j with rfl | hpos
    · exact Or.inl rfl
    · refine Or.inr ?_
      rw [add32_of_lt (by omega), show src + j = src + 1 + (j - 1) by omega]
      exact ih (by omega) (by omega)

theorem bounds_of_mem_memcpyReads {src n x : Nat} (hn : src + n < 2 ^ 32)
    (hx : x ∈ memcpyReads src n) : src ≤ x ∧ x < src + n := by
  induction n generalizing src with
  | zero => exact absurd hx List.not_mem_nil
  | succ n ih =>
    rw [memcpyReads, List.mem_cons, add32_of_lt (by omega)] at hx
    rcases hx with rfl | hx
    · omega
    · have := ih (by omega) hx
      omega

/-! ## 6. Plain memory -/

/-- Memory and nothing else. -/
def ram : ByteEnv (BitVec 32 → UInt8) where
  get m a := some (m (BitVec.ofNat 32 a))
  put m a x := some (Function.update m (BitVec.ofNat 32 a) x)
  put32 m a v := some (fun b =>
    if a ≤ b.toNat ∧ b.toNat < a + 4 then byteOf v (b.toNat - a) else m b)

theorem ram_lawful : ram.Lawful (fun _ => True) 0 (2 ^ 32) where
  put_ok {m a} x _ _ ha _ := by
    refine ⟨_, rfl, trivial, fun b _ hb => ?_⟩
    simp only [ram]
    by_cases hba : b = a
    · rw [hba, if_pos rfl, Function.update_self]
    · have hne : BitVec.ofNat 32 b ≠ BitVec.ofNat 32 a := by bv_omega
      rw [if_neg hba, Function.update_of_ne hne]
  put32_ok {m a} v _ _ ha _ := by
    refine ⟨_, rfl, trivial, fun b _ hb => ?_⟩
    simp only [ram, BitVec.toNat_ofNat, Nat.mod_eq_of_lt hb]
    split_ifs
    · rfl
    · rfl

/-- Memory with `x` at the `n` addresses from `p` on; behind the last address comes 0. -/
def fill (m : BitVec 32 → UInt8) (p : BitVec 32) (x : UInt8) (n : Nat) : BitVec 32 → UInt8 :=
  fun a => if (a - p).toNat < n then x else m a

theorem fill_succ (m : BitVec 32 → UInt8) (p : BitVec 32) (x : UInt8) {n : Nat} (hn : n < 2 ^ 32) :
    fill (Function.update m p x) (p + 1) x n = fill m p x (n + 1) := by
  funext a
  unfold fill
  rcases eq_or_ne a p with rfl | hne
  · have hfirst : (a - a).toNat < n + 1 := by simp
    rw [if_pos hfirst, Function.update_self, ite_self]
  · have hiff : (a - (p + 1)).toNat < n ↔ (a - p).toNat < n + 1 := by bv_omega
    rw [Function.update_of_ne hne]
    simp only [hiff]

/-- `memset` may go around the end of the address space. -/
theorem ram_memset (x : UInt8) : ∀ (n : Nat) (m : BitVec 32 → UInt8) (p : BitVec 32), n ≤ 2 ^ 32 →
    ram.memset m p.toNat x n = some (fill m p x n)
  | 0, m, p, _ => by
    have hfill : fill m p x 0 = m := by
      funext a
      simp [fill]
    rw [hfill]
    rfl
  | n + 1, m, p, hn => by
    have hput : ram.put m p.toNat x = some (Function.update m p x) := by simp [ram]
    have hnext : add32 p.toNat 1 = (p + 1).toNat := by simp [add32]
    rw [ByteEnv.memset, hput, Option.bind_some, hnext, ram_memset x n _ (p + 1) (by omega),
      fill_succ m p x (by omega)]

end JarvOs.Lib
