/-
# `memmove` (`libc/string.c`)

`memmove` copies upwards if the destination is in front of the source and downwards otherwise, also
where either order would do.  Each order reads a byte before it can write it, so the result does not
depend on how far the ranges overlap: `memmove_lawful`, on any machine.

On plain memory (`memmove_any_overlap`) the two ranges may be anywhere, as long as they do not wrap
around the end of the address space.  They may END there: then the pointers that the downward loop starts
from are 0, and `--d` is the last address.  `memcpy` is the upward loop alone and does the same as
`memmove` wherever that order is safe.
-/
import JarvOs.Lib.Moves

namespace JarvOs.Libc

open JarvOs.Lib

variable {σ : Type}

/-! ## 1. The code -/

/-- `while (n--) *--d = *--s;` -/
def moveDown (E : ByteEnv σ) : σ → Nat → Nat → Nat → Option σ
  | m, _, _, 0 => some m
  | m, d, s, n + 1 => do
    let x ← E.get m (sub32 s 1)
    let m ← E.put m (sub32 d 1) x
    moveDown E m (sub32 d 1) (sub32 s 1) n

/-- `memmove`: what it returns, and the memory.  Its first loop is that of `memcpy`. -/
def memmove (E : ByteEnv σ) (m : σ) (dest src n : Nat) : Option (Nat × σ) := do
  if dest < src then
    let m ← E.memcpy m dest src n
    some (dest, m)
  else
    let m ← moveDown E m (add32 dest n) (add32 src n) n
    some (dest, m)

/-! ## 2. Any machine -/

section Lawful

variable {E : ByteEnv σ} {Good : σ → Prop} {lo hi : Nat} {m₀ : σ} {d s n : Nat}

theorem sub32_add32_succ {a k : Nat} (h : a + k < 2 ^ 32) : sub32 (add32 a (k + 1)) 1 = a + k := by
  unfold sub32 add32
  omega

/-- **Copying downwards** is safe if the source does not start inside the destination. -/
theorem moveDown_moved (L : E.Lawful Good lo hi) (hR : E.Ranges lo hi m₀ d s n) (horder : s ≤ d) :
    ∀ (k : Nat) {m : σ}, k ≤ n → Good m → E.Moved lo hi m₀ m d s k n →
      ∃ t, moveDown E m (add32 d k) (add32 s k) k = some t ∧ Good t ∧ E.Moved lo hi m₀ t d s 0 n := by
  have hdhi := hR.dest_hi
  have hshi := hR.src_hi
  have hspace := hR.space
  intro k
  induction k with
  | zero => exact fun {m} _ hg h => ⟨m, rfl, hg, h⟩
  | succ k ih =>
    intro m hk hg h
    obtain ⟨x, m₁, hx, hput, hg₁, h₁⟩ := L.move_byte hR hg h hk (le_refl n) (i := k) (by omega)
      (Or.inr ⟨rfl, rfl, rfl⟩) (by omega)
    obtain ⟨t, ht, hgt, hmoved⟩ := ih (by omega) hg₁ h₁
    refine ⟨t, ?_, hgt, hmoved⟩
    rw [add32_of_lt (by omega), add32_of_lt (by omega)] at ht
    have hdk : sub32 (add32 d (k + 1)) 1 = d + k := sub32_add32_succ (by omega)
    have hsk : sub32 (add32 s (k + 1)) 1 = s + k := sub32_add32_succ (by omega)
    simp only [moveDown, hdk, hsk, hx, hput, Option.bind_eq_bind, Option.bind_some]
    exact ht

/-- The upward loop from the start. -/
theorem memcpy_of_order (L : E.Lawful Good lo hi) (hR : E.Ranges lo hi m₀ d s n) (hg : Good m₀)
    (hd : d < 2 ^ 32) (hs : s < 2 ^ 32) (horder : d ≤ s ∨ s + n ≤ d) :
    ∃ t, E.memcpy m₀ d s n = some t ∧ Good t ∧ E.Moved lo hi m₀ t d s 0 n := by
  have hrun := L.memcpy_moved hR horder n 0 (Nat.zero_add n) hg (ByteEnv.Moved.refl m₀ d s 0)
  rwa [add32_of_lt (by omega), add32_of_lt (by omega), Nat.add_zero, Nat.add_zero] at hrun

/-- **`memmove` on any machine**: the destination holds what the source held before the call, and
nothing else has changed. -/
theorem memmove_lawful (L : E.Lawful Good lo hi) (hR : E.Ranges lo hi m₀ d s n) (hg : Good m₀)
    (hd : d < 2 ^ 32) (hs : s < 2 ^ 32) :
    ∃ t, memmove E m₀ d s n = some (d, t) ∧ Good t ∧ E.Moved lo hi m₀ t d s 0 n := by
  rcases Nat.lt_or_ge d s with hlt | hge
  · obtain ⟨t, ht, hgt, hmoved⟩ := memcpy_of_order L hR hg hd hs (Or.inl hlt.le)
    exact ⟨t, by simp [memmove, hlt, ht], hgt, hmoved⟩
  · obtain ⟨t, ht, hgt, hmoved⟩ :=
      moveDown_moved L hR hge n (le_refl n) hg (ByteEnv.Moved.refl m₀ d s n)
    exact ⟨t, by simp [memmove, hge, ht], hgt, hmoved⟩

end Lawful

/-! ## 3. Plain memory -/

section Ram

variable {mem mem' : BitVec 32 → UInt8} {d s : BitVec 32} {n : Nat}

theorem ram_ranges (mem : BitVec 32 → UInt8) (hd : d.toNat + n ≤ 2 ^ 32) (hs : s.toNat + n ≤ 2 ^ 32) :
    ram.Ranges 0 (2 ^ 32) mem d.toNat s.toNat n :=
  ⟨Nat.zero_le _, hd, Nat.zero_le _, hs, fun _ _ => rfl, fun _ _ => rfl, le_refl _⟩

theorem ofNat_toNat_add (a : BitVec 32) (i : Nat) :
    BitVec.ofNat 32 (a.toNat + i) = a + BitVec.ofNat 32 i := by
  rw [BitVec.ofNat_add, BitVec.ofNat_toNat, BitVec.setWidth_eq]

/-- What `Moved` says about plain memory. -/
theorem ram_moved_iff : ram.Moved 0 (2 ^ 32) mem mem' d.toNat s.toNat 0 n ↔
    (∀ i < n, mem' (d + BitVec.ofNat 32 i) = mem (s + BitVec.ofNat 32 i)) ∧
      ∀ x : BitVec 32, (x.toNat < d.toNat ∨ d.toNat + n ≤ x.toNat) → mem' x = mem x := by
  constructor
  · rintro ⟨hcopied, hframe⟩
    refine ⟨fun i hi => ?_, fun x hx => ?_⟩
    · have h := hcopied i (Nat.zero_le i) hi
      simp only [ram, Option.some.injEq, ofNat_toNat_add] at h
      exact h
    · have h := hframe x.toNat (Nat.zero_le _) x.isLt hx
      simpa only [ram, Option.some.injEq, BitVec.ofNat_toNat, BitVec.setWidth_eq] using h
  · rintro ⟨hcopied, hframe⟩
    refine ⟨fun i _ hi => ?_, fun x _ hlt hx => ?_⟩
    · simp only [ram, ofNat_toNat_add, hcopied i hi]
    · simp only [ram, hframe (BitVec.ofNat 32 x) (by
        rwa [BitVec.toNat_ofNat, Nat.mod_eq_of_lt hlt])]

/-- The bytes that were copied and the bytes that were not are all of memory. -/
theorem ram_moved_unique {mem'' : BitVec 32 → UInt8} (hd : d.toNat + n ≤ 2 ^ 32)
    (h' : ram.Moved 0 (2 ^ 32) mem mem' d.toNat s.toNat 0 n)
    (h'' : ram.Moved 0 (2 ^ 32) mem mem'' d.toNat s.toNat 0 n) : mem' = mem'' := by
  obtain ⟨hcopied', hframe'⟩ := ram_moved_iff.mp h'
  obtain ⟨hcopied'', hframe''⟩ := ram_moved_iff.mp h''
  funext x
  by_cases hx : x.toNat < d.toNat ∨ d.toNat + n ≤ x.toNat
  · rw [hframe' x hx, hframe'' x hx]
  · have heq : x = d + BitVec.ofNat 32 (x.toNat - d.toNat) := by bv_omega
    rw [heq, hcopied' _ (by omega), hcopied'' _ (by omega)]

/-- **`memmove` is right under every overlap.**  For every memory, destination, source and length whose
ranges do not wrap: each byte of the destination holds what the byte of the source held before the call,
and every other byte is unchanged; and `memcpy` does the same if the ranges do not overlap or the
destination does not come after the source. -/
theorem memmove_any_overlap (mem : BitVec 32 → UInt8) (d s : BitVec 32) (n : Nat)
    (hd : d.toNat + n ≤ 2 ^ 32) (hs : s.toNat + n ≤ 2 ^ 32) :
    ∃ mem', memmove ram mem d.toNat s.toNat n = some (d.toNat, mem') ∧
      (∀ i < n, mem' (d + BitVec.ofNat 32 i) = mem (s + BitVec.ofNat 32 i)) ∧
      (∀ x : BitVec 32, (x.toNat < d.toNat ∨ d.toNat + n ≤ x.toNat) → mem' x = mem x) ∧
      ((d.toNat + n ≤ s.toNat ∨ s.toNat + n ≤ d.toNat ∨ d.toNat ≤ s.toNat) →
        ram.memcpy mem d.toNat s.toNat n = some mem') := by
  have hR := ram_ranges mem hd hs
  obtain ⟨mem', hcall, -, hmoved⟩ := memmove_lawful ram_lawful hR trivial d.isLt s.isLt
  obtain ⟨hcopied, hframe⟩ := ram_moved_iff.mp hmoved
  refine ⟨mem', hcall, hcopied, hframe, fun horder => ?_⟩
  obtain ⟨mem'', hcpy, -, hmoved'⟩ :=
    memcpy_of_order ram_lawful hR trivial d.isLt s.isLt (by omega)
  rw [hcpy, ram_moved_unique hd hmoved hmoved']

/-- Two bytes up by one, at the very end of the address space. -/
theorem memmove_any_overlap_end : ∃ mem' : BitVec 32 → UInt8,
    memmove ram (fun x => UInt8.ofNat x.toNat) 0xFFFFFFFE 0xFFFFFFFD 2 = some (0xFFFFFFFE, mem') ∧
      mem' 0xFFFFFFFE#32 = 0xFD ∧ mem' 0xFFFFFFFF#32 = 0xFE := by
  obtain ⟨mem', hcall, hcopied, -⟩ := memmove_any_overlap (fun x => UInt8.ofNat x.toNat)
    0xFFFFFFFE#32 0xFFFFFFFD#32 2 (by decide) (by decide)
  exact ⟨mem', hcall, hcopied 0 (by decide), hcopied 1 (by decide)⟩

/-- Where the destination starts inside the source, `memcpy` copies its first byte over and over. -/
example : (ram.memcpy (fun x => UInt8.ofNat x.toNat) 0x11 0x10 2).map (fun mem => mem 0x12#32) =
    some 0x10 := by decide

end Ram

end JarvOs.Libc
