/-
# Words put together from bit fields

The tables of a processor pack several numbers into a word, and a number may be split over fields that
are not next to each other.  Code builds such a word by shifting each field to its place and or-ing
them together (`assemble`); in C a field of a number is cut out by a shift and a mask.

What makes this lossless is that the fields do not meet.  If they are pairwise APART, `extract_assemble`
reads each of them back, whatever the others hold; and bits that no field has are 0
(`extract_assemble_gap`).
-/
import Mathlib.Data.BitVec
import Mathlib.Data.List.Basic

namespace JarvOs.Lib

/-! ## 1. Cutting out -/

/-- Shift and mask. -/
theorem setWidth_shift_mask {v : Nat} (w : Nat) (x : BitVec v) (j n : Nat) :
    ((x >>> j) &&& BitVec.ofNat v (2 ^ n - 1)).setWidth w = (x.extractLsb' j n).setWidth w := by
  ext i hi
  simp only [BitVec.getElem_setWidth, BitVec.getLsbD_and, BitVec.getLsbD_ushiftRight,
    BitVec.getLsbD_ofNat, BitVec.getLsbD_extractLsb', Nat.testBit_two_pow_sub_one]
  by_cases hv : i < v
  · simp [hv, Bool.and_comm]
  · simp [hv, BitVec.getLsbD_of_ge x (j + i) (by omega)]

/-- Mask alone. -/
theorem setWidth_mask {v : Nat} (w : Nat) (x : BitVec v) (n : Nat) :
    (x &&& BitVec.ofNat v (2 ^ n - 1)).setWidth w = (x.extractLsb' 0 n).setWidth w := by
  rw [← setWidth_shift_mask, BitVec.ushiftRight_zero]

/-! ## 2. Fields -/

/-- `bits`, to stand at the positions from `pos` on of a word of `w` bits. -/
structure BitField (w : Nat) where
  pos : Nat
  width : Nat
  bits : BitVec width
  fits : pos + width ≤ w

namespace BitField

variable {w : Nat} {f g : BitField w} {fs : List (BitField w)} {k n : Nat}

/-- The word that holds this field alone. -/
def word (f : BitField w) : BitVec w := f.bits.setWidth w <<< f.pos

/-- The field has none of the `n` bits from `k` on. -/
def Off (f : BitField w) (k n : Nat) : Prop := f.pos + f.width ≤ k ∨ k + n ≤ f.pos

def Apart (f g : BitField w) : Prop := f.Off g.pos g.width

theorem Apart.symm (h : f.Apart g) : g.Apart f := Or.symm h

theorem extract_word (f : BitField w) : f.word.extractLsb' f.pos f.width = f.bits := by
  have hfits := f.fits
  ext i hi
  have hlt : f.pos + i < w := by omega
  have hge : ¬ f.pos + i < f.pos := by omega
  simp [word, hlt, hge, BitVec.getLsbD_eq_getElem hi]

theorem extract_word_off (h : f.Off k n) : f.word.extractLsb' k n = 0#n := by
  ext i hi
  rw [BitVec.getElem_extractLsb', BitVec.getElem_zero, word, BitVec.getLsbD_shiftLeft]
  rcases h with hbelow | habove
  · have hout : f.bits.getLsbD (k + i - f.pos) = false := BitVec.getLsbD_of_ge _ _ (by omega)
    simp [BitVec.getLsbD_setWidth, hout]
  · have hlt : k + i < f.pos := by omega
    simp [hlt]

/-! ## 3. Words -/

/-- `x |= ..` for each field in turn. -/
def orAll (x : BitVec w) (fs : List (BitField w)) : BitVec w := fs.foldl (fun x f => x ||| f.word) x

/-- The word of these fields. -/
def assemble (fs : List (BitField w)) : BitVec w := orAll 0 fs

/-- Fields elsewhere change nothing here. -/
theorem extract_orAll_off (h : ∀ f ∈ fs, f.Off k n) (x : BitVec w) :
    (orAll x fs).extractLsb' k n = x.extractLsb' k n := by
  induction fs generalizing x with
  | nil => rfl
  | cons f fs ih =>
    have hf := extract_word_off (h f List.mem_cons_self)
    rw [orAll, List.foldl_cons, ← orAll, ih (fun g hg => h g (List.mem_cons_of_mem f hg)),
      BitVec.extractLsb'_or, hf, BitVec.or_zero]

theorem extract_assemble_gap (h : ∀ f ∈ fs, f.Off k n) : (assemble fs).extractLsb' k n = 0#n := by
  rw [assemble, extract_orAll_off h]
  ext i hi
  simp

/-- **Each field can be read back.** -/
theorem extract_assemble (hapart : fs.Pairwise Apart) (hf : f ∈ fs) :
    (assemble fs).extractLsb' f.pos f.width = f.bits := by
  obtain ⟨before, after, rfl⟩ := List.append_of_mem hf
  obtain ⟨-, hafter, hcross⟩ := List.pairwise_append.mp hapart
  have hpre : ∀ g ∈ before, g.Off f.pos f.width := fun g hg => hcross g hg f List.mem_cons_self
  have hpost : ∀ g ∈ after, g.Off f.pos f.width := fun g hg =>
    ((List.pairwise_cons.mp hafter).1 g hg).symm
  have hsplit : assemble (before ++ f :: after) = orAll (assemble before ||| f.word) after := by
    simp [assemble, orAll]
  rw [hsplit, extract_orAll_off hpost, BitVec.extractLsb'_or, extract_assemble_gap hpre, extract_word,
    BitVec.zero_or]

end BitField

end JarvOs.Lib
