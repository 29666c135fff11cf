/-
# Words as eight hexadecimal digits

`hexWord` is the text of a 32-bit word, the most significant digit first; `ofHex` reads such a text.
`ofHex_hexWord` is the round trip: nothing about the word is lost, and so two words have the same text only
if they are the same.
-/
import Mathlib

namespace JarvOs.Lib

/-- The characters `0` to `9` and `A` to `F`. -/
def hexDigit (d : Nat) : UInt8 := if d < 10 then UInt8.ofNat (0x30 + d) else UInt8.ofNat (0x37 + d)

/-- The digit at bit `4 * i`. -/
def nibble (w : BitVec 32) (i : Nat) : Nat := ((w >>> (4 * i)) &&& 0xF#32).toNat

/-- The eight digits of a word. -/
def hexWord (w : BitVec 32) : List UInt8 := [7, 6, 5, 4, 3, 2, 1, 0].map (fun i => hexDigit (nibble w i))

/-- What a digit stands for. -/
def ofHexDigit (c : UInt8) : Option Nat :=
  if 0x30 ≤ c.toNat ∧ c.toNat ≤ 0x39 then some (c.toNat - 0x30)
  else if 0x41 ≤ c.toNat ∧ c.toNat ≤ 0x46 then some (c.toNat - 0x37)
  else none

/-- What a text stands for, behind digits that stand for `n`. -/
def ofHexFrom : Nat → List UInt8 → Option Nat
  | n, [] => some n
  | n, c :: cs => (ofHexDigit c).bind (fun d => ofHexFrom (16 * n + d) cs)

/-- What a text stands for. -/
def ofHex (cs : List UInt8) : Option Nat := ofHexFrom 0 cs

theorem ofHexDigit_hexDigit : ∀ d : Fin 16, ofHexDigit (hexDigit d) = some d.val := by decide

theorem nibble_eq (w : BitVec 32) (i : Nat) : nibble w i = w.toNat / 2 ^ (4 * i) % 16 := by
  rw [nibble, BitVec.toNat_and, BitVec.toNat_ushiftRight, Nat.shiftRight_eq_div_pow]
  exact Nat.and_two_pow_sub_one_eq_mod _ 4

theorem nibble_lt (w : BitVec 32) (i : Nat) : nibble w i < 16 := by
  rw [nibble_eq]
  exact Nat.mod_lt _ (by norm_num)

theorem length_hexWord (w : BitVec 32) : (hexWord w).length = 8 := rfl

/-- No digit is a control character. -/
theorem hexDigit_printable : ∀ d : Fin 16, 0x20 ≤ (hexDigit d).toNat ∧ (hexDigit d).toNat ≤ 0x7E := by
  decide

theorem hexWord_printable {w : BitVec 32} {c : UInt8} (h : c ∈ hexWord w) :
    0x20 ≤ c.toNat ∧ c.toNat ≤ 0x7E := by
  obtain ⟨i, -, rfl⟩ := List.mem_map.mp h
  exact hexDigit_printable ⟨nibble w i, nibble_lt w i⟩

/-- **Reading back.** -/
theorem ofHex_hexWord (w : BitVec 32) : ofHex (hexWord w) = some w.toNat := by
  have hdigit : ∀ i, ofHexDigit (hexDigit (nibble w i)) = some (nibble w i) :=
    fun i => ofHexDigit_hexDigit ⟨nibble w i, nibble_lt w i⟩
  have hw := w.isLt
  simp only [ofHex, hexWord, List.map_cons, List.map_nil, ofHexFrom, hdigit, Option.bind_some,
    Option.some.injEq]
  simp only [nibble_eq]
  omega

end JarvOs.Lib
