/-
# `strstr` (`libc/string.c`)

At each byte of the haystack `strstr` measures the needle with `strlen` and compares that many bytes with
`strncmp`.  Near the end the haystack is shorter than the needle: then `strncmp` meets the terminator of
the haystack in the middle of the comparison, and that byte differs from every byte of the needle.

A pointer is the memory from it on, and running out of memory is a fault (`none`).  So that a call with
NOTHING behind the two terminators returns says that no byte behind them is read; `strstr_leftmost` says
it, and that whatever else stands there makes no difference.
-/
import JarvOs.Fs.Path

namespace JarvOs.Libc

open JarvOs.Fs (CString)

/-! ## 1. The code -/

/-- `strlen`: how far `p` goes. -/
def strlen : List UInt8 → Option Nat
  | [] => none
  | b :: mem => if b ≠ 0 then (strlen mem).map (· + 1) else some 0

/-- `strncmp` -/
def strncmp : List UInt8 → List UInt8 → Nat → Option Int
  | _, _, 0 => some 0
  | a :: s1, b :: s2, n + 1 =>
    if a ≠ 0 ∧ a = b then strncmp s1 s2 n else some (a.toNat - b.toNat)
  | _, _, _ => none

/-- The loop of `strstr`: how far from `haystack` the match is; `none` is NULL. -/
def strstrLoop (needle : List UInt8) : List UInt8 → Option (Option Nat)
  | [] => none
  | b :: haystack =>
    if b ≠ 0 then do
      let length ← strlen needle
      let c ← strncmp (b :: haystack) needle length
      if c = 0 then some (some 0) else (strstrLoop needle haystack).map (Option.map (· + 1))
    else some none

/-- `strstr` -/
def strstr (haystack needle : List UInt8) : Option (Option Nat) := do
  let first ← needle.head?
  if first = 0 then some (some 0) else strstrLoop needle haystack

/-! ## 2. The least index

`r` is the least index at which `P` holds, if there is one: how a search from left to right finds it. -/

/-- `r` is what a search for `P` through the indices 0, 1, … finds. -/
def Finds (P : Nat → Prop) (r : Option Nat) : Prop := ∀ i, r = some i ↔ IsLeast {j | P j} i

section Finds

variable {P : Nat → Prop} {r : Option Nat}

theorem Finds.here (h : P 0) : Finds P (some 0) := by
  have hleast : IsLeast {j | P j} 0 := ⟨h, fun _ _ => Nat.zero_le _⟩
  intro i
  rw [Option.some.injEq]
  exact ⟨fun hi => hi ▸ hleast, hleast.unique⟩

/-- Not at the first index: the search goes on, one index further. -/
theorem Finds.later (h0 : ¬P 0) (h : Finds (fun j => P (j + 1)) r) : Finds P (r.map (· + 1)) := by
  intro i
  rw [Option.map_eq_some_iff]
  constructor
  · rintro ⟨k, hk, rfl⟩
    obtain ⟨hmem, hleast⟩ := (h k).mp hk
    refine ⟨hmem, fun j hj => ?_⟩
    cases j with
    | zero => exact absurd hj h0
    | succ j => exact Nat.succ_le_succ (hleast hj)
  · rintro ⟨hmem, hleast⟩
    cases i with
    | zero => exact absurd hmem h0
    | succ k =>
      exact ⟨k, (h k).mpr ⟨hmem, fun j hj => Nat.le_of_succ_le_succ (hleast hj)⟩, rfl⟩

theorem Finds.nowhere (h : ∀ i, ¬P i) : Finds P none :=
  fun i => ⟨fun hi => by simp at hi, fun hi => absurd hi.1 (h i)⟩

/-- If `P` holds anywhere, the search finds it. -/
theorem Finds.eq_none_iff (h : Finds P r) : r = none ↔ ∀ i, ¬P i := by
  constructor
  · rintro rfl i hi
    classical
    have hex : ∃ j, P j := ⟨i, hi⟩
    have hfind := (h (Nat.find hex)).mpr ⟨Nat.find_spec hex, fun _ hj => Nat.find_min' hex hj⟩
    simp at hfind
  · intro hno
    cases hr : r with
    | none => rfl
    | some i => exact absurd ((h i).mp hr).1 (hno i)

end Finds

/-! ## 3. The search -/

variable {h w : List UInt8}

theorem strlen_eq {rest : List UInt8} : ∀ {w : List UInt8}, 0 ∉ w → strlen (w ++ 0 :: rest) = some w.length
  | [], _ => rfl
  | b :: w, hw => by
    obtain ⟨hb, hw⟩ := List.ne_and_not_mem_of_not_mem_cons hw
    simp [strlen, Ne.symm hb, strlen_eq hw]

/-- **Comparing as many bytes as the needle has**: equal if and only if the needle is in front. -/
theorem strncmp_eq_zero_iff (rest rest' : List UInt8) : ∀ {w h : List UInt8}, 0 ∉ w → 0 ∉ h →
    ∃ c, strncmp (h ++ 0 :: rest) (w ++ 0 :: rest') w.length = some c ∧ (c = 0 ↔ w <+: h)
  | [], h, _, _ => ⟨0, by cases h <;> rfl, by simp⟩
  | b :: w, [], hw, _ => by
    -- The terminator of the haystack, against a byte of the needle.
    have hb : (0 : UInt8) ≠ b := (List.ne_and_not_mem_of_not_mem_cons hw).1
    have hbn : b.toNat ≠ 0 := fun h0 => hb (UInt8.toNat_inj.mp h0.symm)
    refine ⟨((0 : UInt8).toNat : Int) - b.toNat, by simp [strncmp], ?_⟩
    simpa using hbn
  | b :: w, a :: h, hw, hh => by
    obtain ⟨ha, hh⟩ := List.ne_and_not_mem_of_not_mem_cons hh
    by_cases hab : a = b
    · subst hab
      obtain ⟨c, hc, hiff⟩ := strncmp_eq_zero_iff rest rest' (List.ne_and_not_mem_of_not_mem_cons hw).2 hh
      exact ⟨c, by simpa [strncmp, Ne.symm ha] using hc, by simpa using hiff⟩
    · have hne : a.toNat ≠ b.toNat := fun h0 => hab (UInt8.toNat_inj.mp h0)
      refine ⟨(a.toNat : Int) - b.toNat, by simp [strncmp, hab], ?_⟩
      rw [List.cons_prefix_cons]
      constructor
      · intro h0
        omega
      · rintro ⟨hba, -⟩
        exact absurd hba.symm hab

/-- The loop, by induction on what is left of the haystack. -/
theorem strstrLoop_finds (hw : 0 ∉ w) (hne : w ≠ []) : ∀ {h : List UInt8}, 0 ∉ h →
    ∃ r, (∀ rest rest', strstrLoop (w ++ 0 :: rest') (h ++ 0 :: rest) = some r) ∧
      Finds (fun i => w <+: h.drop i) r
  | [], _ => ⟨none, fun _ _ => by simp [strstrLoop], Finds.nowhere (by simpa using hne)⟩
  | a :: h, hh => by
    obtain ⟨ha, hh'⟩ := List.ne_and_not_mem_of_not_mem_cons hh
    obtain ⟨r, hloop, hfinds⟩ := strstrLoop_finds hw hne hh'
    by_cases hprefix : w <+: a :: h
    · refine ⟨some 0, fun rest rest' => ?_, Finds.here hprefix⟩
      obtain ⟨c, hc, hiff⟩ := strncmp_eq_zero_iff rest rest' hw hh
      rw [List.cons_append] at hc ⊢
      simp [strstrLoop, Ne.symm ha, strlen_eq hw, hc, hiff.mpr hprefix]
    · refine ⟨r.map (· + 1), fun rest rest' => ?_, Finds.later hprefix hfinds⟩
      obtain ⟨c, hc, hiff⟩ := strncmp_eq_zero_iff rest rest' hw hh
      have hc0 : c ≠ 0 := fun h0 => hprefix (hiff.mp h0)
      rw [List.cons_append] at hc ⊢
      simp [strstrLoop, Ne.symm ha, strlen_eq hw, hc, hc0, hloop]

theorem infix_iff_exists_drop : w <:+: h ↔ ∃ i, w <+: h.drop i := by
  rw [List.infix_iff_prefix_suffix]
  constructor
  · rintro ⟨t, hprefix, hsuffix⟩
    exact ⟨h.length - t.length, List.suffix_iff_eq_drop.mp hsuffix ▸ hprefix⟩
  · rintro ⟨i, hprefix⟩
    exact ⟨h.drop i, hprefix, List.drop_suffix i h⟩

/-- **`strstr` finds the leftmost match.**  Whatever stands behind the terminators, or nothing at all, it
returns the least position at which the needle stands in the haystack, and NULL if and only if the needle
does not occur in it. -/
theorem strstr_leftmost (haystack needle : CString) : ∃ r : Option Nat,
    (∀ rest rest', strstr (haystack.bytes ++ 0 :: rest) (needle.bytes ++ 0 :: rest') = some r) ∧
    (∀ i, r = some i ↔ IsLeast {j | needle.bytes <+: haystack.bytes.drop j} i) ∧
    (r = none ↔ ¬needle.bytes <:+: haystack.bytes) ∧ (needle.bytes = [] → r = some 0) := by
  obtain ⟨h, hh⟩ := haystack
  obtain ⟨w, hw⟩ := needle
  have hsearch : ∃ r, (∀ rest rest', strstr (h ++ 0 :: rest) (w ++ 0 :: rest') = some r) ∧
      Finds (fun i => w <+: h.drop i) r := by
    cases w with
    | nil => exact ⟨some 0, fun _ _ => rfl, Finds.here List.nil_prefix⟩
    | cons b w =>
      obtain ⟨r, hloop, hfinds⟩ := strstrLoop_finds hw (List.cons_ne_nil b w) hh
      have hb : b ≠ 0 := Ne.symm (List.ne_and_not_mem_of_not_mem_cons hw).1
      exact ⟨r, fun rest rest' => by simpa [strstr, hb] using hloop rest rest', hfinds⟩
  obtain ⟨r, hrun, hfinds⟩ := hsearch
  refine ⟨r, hrun, hfinds, ?_, fun hnil => ?_⟩
  · rw [hfinds.eq_none_iff, infix_iff_exists_drop, not_exists]
  · refine (hfinds 0).mpr ⟨?_, fun _ _ => Nat.zero_le _⟩
    have hw0 : w = [] := hnil
    simp [hw0]

/-- `"aab"` in `"aaab"`: the match at 0 breaks off at its last byte. -/
example : strstr [0x61, 0x61, 0x61, 0x62, 0] [0x61, 0x61, 0x62, 0] = some (some 1) := by decide

end JarvOs.Libc
