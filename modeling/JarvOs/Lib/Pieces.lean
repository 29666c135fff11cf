/-
# The pieces of a list between separators

A PIECE of a list is a non-empty part of it that has no separators and cannot be made longer.  A piece
comes with its position, so the pieces of a list are told apart even if they are equal, and their order
is that of their positions.

A tokenizer finds them from left to right.  `Piece.first` says when it has found one, and `Piece.next`
that it has not missed any on the way: every other piece starts behind the separator that follows.
-/
import Mathlib

namespace JarvOs.Lib

variable {α : Type} {sep : α → Bool} {s v w : List α} {a i q : Nat}

/-- `w` stands in `s` at position `i`, is not empty, has no separators, and has one or an end of `s` on
either side. -/
structure Piece (sep : α → Bool) (s : List α) (i : Nat) (w : List α) : Prop where
  stands : w <+: s.drop i
  ne_nil : w ≠ []
  free : ∀ c ∈ w, sep c = false
  left : ∀ j c, i = j + 1 → s[j]? = some c → sep c = true
  right : ∀ c, s[i + w.length]? = some c → sep c = true

/-- There are separators from `q` to `a`. -/
def Separators (sep : α → Bool) (s : List α) (q a : Nat) : Prop :=
  ∀ x, q ≤ x → x < a → ∃ c, s[x]? = some c ∧ sep c = true

theorem getElem?_of_stands (h : w <+: s.drop i) {x : Nat} (hx : x < w.length) :
    s[i + x]? = some w[x] := by
  rw [← List.getElem?_drop, List.prefix_iff_getElem?.mp h x hx]

theorem Piece.length_pos (h : Piece sep s i w) : 0 < w.length := List.length_pos_iff.mpr h.ne_nil

/-- Inside of a piece. -/
theorem Piece.inside (h : Piece sep s i w) {x : Nat} (hlo : i ≤ x) (hhi : x < i + w.length) :
    ∃ c, s[x]? = some c ∧ sep c = false := by
  obtain ⟨k, rfl⟩ := Nat.exists_eq_add_of_le hlo
  exact ⟨_, getElem?_of_stands h.stands (by omega), h.free _ (List.getElem_mem _)⟩

/-- A place is not inside a piece and a separator at the same time. -/
theorem not_sep_and_free {x : Nat} (h₁ : ∃ c, s[x]? = some c ∧ sep c = true)
    (h₂ : ∃ c, s[x]? = some c ∧ sep c = false) : False := by
  obtain ⟨c, hc, hsep⟩ := h₁
  obtain ⟨c', hc', hfree⟩ := h₂
  rw [Option.some.inj (hc.symm.trans hc'), hfree] at hsep
  cases hsep

/-- Two pieces at one position are one. -/
theorem Piece.unique (h : Piece sep s i v) (h' : Piece sep s i w) : v = w := by
  have hle : ∀ {v w : List α}, Piece sep s i v → Piece sep s i w → w.length ≤ v.length := by
    intro v w hv hw
    by_contra hlt
    obtain ⟨c, hc, hfree⟩ := hw.inside (Nat.le_add_right i v.length) (by omega)
    exact not_sep_and_free ⟨c, hc, hv.right c hc⟩ ⟨c, hc, hfree⟩
  have hlen : v.length = w.length := le_antisymm (hle h' h) (hle h h')
  rw [List.prefix_iff_eq_take.mp h.stands, List.prefix_iff_eq_take.mp h'.stands, hlen]

/-- **A piece has been found**: behind a boundary and some separators. -/
theorem Piece.first (hleft : ∀ j c, q = j + 1 → s[j]? = some c → sep c = true) (hqa : q ≤ a)
    (hskip : Separators sep s q a) (hstands : w <+: s.drop a) (hne : w ≠ [])
    (hfree : ∀ c ∈ w, sep c = false) (hright : ∀ c, s[a + w.length]? = some c → sep c = true) :
    Piece sep s a w := by
  refine ⟨hstands, hne, hfree, fun j c hj hc => ?_, hright⟩
  rcases Nat.lt_or_ge j q with hlt | hge
  · exact hleft j c (by omega) hc
  · obtain ⟨c', hc', hsep⟩ := hskip j hge (by omega)
    rwa [Option.some.inj (hc.symm.trans hc')]

/-- **None has been missed**: a piece from `q` on is the first one or starts behind it. -/
theorem Piece.next (h : Piece sep s i v) (hi : q ≤ i) (hskip : Separators sep s q a)
    (hfirst : Piece sep s a w) : (i = a ∧ v = w) ∨ a + w.length + 1 ≤ i := by
  have hstart := h.inside (le_refl i) (Nat.lt_add_of_pos_right h.length_pos)
  rcases Nat.lt_trichotomy i a with hlt | rfl | hgt
  · exact absurd hstart (not_sep_and_free (hskip i hi hlt))
  · exact Or.inl ⟨rfl, h.unique hfirst⟩
  · -- what stands in front of `i` is a separator
    refine Or.inr ?_
    by_contra hin
    obtain ⟨c, hc, hfree⟩ := hfirst.inside (show a ≤ i - 1 by omega) (by omega)
    exact not_sep_and_free ⟨c, hc, h.left (i - 1) c (by omega) hc⟩ ⟨c, hc, hfree⟩

/-- With separators only, there are no pieces. -/
theorem Piece.lt_of_separators (h : Piece sep s i v) (hskip : Separators sep s q s.length) : i < q := by
  by_contra hge
  obtain ⟨c, hc, hfree⟩ := h.inside (le_refl i) (Nat.lt_add_of_pos_right h.length_pos)
  have hlt : i < s.length := (List.getElem?_eq_some_iff.mp hc).1
  exact not_sep_and_free (hskip i (by omega) hlt) ⟨c, hc, hfree⟩

end JarvOs.Lib
