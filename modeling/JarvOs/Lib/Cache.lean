/-
# A cache in front of a map

A cache holds answers that a map once gave.  It is filled and emptied behind the back of those who change
the map, and they have to invalidate what they change.  `Coherent R f c` says that they do: whatever the
cache holds for a key, the map has an answer for it too, and the two are related by `R`.  With equality for
`R` nothing in the cache is stale; with an order, what is stale errs on one side.

`Coherent.change` is the rule for a change of the map: only the keys that are still in the cache matter.
-/
import Mathlib

namespace JarvOs.Lib

variable {K E : Type} {R : E → E → Prop} {f f' c c' : K → Option E}

/-- What is in the cache is allowed by what is in the map. -/
def Coherent (R : E → E → Prop) (f c : K → Option E) : Prop :=
  ∀ k e, c k = some e → ∃ e', f k = some e' ∧ R e e'

theorem coherent_empty (R : E → E → Prop) (f : K → Option E) : Coherent R f (fun _ => none) :=
  fun _ _ h => nomatch h

/-- **A change of the map**: what is left in the cache was there before, and has been changed in the
direction of `R`. -/
theorem Coherent.change (htrans : ∀ {a b c}, R a b → R b c → R a c) (h : Coherent R f c)
    (hsub : ∀ k e, c' k = some e → c k = some e)
    (hf : ∀ k e e', c' k = some e → f k = some e' → ∃ e'', f' k = some e'' ∧ R e' e'') :
    Coherent R f' c' := by
  intro k e hk
  obtain ⟨e', hfk, hee'⟩ := h k e (hsub k e hk)
  obtain ⟨e'', hfk', he'e''⟩ := hf k e e' hk hfk
  exact ⟨e'', hfk', htrans hee' he'e''⟩

variable [DecidableEq K]

/-- A key is looked up. -/
theorem Coherent.fill (hrefl : ∀ e, R e e) (h : Coherent R f c) {k : K} {e : E} (hk : f k = some e) :
    Coherent R f (Function.update c k (some e)) := by
  intro k' e' hk'
  rcases eq_or_ne k' k with rfl | hne
  · rw [Function.update_self] at hk'
    obtain rfl := Option.some.inj hk'
    exact ⟨e, hk, hrefl e⟩
  · rw [Function.update_of_ne hne] at hk'
    exact h k' e' hk'

/-- What is left when a key is dropped. -/
theorem update_none_eq_some {k k' : K} {e : E} :
    Function.update c k none k' = some e ↔ k' ≠ k ∧ c k' = some e := by
  rcases eq_or_ne k' k with rfl | hne
  · simp
  · simp [hne]

/-- A key is dropped. -/
theorem Coherent.drop (h : Coherent R f c) (k : K) : Coherent R f (Function.update c k none) :=
  fun k' e' hk' => h k' e' (update_none_eq_some.mp hk').2

end JarvOs.Lib
