/-
# Copies between ranges that overlap

A copy of `[s, s + n)` to `[d, d + n)` goes byte by byte.  If the ranges overlap, it may come to a
source byte it has already written, and then what it copies is not what was there AT FIRST.  Which order
is safe depends on which range is in front.

`Moved` is the invariant for either order: the bytes with index in `[a, b)` have been copied from the
memory the copy started with, and nothing else has changed.  A byte is added at one end of the interval
(`Lawful.move_byte`), provided its source has not been written (`Moved.source`).  `Lawful.memcpy_moved`
is the loop that goes up.
-/
import JarvOs.Lib.Bytes

namespace JarvOs.Lib.ByteEnv

variable {σ : Type} {E : ByteEnv σ} {Good : σ → Prop} {lo hi : Nat} {m₀ m : σ} {d s n a b : Nat}

/-- Two ranges of `n` bytes that can be read, inside the window and not past the last address. -/
structure Ranges (E : ByteEnv σ) (lo hi : Nat) (m₀ : σ) (d s n : Nat) : Prop where
  dest_lo : lo ≤ d
  dest_hi : d + n ≤ hi
  src_lo : lo ≤ s
  src_hi : s + n ≤ hi
  dest : ∀ i < n, (E.get m₀ (d + i)).isSome
  src : ∀ i < n, (E.get m₀ (s + i)).isSome
  space : hi ≤ 2 ^ 32

/-- The bytes `a ≤ i < b` have been copied, and nothing else has changed. -/
structure Moved (E : ByteEnv σ) (lo hi : Nat) (m₀ m : σ) (d s a b : Nat) : Prop where
  copied : ∀ i, a ≤ i → i < b → E.get m (d + i) = E.get m₀ (s + i)
  frame : E.SameOff lo hi m₀ m (d + a) (d + b)

theorem Moved.refl (m₀ : σ) (d s a : Nat) : Moved E lo hi m₀ m₀ d s a a :=
  ⟨fun _ hlo hhi => absurd hlo (Nat.not_le.mpr hhi), SameOff.refl m₀ _ _⟩

/-- A source byte that was not written is still the one that was there at first. -/
theorem Moved.source (h : Moved E lo hi m₀ m d s a b) (hR : Ranges E lo hi m₀ d s n) {i : Nat}
    (hin : i < n) (hout : s + i < d + a ∨ d + b ≤ s + i) : E.get m (s + i) = E.get m₀ (s + i) := by
  have hlo := hR.src_lo
  have hhi := hR.src_hi
  exact h.frame (s + i) (by omega) (by omega) hout

/-- **One more byte**, at either end of what has been copied. -/
theorem Lawful.move_byte (L : Lawful E Good lo hi) (hR : Ranges E lo hi m₀ d s n) (hg : Good m)
    (h : Moved E lo hi m₀ m d s a b) (hab : a ≤ b) (hbn : b ≤ n) {i a' b' : Nat} (hin : i < n)
    (hend : (i = b ∧ a' = a ∧ b' = b + 1) ∨ (i + 1 = a ∧ a' = i ∧ b' = b))
    (hout : s + i < d + a ∨ d + b ≤ s + i) :
    ∃ x m', E.get m (s + i) = some x ∧ E.put m (d + i) x = some m' ∧ Good m' ∧
      Moved E lo hi m₀ m' d s a' b' := by
  have hdlo := hR.dest_lo
  have hdhi := hR.dest_hi
  have hsrc := h.source hR hin hout
  obtain ⟨x, hx⟩ := Option.isSome_iff_exists.mp (hR.src i hin)
  have hdest : E.get m (d + i) = E.get m₀ (d + i) :=
    h.frame (d + i) (by omega) (by omega) (by omega)
  obtain ⟨m', hput, hg', hget⟩ := L.put_ok x hg (show lo ≤ d + i by omega) (by omega)
    (by rw [hdest]; exact hR.dest i hin)
  refine ⟨x, m', hsrc.trans hx, hput, hg', fun j hlo hhi => ?_, fun y hlo hhi hy => ?_⟩
  · rw [hget (d + j) (by omega) (by omega)]
    by_cases hj : j = i
    · rw [hj, if_pos rfl, hx]
    · rw [if_neg (by omega), h.copied j (by omega) (by omega)]
  · rw [hget y hlo hhi, if_neg (by omega), h.frame y hlo hhi (by omega)]

/-- **Copying upwards** is safe if the destination does not start inside the source. -/
theorem Lawful.memcpy_moved (L : Lawful E Good lo hi) (hR : Ranges E lo hi m₀ d s n)
    (horder : d ≤ s ∨ s + n ≤ d) : ∀ (r k : Nat) {m : σ}, k + r = n → Good m →
      Moved E lo hi m₀ m d s 0 k →
      ∃ t, E.memcpy m (add32 d k) (add32 s k) r = some t ∧ Good t ∧ Moved E lo hi m₀ t d s 0 n := by
  have hdhi := hR.dest_hi
  have hshi := hR.src_hi
  have hspace := hR.space
  intro r
  induction r with
  | zero =>
    intro k m hk hg h
    obtain rfl : k = n := hk
    exact ⟨m, rfl, hg, h⟩
  | succ r ih =>
    intro k m hk hg h
    obtain ⟨x, m₁, hx, hput, hg₁, h₁⟩ := L.move_byte hR hg h (Nat.zero_le k) (by omega) (i := k)
      (by omega) (Or.inl ⟨rfl, rfl, rfl⟩) (by omega)
    obtain ⟨t, ht, hgt, hmoved⟩ := ih (k + 1) (by omega) hg₁ h₁
    refine ⟨t, ?_, hgt, hmoved⟩
    rw [add32_of_lt (by omega), add32_of_lt (by omega)]
    simp only [memcpy, hx, hput, Option.bind_eq_bind, Option.bind_some]
    exact ht

end JarvOs.Lib.ByteEnv
