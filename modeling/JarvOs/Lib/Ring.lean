/-
# Ring buffers as lists

A ring of `n` cells holds its elements from `head` on, wrapping at the end of the array.
`ringView` reads them off in order; everything a producer or a consumer does to the indices is
then an edit at one end of that list: writing the first free cell appends (`ringView_push`), moving
the head drops the first element (`ringView_succ`), and only the position modulo `n` matters
(`ringView_mod`).
-/
import Mathlib

namespace JarvOs.Lib

variable {α : Type*} {n : Nat} [NeZero n]

/-- The `count` elements stored from `head` on. -/
def ringView (cell : Fin n → α) (head count : Nat) : List α :=
  (List.range count).map fun k => cell (Fin.ofNat n (head + k))

@[simp] theorem length_ringView (cell : Fin n → α) (head count : Nat) :
    (ringView cell head count).length = count := by
  simp [ringView]

@[simp] theorem ringView_zero (cell : Fin n → α) (head : Nat) : ringView cell head 0 = [] := rfl

/-- The first element, and the rest behind it. -/
theorem ringView_succ (cell : Fin n → α) (head count : Nat) :
    ringView cell head (count + 1) = cell (Fin.ofNat n head) :: ringView cell (head + 1) count := by
  simp [ringView, List.range_succ_eq_map, Function.comp_def, Nat.add_comm, Nat.add_left_comm]

theorem ringView_mod (cell : Fin n → α) (head count : Nat) :
    ringView cell (head % n) count = ringView cell head count := by
  refine List.map_congr_left (fun k _ => ?_)
  congr 1
  exact Fin.ext (Nat.mod_add_mod head n k)

/-- Two positions less than a full turn apart are different cells. -/
theorem ofNat_add_ne {head k c : Nat} (hk : k < c) (hc : c < n) :
    Fin.ofNat n (head + k) ≠ Fin.ofNat n (head + c) := by
  intro h
  have hmod : head + k ≡ head + c [MOD n] := congrArg Fin.val h
  have hkc : k ≡ c [MOD n] := Nat.ModEq.add_left_cancel' head hmod
  have : k = c := hkc.eq_of_lt_of_lt (hk.trans hc) hc
  omega

/-- **A write to the first free cell appends.** -/
theorem ringView_push (cell : Fin n → α) (head : Nat) {count : Nat} (h : count < n) (x : α) :
    ringView (Function.update cell (Fin.ofNat n (head + count)) x) head (count + 1) =
      ringView cell head count ++ [x] := by
  have hold : ∀ k ∈ List.range count,
      Function.update cell (Fin.ofNat n (head + count)) x (Fin.ofNat n (head + k)) =
        cell (Fin.ofNat n (head + k)) := fun k hk =>
    Function.update_of_ne (ofNat_add_ne (List.mem_range.mp hk) h) _ _
  simp only [ringView, List.range_succ, List.map_append, List.map_cons, List.map_nil,
    Function.update_self]
  rw [List.map_congr_left hold]

end JarvOs.Lib
