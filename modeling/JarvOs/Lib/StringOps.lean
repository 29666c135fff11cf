/-
# String instructions

`rep movs` and `rep stos` with the direction flag clear go up through memory, one element a round.  An
element of several cells is read as a whole before it is written.

Memory is behind address lines: `line a` is the cell that address `a` reaches.  Where the lines are wired
straight, a copy leaves in its destination what was in its source AT FIRST, if the destination does not
start inside the source (`repMovs_apply`), and a fill leaves its element over and over (`repStos_apply`).
-/
import Mathlib

namespace JarvOs.Lib.StringOps

variable {β : Type}

/-! ## 1. The instructions -/

/-- The cells from `a` on take the values of a list. -/
def store (line : Nat → Nat) (m : Nat → β) : Nat → List β → Nat → β
  | _, [] => m
  | a, x :: xs => store line (Function.update m (line a) x) (a + 1) xs

/-- The `w` cells from `a` on. -/
def load (line : Nat → Nat) (m : Nat → β) (a w : Nat) : List β :=
  (List.range w).map (fun k => m (line (a + k)))

/-- `rep movs`, with elements of `w` cells. -/
def repMovs (line : Nat → Nat) (w : Nat) : Nat → Nat → Nat → (Nat → β) → Nat → β
  | 0, _, _, m => m
  | n + 1, src, dst, m => repMovs line w n (src + w) (dst + w) (store line m dst (load line m src w))

/-- `rep stos` of an element. -/
def repStos (line : Nat → Nat) (xs : List β) : Nat → Nat → (Nat → β) → Nat → β
  | 0, _, m => m
  | n + 1, dst, m => repStos line xs n (dst + xs.length) (store line m dst xs)

/-! ## 2. What they leave -/

variable {line : Nat → Nat} {hi : Nat}

/-- Below `hi` every address reaches its own cell. -/
def Straight (line : Nat → Nat) (hi : Nat) : Prop := ∀ a < hi, line a = a

theorem store_apply (hline : Straight line hi) (xs : List β) : ∀ (m : Nat → β) (a x : Nat),
    a + xs.length ≤ hi → store line m a xs x = if a ≤ x then xs.getD (x - a) (m x) else m x := by
  induction xs with
  | nil =>
    intro m a x _
    simp [store]
  | cons y ys ih =>
    intro m a x hfit
    rw [List.length_cons] at hfit
    rw [store, ih _ (a + 1) x (by omega), hline a (by omega)]
    rcases Nat.lt_trichotomy x a with hlt | rfl | hgt
    · rw [if_neg (by omega), if_neg (by omega), Function.update_of_ne (by omega)]
    · rw [if_neg (by omega), if_pos le_rfl, Function.update_self, Nat.sub_self, List.getD_cons_zero]
    · rw [if_pos (by omega), if_pos (by omega), Function.update_of_ne (by omega),
        show x - a = x - (a + 1) + 1 by omega, List.getD_cons_succ]

theorem getD_load (hline : Straight line hi) (m : Nat → β) {a w : Nat} (hfit : a + w ≤ hi) (k : Nat)
    (d : β) : (load line m a w).getD k d = if k < w then m (a + k) else d := by
  split_ifs with hk
  · rw [List.getD_eq_getElem _ _ (by simpa [load] using hk)]
    simp only [load, List.getElem_map, List.getElem_range]
    rw [hline (a + k) (by omega)]
  · rw [List.getD_eq_default _ _ (by simpa [load] using hk)]

/-- **A copy** whose destination does not start inside its source. -/
theorem repMovs_apply (hline : Straight line hi) {w : Nat} (n : Nat) : ∀ (src dst : Nat) (m : Nat → β)
    (x : Nat), src + n * w ≤ hi → dst + n * w ≤ hi → dst ≤ src ∨ src + n * w ≤ dst →
    repMovs line w n src dst m x =
      if dst ≤ x ∧ x < dst + n * w then m (src + (x - dst)) else m x := by
  induction n with
  | zero =>
    intro src dst m x _ _ _
    rw [repMovs, if_neg (by omega)]
  | succ n ih =>
    intro src dst m x hsrc hdst horder
    have hlen : (load line m src w).length = w := by simp [load]
    rw [Nat.succ_mul] at hsrc hdst horder ⊢
    have hround : ∀ y, store line m dst (load line m src w) y =
        if dst ≤ y ∧ y < dst + w then m (src + (y - dst)) else m y := by
      intro y
      rw [store_apply hline _ m dst y (by omega), getD_load hline m (by omega)]
      split_ifs <;> first | rfl | omega
    rw [repMovs, ih _ _ _ x (by omega) (by omega) (by omega), hround, hround]
    -- the source of a later element is not in the part written now
    split_ifs <;> first | rfl | omega | (congr 1; omega)

/-- **A fill.** -/
theorem repStos_apply (hline : Straight line hi) (xs : List β) (n : Nat) : ∀ {dst : Nat} (m : Nat → β)
    (x : Nat), dst + n * xs.length ≤ hi → repStos line xs n dst m x =
      if dst ≤ x ∧ x < dst + n * xs.length then xs.getD ((x - dst) % xs.length) (m x) else m x := by
  induction n with
  | zero =>
    intro dst m x _
    rw [repStos, if_neg (by omega)]
  | succ n ih =>
    intro dst m x hfit
    rw [Nat.succ_mul] at hfit ⊢
    rw [repStos, ih _ x (by omega), store_apply hline xs m dst x (by omega)]
    rcases Nat.lt_or_ge x dst with hlt | hge
    · rw [if_neg (by omega), if_neg (by omega), if_neg (by omega)]
    · rw [if_pos hge]
      rcases Nat.lt_or_ge x (dst + xs.length) with hfirst | hlater
      · rw [if_neg (by omega), if_pos (by omega), Nat.mod_eq_of_lt (by omega)]
      · rw [List.getD_eq_default xs (m x) (by omega),
          show (x - dst) % xs.length = (x - (dst + xs.length)) % xs.length by
            rw [Nat.mod_eq_sub_mod (by omega)]; congr 1; omega]
        split_ifs <;> first | rfl | omega

end JarvOs.Lib.StringOps
