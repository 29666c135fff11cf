/-
# Machines that answer now and then

A deterministic machine that reads symbols one at a time and gives at most one answer for each
(`Transducer`).  Its client does not see the symbols: a call (`next`) reads on until there is an answer
and blocks if none comes, so what the client sees is the list of answers (`firsts_eq_take`).

`run_eq_iff` compares two machines, with states that need have nothing in common, on one input.  If they
answer the same symbols, then their answers agree exactly if they agree symbol by symbol.
-/
import Mathlib

namespace JarvOs.Lib

/-- What is done with a symbol: the next state, and perhaps an answer. -/
structure Transducer (σ α β : Type) where
  step : σ → α → σ
  output : σ → α → Option β

namespace Transducer

variable {σ τ α β : Type} (T : Transducer σ α β) (U : Transducer τ α β)

/-- The state after an input. -/
def after (s : σ) (xs : List α) : σ := xs.foldl T.step s

/-- The answers to an input. -/
def run : σ → List α → List β
  | _, [] => []
  | s, x :: xs => (T.output s x).toList ++ run (T.step s x) xs

/-- One call: read on until there is an answer.  With `none` the call blocks. -/
def next : σ → List α → Option (β × σ × List α)
  | _, [] => none
  | s, x :: xs =>
    match T.output s x with
    | some b => some (b, T.step s x, xs)
    | none => next (T.step s x) xs

/-- What `n` successive calls return, as far as they return. -/
def firsts : Nat → σ → List α → List β
  | 0, _, _ => []
  | n + 1, s, xs =>
    match T.next s xs with
    | none => []
    | some (b, s, xs) => b :: firsts n s xs

theorem after_concat (s : σ) (xs : List α) (x : α) :
    T.after s (xs ++ [x]) = T.step (T.after s xs) x := by
  rw [after, List.foldl_append]
  rfl

theorem run_concat (s : σ) (xs : List α) (x : α) :
    T.run s (xs ++ [x]) = T.run s xs ++ (T.output (T.after s xs) x).toList := by
  induction xs generalizing s with
  | nil => exact List.append_nil _
  | cons y xs ih =>
    rw [List.cons_append, run, ih, run, List.append_assoc]
    rfl

/-- A call takes the first of the answers. -/
theorem run_eq_next (s : σ) (xs : List α) :
    T.run s xs = ((T.next s xs).map (fun r => r.1 :: T.run r.2.1 r.2.2)).getD [] := by
  induction xs generalizing s with
  | nil => rfl
  | cons x xs ih =>
    rw [run, next]
    cases T.output s x with
    | none => exact ih (T.step s x)
    | some b => rfl

/-- **Successive calls** return the answers in order. -/
theorem firsts_eq_take (n : Nat) (s : σ) (xs : List α) : T.firsts n s xs = (T.run s xs).take n := by
  induction n generalizing s xs with
  | zero => rfl
  | succ n ih =>
    rw [firsts, run_eq_next]
    cases T.next s xs with
    | none => rfl
    | some r => exact congrArg (r.1 :: ·) (ih r.2.1 r.2.2)

/-- **Two machines that answer the same symbols** give the same answers exactly if they answer every
symbol alike. -/
theorem run_eq_iff {s : σ} {t : τ} {xs : List α}
    (hsome : ∀ pre x, (T.output (T.after s pre) x).isSome = (U.output (U.after t pre) x).isSome) :
    T.run s xs = U.run t xs ↔
      ∀ pre x post, xs = pre ++ x :: post →
        T.output (T.after s pre) x = U.output (U.after t pre) x := by
  induction xs generalizing s t with
  | nil => simp [run]
  | cons x xs ih =>
    have hhead := hsome [] x
    -- the rest of the input starts in the next states
    have htail := ih (s := T.step s x) (t := U.step t x) (fun pre y => hsome (x :: pre) y)
    have hsplit : T.run s (x :: xs) = U.run t (x :: xs) ↔
        T.output s x = U.output t x ∧ T.run (T.step s x) xs = U.run (U.step t x) xs := by
      simp only [run, after, List.foldl_nil] at hhead ⊢
      cases hT : T.output s x with
      | none => cases hU : U.output t x <;> simp_all
      | some b => cases hU : U.output t x <;> simp_all
    rw [hsplit, htail]
    constructor
    · rintro ⟨h0, hrest⟩ pre y post heq
      cases pre with
      | nil =>
        obtain ⟨rfl, -⟩ := List.cons.inj heq
        exact h0
      | cons z pre =>
        obtain ⟨rfl, rfl⟩ := List.cons.inj heq
        exact hrest pre y post rfl
    · intro h
      refine ⟨h [] x xs rfl, fun pre y post heq => h (x :: pre) y post ?_⟩
      rw [heq]
      rfl

end Transducer

end JarvOs.Lib
