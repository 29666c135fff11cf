/-
# Progress in every fair interleaving

A machine whose steps are taken by several parties: `step : σ → ω → σ`, with an operation that finds nothing
to do leaving the state as it is.  That such a machine gets on is a statement about EVERY order of the
operations in which each party has its turn now and then.

`rank` is what is left to do and never grows.  The turns that are needed to lower it are a list `r`; what has
been achieved when `r` is still to come is `stage r`.  Other operations in between may lower the rank
themselves, but while they do not they may not undo the stage.  Then every history in which the turns occur
in order, with anything in between, lowers the rank (`foldl_rank_lt`), and enough of such histories leave
nothing to do (`foldl_rank_le`).
-/
import Mathlib

namespace JarvOs.Lib.Fair

variable {σ ω : Type} {step : σ → ω → σ} {I : σ → Prop} {rank : σ → Nat}

/-- What every operation keeps, a history keeps. -/
theorem foldl_inv (hstep : ∀ s o, I s → I (step s o)) : ∀ (os : List ω) {s : σ}, I s → I (os.foldl step s)
  | [], _, hs => hs
  | o :: os, s, hs => foldl_inv hstep os (hstep s o hs)

theorem foldl_rank_anti (hstep : ∀ s o, I s → I (step s o) ∧ rank (step s o) ≤ rank s) :
    ∀ (os : List ω) {s : σ}, I s → rank (os.foldl step s) ≤ rank s
  | [], _, _ => le_rfl
  | o :: os, s, hs => (foldl_rank_anti hstep os (hstep s o hs).1).trans (hstep s o hs).2

/-- **One fair history.**  Induction over how the turns lie in the history. -/
theorem foldl_rank_lt {stage : List ω → σ → Prop}
    (hstep : ∀ s o, I s → I (step s o) ∧ rank (step s o) ≤ rank s)
    (hkeep : ∀ r s o, I s → stage r s → rank (step s o) = rank s → stage r (step s o))
    (hturn : ∀ o r s, I s → stage (o :: r) s → rank (step s o) = rank s → stage r (step s o))
    (hend : ∀ s, ¬ stage [] s) {r os : List ω} (h : r.Sublist os) :
    ∀ {s : σ}, I s → stage r s → rank (os.foldl step s) < rank s := by
  induction h with
  | slnil => exact fun _ hr => absurd hr (hend _)
  | @cons r os o _ ih =>
    intro s hs hr
    rcases (hstep s o hs).2.lt_or_eq with hlt | heq
    · exact (foldl_rank_anti hstep os (hstep s o hs).1).trans_lt hlt
    · exact (ih (hstep s o hs).1 (hkeep r s o hs hr heq)).trans_eq heq
  | @cons_cons r os o _ ih =>
    intro s hs hr
    rcases (hstep s o hs).2.lt_or_eq with hlt | heq
    · exact (foldl_rank_anti hstep os (hstep s o hs).1).trans_lt hlt
    · exact (ih (hstep s o hs).1 (hturn o r s hs hr heq)).trans_eq heq

/-- **Fair histories one after the other.** -/
theorem foldl_rank_le {fair : List ω → Prop}
    (hstep : ∀ s o, I s → I (step s o) ∧ rank (step s o) ≤ rank s)
    (hfair : ∀ (os : List ω) s, fair os → I s → 0 < rank s → rank (os.foldl step s) < rank s) :
    ∀ (blocks : List (List ω)) {s : σ}, (∀ os ∈ blocks, fair os) → I s →
      rank (blocks.flatten.foldl step s) ≤ rank s - blocks.length := by
  intro blocks
  induction blocks with
  | nil => exact fun _ _ => le_rfl
  | cons os blocks ih =>
    intro s hall hs
    have hrest := ih (fun xs hxs => hall xs (List.mem_cons_of_mem _ hxs))
      (foldl_inv (fun s o h => (hstep s o h).1) os hs)
    have hle := foldl_rank_anti hstep os hs
    rw [List.flatten_cons, List.foldl_append, List.length_cons]
    rcases Nat.eq_zero_or_pos (rank s) with h0 | hpos
    · omega
    · have := hfair os s (hall os List.mem_cons_self) hs hpos
      omega

end JarvOs.Lib.Fair
