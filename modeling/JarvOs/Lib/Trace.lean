/-
# Runs of a fallible machine

A component is a step function `step : σ → ω → Option σ`: one state, one operation, and either
the next state or `none` when the machine does not survive the operation (a page fault, an
index past the end of an array, a loop that never ends).  This module has the ways the
development speaks about its runs:

* `run`: the state after a list of operations;
* `Reach`: the states some legal history leads to, where `ok s o` says which operation a
  caller may issue in which state;
* `Along`: a property of every (state, operation) pair a given history goes through;
* `answers` and `ideal`: what a machine tells its callers, and what an abstract machine that cannot
  fail would have told them (`answers_refine`).

The induction over a history is done here, once per notion; a component only proves what one
step does.
-/
import Mathlib

namespace JarvOs.Lib

variable {σ ω : Type}

/-! ## 1. The state after a history -/

/-- The state after the operations of a list, `none` if one of them is not survived. -/
def run (step : σ → ω → Option σ) : σ → List ω → Option σ
  | s, [] => some s
  | s, o :: os => (step s o).bind (fun t => run step t os)

@[simp] theorem run_nil (step : σ → ω → Option σ) (s : σ) : run step s [] = some s := rfl

theorem run_cons_eq_some {step : σ → ω → Option σ} {s t : σ} {o : ω} {os : List ω} :
    run step s (o :: os) = some t ↔ ∃ u, step s o = some u ∧ run step u os = some t := by
  simp [run, Option.bind_eq_some_iff]

theorem run_append (step : σ → ω → Option σ) : ∀ (xs ys : List ω) (s : σ),
    run step s (xs ++ ys) = (run step s xs).bind (fun t => run step t ys)
  | [], _, _ => rfl
  | x :: xs, ys, s => by
    simp only [List.cons_append, run, Option.bind_assoc]
    congr 1
    funext t
    exact run_append step xs ys t

/-- **Invariant rule.**  What every step keeps, every run keeps. -/
theorem run_inv {step : σ → ω → Option σ} {I : σ → Prop}
    (hstep : ∀ s o t, I s → step s o = some t → I t) :
    ∀ (os : List ω) (s t : σ), I s → run step s os = some t → I t
  | [], s, t, hs, h => by
    obtain rfl : s = t := by simpa using h
    exact hs
  | o :: os, s, t, hs, h => by
    obtain ⟨u, hu, h⟩ := run_cons_eq_some.mp h
    exact run_inv hstep os u t (hstep s o u hs hu) h

/-! ## 2. The states legal histories lead to -/

/-- The states reached from `s₀` by operations that are legal where they are issued. -/
inductive Reach (step : σ → ω → Option σ) (ok : σ → ω → Prop) (s₀ : σ) : σ → Prop
  | refl : Reach step ok s₀ s₀
  | tail {s t : σ} {o : ω} : Reach step ok s₀ s → ok s o → step s o = some t →
      Reach step ok s₀ t

/-- **Invariant rule for legal histories.** -/
theorem Reach.inv {step : σ → ω → Option σ} {ok : σ → ω → Prop} {s₀ s : σ} {I : σ → Prop}
    (h : Reach step ok s₀ s) (h0 : I s₀)
    (hstep : ∀ s o t, I s → ok s o → step s o = some t → I t) : I s := by
  induction h with
  | refl => exact h0
  | tail _ hok hst ih => exact hstep _ _ _ ih hok hst

/-- Where every operation is legal, every history leads to a state that is reached. -/
theorem Reach.of_run {step : σ → ω → Option σ} {ok : σ → ω → Prop} (hok : ∀ s o, ok s o) {s₀ : σ} :
    ∀ {os : List ω} {s t : σ}, Reach step ok s₀ s → run step s os = some t → Reach step ok s₀ t
  | [], s, t, h, hrun => by
    obtain rfl := Option.some.inj hrun
    exact h
  | o :: os, s, t, h, hrun => by
    obtain ⟨u, hstep, hrest⟩ := run_cons_eq_some.mp hrun
    exact Reach.of_run hok (h.tail (hok s o) hstep) hrest

/-! ## 3. Every step of a history -/

/-- `P` holds of every operation of the history and the state it is issued in. -/
def Along (step : σ → ω → Option σ) (P : σ → ω → Prop) : σ → List ω → Prop
  | _, [] => True
  | s, o :: os => P s o ∧ ∀ t, step s o = some t → Along step P t os

/-- **Invariant rule for histories whose steps all meet a condition.** -/
theorem Along.inv {step : σ → ω → Option σ} {ok : σ → ω → Prop} {I : σ → Prop}
    (hstep : ∀ s o t, I s → ok s o → step s o = some t → I t) :
    ∀ {os : List ω} {s t : σ}, Along step ok s os → I s → run step s os = some t → I t
  | [], s, t, _, hs, h => by
    obtain rfl : s = t := by simpa using h
    exact hs
  | o :: os, s, t, ⟨hok, hrest⟩, hs, h => by
    obtain ⟨u, hu, h⟩ := run_cons_eq_some.mp h
    exact (hrest u hu).inv hstep (hstep s o u hs hok hu) h

/-- **Safety rule for such histories.**  What the invariant and the condition imply holds along the
history. -/
theorem Along.imp {step : σ → ω → Option σ} {ok P : σ → ω → Prop} {I : σ → Prop}
    (hP : ∀ s o, I s → ok s o → P s o) (hstep : ∀ s o t, I s → ok s o → step s o = some t → I t) :
    ∀ {os : List ω} {s : σ}, Along step ok s os → I s → Along step P s os
  | [], _, _, _ => trivial
  | o :: _, s, ⟨hok, hrest⟩, hs =>
    ⟨hP s o hs hok, fun t ht => (hrest t ht).imp hP hstep (hstep s o t hs hok ht)⟩

/-- What holds along a history holds where an operation of it is issued. -/
theorem Along.issued {step : σ → ω → Option σ} {P : σ → ω → Prop} :
    ∀ {xs ys : List ω} {o : ω} {s t : σ}, Along step P s (xs ++ o :: ys) → run step s xs = some t →
      P t o
  | [], _, _, s, t, ⟨hp, _⟩, h => by
    obtain rfl : s = t := by simpa using h
    exact hp
  | _ :: _, _, _, _, _, ⟨_, hrest⟩, h => by
    obtain ⟨u, hu, h⟩ := run_cons_eq_some.mp h
    exact (hrest u hu).issued h

/-- **Two properties of a history.**  If they are equivalent in every state that satisfies
`I`, and a step that has them keeps `I`, then a whole history has one exactly when it has
the other. -/
theorem along_iff {step : σ → ω → Option σ} {I : σ → Prop} {P Q : σ → ω → Prop}
    (heq : ∀ s o, I s → (P s o ↔ Q s o))
    (hstep : ∀ s o t, I s → Q s o → step s o = some t → I t) :
    ∀ (os : List ω) (s : σ), I s → (Along step P s os ↔ Along step Q s os)
  | [], _, _ => Iff.rfl
  | o :: os, s, hs => by
    constructor
    · rintro ⟨hp, hrest⟩
      have hq := (heq s o hs).mp hp
      exact ⟨hq, fun t ht => (along_iff heq hstep os t (hstep s o t hs hq ht)).mp (hrest t ht)⟩
    · rintro ⟨hq, hrest⟩
      exact ⟨(heq s o hs).mpr hq,
        fun t ht => (along_iff heq hstep os t (hstep s o t hs hq ht)).mpr (hrest t ht)⟩

theorem along_and {step : σ → ω → Option σ} {P Q : σ → ω → Prop} : ∀ (os : List ω) (s : σ),
    Along step (fun s o => P s o ∧ Q s o) s os ↔ Along step P s os ∧ Along step Q s os
  | [], _ => by simp [Along]
  | o :: os, s => by
    constructor
    · rintro ⟨⟨hp, hq⟩, hrest⟩
      exact ⟨⟨hp, fun t ht => ((along_and os t).mp (hrest t ht)).1⟩,
        ⟨hq, fun t ht => ((along_and os t).mp (hrest t ht)).2⟩⟩
    · rintro ⟨⟨hp, hp'⟩, ⟨hq, hq'⟩⟩
      exact ⟨⟨hp, hq⟩, fun t ht => (along_and os t).mpr ⟨hp' t ht, hq' t ht⟩⟩

/-- What is true of every operation is true along the history. -/
theorem along_of_forall {step : σ → ω → Option σ} {ok : ω → Prop} : ∀ {os : List ω} (s : σ),
    (∀ o ∈ os, ok o) → Along step (fun _ o => ok o) s os
  | [], _, _ => trivial
  | o :: _, _, h => ⟨h o List.mem_cons_self,
      fun t _ => along_of_forall t (fun o' ho' => h o' (List.mem_cons_of_mem _ ho'))⟩

/-- The same for a LEGAL history. -/
theorem along_iff_of_legal {step : σ → ω → Option σ} {I : σ → Prop} {ok P Q : σ → ω → Prop}
    (heq : ∀ s o, I s → ok s o → (P s o ↔ Q s o))
    (hstep : ∀ s o t, I s → ok s o → Q s o → step s o = some t → I t)
    {os : List ω} {s : σ} (hs : I s) (hok : Along step ok s os) :
    Along step P s os ↔ Along step Q s os := by
  have h := along_iff (P := fun s o => ok s o ∧ P s o) (Q := fun s o => ok s o ∧ Q s o)
    (fun s o hs => and_congr_right (heq s o hs))
    (fun s o t hs hq ht => hstep s o t hs hq.1 hq.2 ht) os s hs
  rw [along_and, along_and] at h
  exact ⟨fun hp => (h.mp ⟨hok, hp⟩).2, fun hq => (h.mpr ⟨hok, hq⟩).2⟩

/-- The same for two properties of the states a legal history goes through. -/
theorem along_after_iff {step : σ → ω → Option σ} {ok : σ → ω → Prop} {I P Q : σ → Prop}
    (hstep : ∀ s o t, I s → ok s o → step s o = some t → (P t ↔ Q t) ∧ (Q t → I t))
    {os : List ω} {s : σ} (hs : I s) (hok : Along step ok s os) :
    Along step (fun s o => ∀ t, step s o = some t → P t) s os ↔
      Along step (fun s o => ∀ t, step s o = some t → Q t) s os :=
  along_iff_of_legal
    (fun s o hs ho => forall_congr' fun t => imp_congr_right fun ht => (hstep s o t hs ho ht).1)
    (fun s o t hs ho hq ht => (hstep s o t hs ho ht).2 (hq t ht)) hs hok

/-- **Simulation rule.**  If every step that is legal for the abstract machine, which cannot fail, is
survived and keeps the two related, then so does every history. -/
theorem run_refine {τ : Type} {step : σ → ω → Option σ} {step' : τ → ω → τ} {R : σ → τ → Prop}
    {P : τ → ω → Prop}
    (hstep : ∀ s t o, R s t → P t o → ∃ s', step s o = some s' ∧ R s' (step' t o)) :
    ∀ (os : List ω) (s : σ) (t : τ), R s t → Along (fun t o => some (step' t o)) P t os →
      ∃ s', run step s os = some s' ∧ R s' (os.foldl step' t)
  | [], s, _, hR, _ => ⟨s, rfl, hR⟩
  | o :: os, s, t, hR, ⟨hok, hrest⟩ => by
    obtain ⟨s₁, h₁, hR₁⟩ := hstep s t o hR hok
    obtain ⟨s₂, h₂, hR₂⟩ := run_refine hstep os s₁ (step' t o) hR₁ (hrest _ rfl)
    exact ⟨s₂, run_cons_eq_some.mpr ⟨s₁, h₁, h₂⟩, hR₂⟩

/-! ## 4. Machines that answer -/

variable {τ ο : Type}

/-- The answers to the operations of a list, and the state after them. -/
def answers (step : σ → ω → Option (ο × σ)) : σ → List ω → Option (List ο × σ)
  | s, [] => some ([], s)
  | s, o :: os => (step s o).bind (fun r => (answers step r.2 os).map (fun rs => (r.1 :: rs.1, rs.2)))

/-- The same for a machine that always survives. -/
def ideal (step : τ → ω → ο × τ) : τ → List ω → List ο × τ
  | t, [] => ([], t)
  | t, o :: os => ((step t o).1 :: (ideal step (step t o).2 os).1, (ideal step (step t o).2 os).2)

/-- **Refinement rule.**  If every legal step is survived, keeps `I`, answers as the abstract machine
does and ends in a state that stands for the abstract machine's, then so does every legal history. -/
theorem answers_refine {step : σ → ω → Option (ο × σ)} {step' : τ → ω → ο × τ} {A : σ → τ}
    {I : σ → Prop} {P : τ → ω → Prop}
    (hstep : ∀ s o, I s → P (A s) o → ∃ s', step s o = some ((step' (A s) o).1, s') ∧ I s' ∧
      A s' = (step' (A s) o).2) :
    ∀ (os : List ω) (s : σ), I s → Along (fun t o => some (step' t o).2) P (A s) os →
      ∃ s', answers step s os = some ((ideal step' (A s) os).1, s') ∧ I s' ∧
        A s' = (ideal step' (A s) os).2
  | [], s, hs, _ => ⟨s, rfl, hs, rfl⟩
  | o :: os, s, hs, ⟨hok, hrest⟩ => by
    obtain ⟨s₁, h₁, hs₁, habs₁⟩ := hstep s o hs hok
    have hrest' := hrest _ rfl
    rw [← habs₁] at hrest'
    obtain ⟨s₂, h₂, hs₂, habs₂⟩ := answers_refine hstep os s₁ hs₁ hrest'
    refine ⟨s₂, ?_, hs₂, ?_⟩
    · simp only [answers, h₁, Option.bind_some, h₂, Option.map_some, ideal, habs₁]
    · rw [habs₂, ideal, habs₁]

end JarvOs.Lib
