/-
# Specifications of fallible code

`Ensures T x Q` is the specification of a computation `x : Option α` used where the same code is
needed in two strengths.  If `x` returns, what it returns satisfies `Q`; and if `T` holds, it does
return.  With `T := False` this is partial correctness, with `T := True` total correctness, and one
proof through the rules below gives both.

`Follows Q x y` compares two computations: whatever `x` returns, `y` returns something `Q` relates to
it.  With these rules a piece of code written over an abstract machine is carried from one machine to
another, step by step.
-/
import JarvOs.Lib.Trace

namespace JarvOs.Lib

variable {α β : Type} {T : Prop} {x : Option α} {Q R : α → Prop}

/-- A result satisfies `Q`; there is one if `T`. -/
def Ensures (T : Prop) (x : Option α) (Q : α → Prop) : Prop :=
  (∀ a, x = some a → Q a) ∧ (T → x.isSome)

theorem Ensures.ret {a : α} (h : Q a) : Ensures T (some a) Q :=
  ⟨fun _ hb => Option.some.inj hb ▸ h, fun _ => rfl⟩

/-- **Sequencing.** -/
theorem Ensures.bind {f : α → Option β} {Q' : β → Prop} (hx : Ensures T x Q)
    (hf : ∀ a, Q a → Ensures T (f a) Q') : Ensures T (x.bind f) Q' := by
  refine ⟨fun b hb => ?_, fun hT => ?_⟩
  · obtain ⟨a, ha, hfa⟩ := Option.bind_eq_some_iff.mp hb
    exact (hf a (hx.1 a ha)).1 b hfa
  · obtain ⟨a, ha⟩ := Option.isSome_iff_exists.mp (hx.2 hT)
    rw [ha, Option.bind_some]
    exact (hf a (hx.1 a ha)).2 hT

theorem Ensures.map {f : α → β} {Q' : β → Prop} (hx : Ensures T x Q) (hf : ∀ a, Q a → Q' (f a)) :
    Ensures T (x.map f) Q' := by
  rw [Option.map_eq_bind]
  exact hx.bind (fun a ha => .ret (hf a ha))

theorem Ensures.mono (hx : Ensures T x Q) (h : ∀ a, Q a → R a) : Ensures T x R :=
  ⟨fun a ha => h a (hx.1 a ha), hx.2⟩

theorem Ensures.and (hx : Ensures T x Q) (hx' : Ensures T x R) : Ensures T x (fun a => Q a ∧ R a) :=
  ⟨fun a ha => ⟨hx.1 a ha, hx'.1 a ha⟩, hx.2⟩

/-- A computation that is known to return. -/
theorem Ensures.of_eq {a : α} (hx : x = some a) (h : Q a) : Ensures T x Q := hx ▸ .ret h

theorem Ensures.total (hx : Ensures T x Q) (hT : T) : ∃ a, x = some a ∧ Q a := by
  obtain ⟨a, ha⟩ := Option.isSome_iff_exists.mp (hx.2 hT)
  exact ⟨a, ha, hx.1 a ha⟩

/-- Whatever `x` returns, `y` returns something related to it. -/
def Follows (Q : α → β → Prop) (x : Option α) (y : Option β) : Prop :=
  ∀ a, x = some a → ∃ b, y = some b ∧ Q a b

section Follows

variable {α' β' : Type} {y : Option β} {P : α → β → Prop} {P' : α' → β' → Prop}

theorem Follows.ret {a : α} {b : β} (h : P a b) : Follows P (some a) (some b) :=
  fun _ ha => ⟨b, rfl, Option.some.inj ha ▸ h⟩

theorem Follows.bind {f : α → Option α'} {g : β → Option β'} (hx : Follows P x y)
    (hf : ∀ a b, P a b → Follows P' (f a) (g b)) : Follows P' (x.bind f) (y.bind g) := by
  intro a' ha'
  obtain ⟨a, ha, hfa⟩ := Option.bind_eq_some_iff.mp ha'
  obtain ⟨b, rfl, hab⟩ := hx a ha
  exact hf a b hab a' hfa

theorem Follows.map {f : α → α'} {g : β → β'} (hx : Follows P x y)
    (hf : ∀ a b, P a b → P' (f a) (g b)) : Follows P' (x.map f) (y.map g) := by
  rw [Option.map_eq_bind, Option.map_eq_bind]
  exact hx.bind (fun a b hab => .ret (hf a b hab))

theorem Follows.ite {c : Prop} [Decidable c] {x' : Option α} {y' : Option β} (h : c → Follows P x y)
    (h' : ¬ c → Follows P x' y') : Follows P (if c then x else x') (if c then y else y') := by
  by_cases hc : c
  · rw [if_pos hc, if_pos hc]
    exact h hc
  · rw [if_neg hc, if_neg hc]
    exact h' hc

/-- Machines that follow each other step by step do so over whole runs. -/
theorem Follows.run {σ τ ω ω' : Type} {R : σ → τ → Prop} {step : σ → ω → Option σ}
    {step' : τ → ω' → Option τ} {f : ω → ω'}
    (hstep : ∀ {s t} o, R s t → Follows R (step s o) (step' t (f o))) :
    ∀ (os : List ω) {s : σ} {t : τ}, R s t → Follows R (run step s os) (run step' t (os.map f))
  | [], _, _, hst => .ret hst
  | o :: os, _, _, hst => (hstep o hst).bind (fun _ _ hst' => Follows.run hstep os hst')

end Follows

end JarvOs.Lib
