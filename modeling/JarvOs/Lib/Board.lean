/-
# Priority scheduling

Tasks wait on one list for each level, others sleep, and one has the CPU.  A TICK wakes the sleepers
whose time has come, puts the task that had the CPU where it belongs, and gives the CPU to the first
task of the highest level that has any.

This is the policy alone, over any type of levels and of tasks.  A scheduler that keeps its tasks in
linked lists refines it if every tick does to the lists what `Board.tick` does.  `Board.tick_turn` is
the step of round robin: as long as nothing comes in from elsewhere, the level of the running task goes
round.  `Board.idle_alone` is about the task that should run last: on a level of its own, below all others,
it does.
-/
import Mathlib

namespace JarvOs.Lib

/-! ## 1. A tick -/

/-- Who waits on which level, who sleeps, and who has the CPU. -/
structure Board (ρ α : Type) where
  ready : ρ → List α
  sleep : List α
  current : Option α

/-- The levels from the highest to the lowest, the level of each task, and the task that has the CPU
when nobody else can use it. -/
structure Policy (ρ α : Type) where
  levels : List ρ
  level : α → ρ
  idle : α

/-- What becomes of the task that had the CPU: it goes on, it sleeps, or it is not scheduled again. -/
inductive Fate
  | runs | sleeps | gone
deriving DecidableEq, Repr

/-- What a tick finds: whose time has come, and the fate of the task that had the CPU. -/
structure Moment (α : Type) where
  due : α → Bool
  fate : Fate

namespace Board

variable {ρ α : Type} [DecidableEq ρ]

/-- A level when the tick chooses: who waited there, the sleepers that are due in their order, and last
the task that had the CPU. -/
def queue (P : Policy ρ α) (b : Board ρ α) (m : Moment α) (q : ρ) : List α :=
  b.ready q ++ (b.sleep.filter m.due).filter (fun x => P.level x = q) ++
    if m.fate = .runs then b.current.toList.filter (fun x => P.level x = q) else []

/-- Who sleeps after the tick: the task that had the CPU if it has gone to sleep, and the sleepers that
are not due. -/
def asleep (b : Board ρ α) (m : Moment α) : List α :=
  (if m.fate = .sleeps then b.current.toList else []) ++ b.sleep.filter (fun x => !m.due x)

/-- The highest level somebody waits on. -/
def top (P : Policy ρ α) (b : Board ρ α) (m : Moment α) : Option ρ :=
  P.levels.find? (fun q => !(b.queue P m q).isEmpty)

/-- **A tick.** -/
def tick (P : Policy ρ α) (b : Board ρ α) (m : Moment α) : Board ρ α :=
  match b.top P m with
  | some q => ⟨Function.update (b.queue P m) q (b.queue P m q).tail, b.asleep m,
      (b.queue P m q).head?⟩
  | none => ⟨b.queue P m, b.asleep m, some P.idle⟩

/-! ## 2. Round robin -/

section Turn

variable {P : Policy ρ α} {b : Board ρ α} {m : Moment α} {p : ρ} {c y : α} {hi lo : List ρ}
  {ys : List α}

/-- With nobody due, only the level of the running task changes before the choice. -/
theorem queue_turn (hfate : m.fate = .runs) (hdue : ∀ x ∈ b.sleep, m.due x = false)
    (hcur : b.current = some c) (q : ρ) :
    b.queue P m q = if P.level c = q then b.ready q ++ [c] else b.ready q := by
  have hnone : b.sleep.filter m.due = [] :=
    List.filter_eq_nil_iff.mpr (fun x hx => by simp [hdue x hx])
  rw [queue, hnone, hfate, hcur, if_pos rfl, Option.toList_some]
  rcases eq_or_ne (P.level c) q with heq | hne
  · simp [heq]
  · simp [hne]

/-- The level of the running task is the highest if nobody waits above it. -/
theorem top_turn (hlevels : P.levels = hi ++ p :: lo) (habove : ∀ q ∈ hi, q ≠ p ∧ b.ready q = [])
    (hfate : m.fate = .runs) (hdue : ∀ x ∈ b.sleep, m.due x = false) (hcur : b.current = some c)
    (hlevel : P.level c = p) : b.top P m = some p := by
  have hqueue := queue_turn (P := P) hfate hdue hcur
  have hp : b.queue P m p = b.ready p ++ [c] := by rw [hqueue p, if_pos hlevel]
  rw [top, hlevels, List.find?_append, List.find?_cons_of_pos (by simp [hp]),
    Option.or_eq_some_iff]
  refine Or.inr ⟨List.find?_eq_none.mpr (fun q hq => ?_), rfl⟩
  rw [hqueue q, if_neg (fun heq => (habove q hq).1 (heq.symm.trans hlevel)), (habove q hq).2]
  simp

/-- **The turn of the next one.**  The running task goes to the end of its level and the first of that
level has the CPU, if no higher level has anybody and nobody is due. -/
theorem tick_turn (htop : b.top P m = some p) (hfate : m.fate = .runs)
    (hdue : ∀ x ∈ b.sleep, m.due x = false) (hcur : b.current = some c)
    (hlevel : P.level c = p) (hring : b.ready p ++ [c] = y :: ys) :
    b.tick P m = ⟨Function.update b.ready p ys, b.sleep, some y⟩ := by
  have hqueue := queue_turn (P := P) hfate hdue hcur
  have hp : b.queue P m p = y :: ys := by rw [hqueue p, if_pos hlevel, hring]
  have hsleep : b.asleep m = b.sleep := by
    rw [asleep, hfate, if_neg (by decide), List.nil_append, List.filter_eq_self]
    exact fun x hx => by simp [hdue x hx]
  have hready : Function.update (b.queue P m) p ys = Function.update b.ready p ys := by
    funext q
    rcases eq_or_ne q p with rfl | hq
    · rw [Function.update_self, Function.update_self]
    · rw [Function.update_of_ne hq, Function.update_of_ne hq, hqueue q,
        if_neg (fun heq => hq (heq.symm.trans hlevel))]
  simp only [tick, htop, hp, hsleep, List.tail_cons, List.head?_cons, hready]

end Turn

/-! ## 3. The idle task -/

/-- **The idle task waits for all others** if its level is the lowest and nobody else is on it: when a
tick gives it the CPU, nobody is left on any level. -/
theorem idle_alone {P : Policy ρ α} {b : Board ρ α} {m : Moment α} {hi : List ρ} {lo : ρ}
    (hlevels : P.levels = hi ++ [lo]) (hlast : lo ∉ hi) (hall : ∀ q, q ∈ P.levels)
    (hlevel : P.level P.idle = lo)
    (hqueue : ∀ q, ∀ x ∈ b.queue P m q, P.level x = q)
    (hlow : ∀ x ∈ b.queue P m lo, x = P.idle) (hidle : (b.tick P m).current = some P.idle) (q : ρ) :
    ∀ x ∈ (b.tick P m).ready q, x = P.idle := by
  unfold tick at hidle ⊢
  cases htop : b.top P m with
  | none =>
    have hnil : (b.queue P m q).isEmpty := by
      simpa using List.find?_eq_none.mp htop q (hall q)
    simp [List.isEmpty_iff.mp hnil]
  | some p =>
    simp only [htop] at hidle ⊢
    obtain rfl : p = lo := by
      rw [← hqueue p P.idle (List.mem_of_mem_head? hidle), hlevel]
    -- the search for the highest level has passed all of `hi`
    have hempty : ∀ r ∈ hi, b.queue P m r = [] := by
      rw [top, hlevels, List.find?_append, Option.or_eq_some_iff] at htop
      rcases htop with htop | ⟨hnone, -⟩
      · exact absurd (List.mem_of_find?_eq_some htop) hlast
      · intro r hr
        simpa using List.find?_eq_none.mp hnone r hr
    intro x hx
    rcases eq_or_ne q p with rfl | hq
    · rw [Function.update_self] at hx
      exact hlow x (List.mem_of_mem_tail hx)
    · rw [Function.update_of_ne hq, hempty q ?_] at hx
      · exact absurd hx List.not_mem_nil
      · have hmem := hall q
        rw [hlevels, List.mem_append, List.mem_singleton] at hmem
        exact hmem.resolve_right hq

end Board

end JarvOs.Lib
