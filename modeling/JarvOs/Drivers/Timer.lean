/-
# The two clocks (`kernel/drivers/pit.c`, `kernel/hal.c`, `irq0_handler` in `kernel/core/idt.c`)

There are two variables `tick_count` and two variables `timer_callback`.  Those of `hal.c` have external
linkage, and the `extern` declarations inside `irq0_handler` name them.  Those of `pit.c` are `static`:
`pit_get_ticks`, `pit_set_callback` and `pit_handler` use these, and `pit_handler` is called from
nowhere.  So the interrupts count in one place and callbacks are registered in the other.

`scheduler_tick`, which `irq0_handler` calls in between, reads the counter of `hal.c` and writes none of
the four; `timer_int_callback` counts for debugging in a variable of its own.
-/
import Mathlib.Data.List.Basic

namespace JarvOs.Drivers.Timer

/-! ## 1. The code -/

/-- The four variables, over any type of callbacks (`none` is `NULL`), and for each timer interrupt so
far the callbacks it has invoked. -/
structure Clock (κ : Type) where
  halTickCount : BitVec 64
  halTimerCallback : Option κ
  pitTickCount : BitVec 64
  pitTimerCallback : Option κ
  invoked : List (List κ)

variable {κ : Type}

/-- `irq0_handler` -/
def irq0Handler (c : Clock κ) : Clock κ :=
  { c with
    halTickCount := c.halTickCount + 1
    invoked := c.invoked ++ [c.halTimerCallback.toList] }

/-- `pit_handler`, which nothing calls. -/
def pitHandler (c : Clock κ) : Clock κ :=
  { c with
    pitTickCount := c.pitTickCount + 1
    invoked := c.invoked ++ [c.pitTimerCallback.toList] }

/-- `pit_set_callback` -/
def pitSetCallback (c : Clock κ) (callback : Option κ) : Clock κ :=
  { c with pitTimerCallback := callback }

/-- `pit_get_ticks` -/
def pitGetTicks (c : Clock κ) : BitVec 64 := c.pitTickCount

/-- `hal_get_ticks` -/
def halGetTicks (c : Clock κ) : BitVec 64 := c.halTickCount

/-- The variables as they are initialised. -/
def boot : Clock κ := ⟨0, none, 0, none, []⟩

/-- `hal_timer_init`, the part of `hal_init` that touches them. -/
def halTimerInit (c : Clock κ) : Clock κ := pitSetCallback c none

/-- A timer interrupt, a registration, a query of either clock. -/
inductive Op (κ : Type)
  | irq0
  | setCallback (callback : Option κ)
  | pitTicks
  | halTicks

/-- One operation; the queries change nothing. -/
def step (c : Clock κ) : Op κ → Clock κ
  | .irq0 => irq0Handler c
  | .setCallback callback => pitSetCallback c callback
  | .pitTicks => c
  | .halTicks => c

/-- The clock after a history. -/
def after (os : List (Op κ)) : Clock κ := os.foldl step (halTimerInit boot)

/-! ## 2. What was asked for -/

/-- The timer interrupts of a history. -/
def interrupts : List (Op κ) → Nat
  | [] => 0
  | .irq0 :: os => interrupts os + 1
  | _ :: os => interrupts os

/-- For each timer interrupt of a history the callback registered last, where `current` was registered
before it. -/
def registered (current : Option κ) : List (Op κ) → List (List κ)
  | [] => []
  | .irq0 :: os => current.toList :: registered current os
  | .setCallback callback :: os => registered callback os
  | _ :: os => registered current os

/-- Both clocks count the timer interrupts, and each interrupt invokes the callback registered last. -/
def OneClock (os : List (Op κ)) : Prop :=
  (pitGetTicks (after os)).toNat = interrupts os ∧ (halGetTicks (after os)).toNat = interrupts os ∧
    (after os).invoked = registered none os

/-! ## 3. What happens -/

theorem registered_length (os : List (Op κ)) : ∀ current : Option κ,
    (registered current os).length = interrupts os := by
  induction os with
  | nil => exact fun _ => rfl
  | cons o os ih =>
    intro current
    cases o with
    | irq0 => exact congrArg (· + 1) (ih current)
    | setCallback callback => exact ih callback
    | pitTicks => exact ih current
    | halTicks => exact ih current

/-- **A history from any clock**: the counter of `hal.c` moves with the interrupts, that of `pit.c`
stands still, and every interrupt invokes the callback of `hal.c`, which no operation sets. -/
theorem foldl_step (os : List (Op κ)) : ∀ c : Clock κ,
    (os.foldl step c).pitTickCount = c.pitTickCount ∧
    (os.foldl step c).halTickCount = c.halTickCount + BitVec.ofNat 64 (interrupts os) ∧
    (os.foldl step c).invoked = c.invoked ++ List.replicate (interrupts os)
      c.halTimerCallback.toList := by
  induction os with
  | nil =>
    intro c
    simp [interrupts]
  | cons o os ih =>
    intro c
    obtain ⟨hpit, hhal, hinv⟩ := ih (step c o)
    rw [List.foldl_cons, hpit, hhal, hinv]
    cases o with
    | irq0 =>
      refine ⟨rfl, ?_, ?_⟩
      · rw [interrupts, BitVec.ofNat_add, step, irq0Handler, BitVec.add_assoc,
          BitVec.add_comm (BitVec.ofNat 64 (interrupts os))]
        rfl
      · rw [interrupts, List.replicate_succ, step, irq0Handler, List.append_assoc]
        rfl
    | setCallback callback => exact ⟨rfl, rfl, rfl⟩
    | pitTicks => exact ⟨rfl, rfl, rfl⟩
    | halTicks => exact ⟨rfl, rfl, rfl⟩

/-- The clock that is read by `pit_get_ticks` stands still. -/
theorem pitGetTicks_after (os : List (Op κ)) : pitGetTicks (after os) = 0 :=
  (foldl_step os _).1

/-- The clock that is read by `hal_get_ticks` counts, modulo 2^64. -/
theorem halGetTicks_after (os : List (Op κ)) :
    halGetTicks (after os) = BitVec.ofNat 64 (interrupts os) := by
  rw [halGetTicks, after, (foldl_step os _).2.1]
  exact BitVec.zero_add _

/-- No timer interrupt invokes anything. -/
theorem invoked_after (os : List (Op κ)) :
    (after os).invoked = List.replicate (interrupts os) [] := (foldl_step os _).2.2

/-- **When there is one clock**: exactly as long as no timer interrupt has come. -/
theorem one_clock_iff (os : List (Op κ)) : OneClock os ↔ interrupts os = 0 := by
  rw [OneClock, pitGetTicks_after, halGetTicks_after, invoked_after]
  constructor
  · rintro ⟨hpit, -, -⟩
    exact hpit.symm
  · intro h0
    have hnone : registered none os = [] := by
      rw [← List.length_eq_zero_iff, registered_length, h0]
    rw [h0, hnone]
    exact ⟨rfl, rfl, rfl⟩

/-- **One interrupt with a callback registered**: the clocks differ, and nothing is invoked. -/
theorem callback_never_invoked :
    (after [.setCallback (some ()), .irq0]).invoked = [[]] ∧
    registered none [.setCallback (some ()), .irq0] = [[()]] ∧
    pitGetTicks (after [.setCallback (some ()), .irq0]) = 0 ∧
    halGetTicks (after [.setCallback (some ()), .irq0]) = 1 ∧
    ¬ OneClock [.setCallback (some ()), .irq0] := by
  refine ⟨rfl, rfl, rfl, rfl, ?_⟩
  rintro ⟨hpit, -, -⟩
  exact absurd hpit (by decide)

end JarvOs.Drivers.Timer
