/-
# Timed waits (`hal_sleep_ms`, `hal_set_timer_frequency` in `kernel/hal.c`, `pit_set_frequency`)

`hal_set_timer_frequency` programs the chip with a divisor of its 1193180 Hz and records the frequency
it was ASKED for.  `hal_sleep_ms` computes a number of ticks from that record and halts until the
counter of `hal.c` has moved by as many.

A wait of `N` ticks takes at most `N + 1` periods of the divisor `D`.  So it is grossly short if
`(N + 1) * D / 1193180` seconds are less than half of what was asked for.  Rounding alone never does
that: the tick count is rounded down by less than one, which the `+ 1` makes up for, and the divisor by
less than half.  Two other things do.

* Below 19 Hz the divisor does not fit 16 bits and is clamped to 65535, which is 18.2 Hz, while the
  record keeps the lower frequency.  Down to 10 Hz that stays within the factor of two; below it does
  not.
* `ms * current_hz` is a 32-bit product.  Once it wraps the wait is short, except that up to 1000 below
  the second wrap, and for a frequency that divides the clock exactly, the factor of two may be met.

`timed_wait_iff` is the exact condition, over the whole plane of frequencies and times.
-/
import JarvOs.Drivers.Timer
import JarvOs.Lib.Word

namespace JarvOs.Drivers.Timer

open JarvOs.Lib

variable {κ : Type}

/-! ## 1. The code -/

/-- `PIT_CHANNEL0_DATA` -/
def pitChannel0Data : Nat := 0x40

/-- `PIT_COMMAND_PORT` -/
def pitCommandPort : Nat := 0x43

/-- The divisor `pit_set_frequency` computes; dividing by 0 is a fault. -/
def divisorFor (frequency : Nat) : Option Nat :=
  if frequency = 0 then none
  else
    let divisor := 1193180 / frequency
    let divisor := if divisor < 2 then 2 else divisor
    let divisor := if divisor > 65535 then 65535 else divisor
    some divisor

/-- `pit_set_frequency`: the calls of `outb`, as port and byte. -/
def pitSetFrequency (frequency : Nat) : Option (List (Nat × Nat)) := do
  let divisor ← divisorFor frequency
  some [(pitCommandPort, 0x36), (pitChannel0Data, divisor &&& 0xFF),
    (pitChannel0Data, (divisor >>> 8) &&& 0xFF)]

/-- `hal_set_timer_frequency`: the calls of `outb`, and `current_hz`. -/
def halSetTimerFrequency (hz : Nat) : Option (List (Nat × Nat) × Nat) := do
  let outs ← pitSetFrequency hz
  some (outs, hz)

/-- `ticks_needed` of `hal_sleep_ms`. -/
def ticksNeeded (currentHz ms : Nat) : Nat :=
  let ticks := mul32 ms currentHz / 1000
  if ticks = 0 then 1 else ticks

/-- The loop of `hal_sleep_ms`, while `os` happens: the part of `os` during which it has slept.  With
`none` it sleeps on. -/
def sleepLoop (target : BitVec 64) : Clock κ → List (Op κ) → Option (List (Op κ))
  | c, [] => if halGetTicks c < target then none else some []
  | c, o :: os =>
    if halGetTicks c < target then (sleepLoop target (step c o) os).map (o :: ·) else some []

/-- `hal_sleep_ms` -/
def halSleepMs (currentHz ms : Nat) (c : Clock κ) (os : List (Op κ)) : Option (List (Op κ)) :=
  sleepLoop (halGetTicks c + BitVec.ofNat 64 (ticksNeeded currentHz ms)) c os

/-- What channel 0 counts down from after these writes: mode 3, low byte, high byte. -/
def reload (outs : List (Nat × Nat)) : Option Nat :=
  match outs with
  | [(p, command), (q, lo), (r, hi)] =>
    if p = pitCommandPort ∧ command = 0x36 ∧ q = pitChannel0Data ∧ r = pitChannel0Data then
      some (lo + 256 * hi)
    else none
  | _ => none

/-! ## 2. The divisor and the ticks -/

theorem divisorFor_eq {hz : Nat} (hlo : 1 ≤ hz) (hhi : hz ≤ 596590) :
    divisorFor hz = some (min (1193180 / hz) 65535) := by
  have htwo : 2 ≤ 1193180 / hz := (Nat.le_div_iff_mul_le (by omega)).mpr (by omega)
  rw [divisorFor, if_neg (by omega)]
  simp only [if_neg (not_lt.mpr htwo), Option.some.injEq]
  split
  · omega
  · omega

/-- The two bytes make up the divisor. -/
theorem reload_pitSetFrequency {hz d : Nat} (h : divisorFor hz = some d) (hd : d ≤ 65535) :
    ∃ outs, halSetTimerFrequency hz = some (outs, hz) ∧ reload outs = some d := by
  refine ⟨_, by rw [halSetTimerFrequency, pitSetFrequency, h]; rfl, ?_⟩
  simp only [reload, if_true, and_self, Option.some.injEq, Nat.shiftRight_eq_div_pow]
  rw [show (0xFF : Nat) = 2 ^ 8 - 1 from rfl, Nat.and_two_pow_sub_one_eq_mod,
    Nat.and_two_pow_sub_one_eq_mod]
  omega

theorem ticksNeeded_eq (hz ms : Nat) : ticksNeeded hz ms = max 1 (ms * hz % 2 ^ 32 / 1000) := by
  by_cases h0 : mul32 ms hz / 1000 = 0
  · simp only [ticksNeeded, if_pos h0]
    rw [← mul32, h0]
    rfl
  · simp only [ticksNeeded, if_neg h0]
    rw [← mul32, max_eq_right (Nat.pos_of_ne_zero h0)]

theorem interrupts_cons (o : Op κ) (os : List (Op κ)) :
    interrupts (o :: os) = interrupts [o] + interrupts os := by
  cases o with
  | irq0 => exact Nat.add_comm _ _
  | setCallback callback => exact (Nat.zero_add _).symm
  | pitTicks => exact (Nat.zero_add _).symm
  | halTicks => exact (Nat.zero_add _).symm

theorem interrupts_singleton_le (o : Op κ) : interrupts [o] ≤ 1 := by
  cases o with
  | irq0 => exact le_refl 1
  | setCallback callback => exact Nat.zero_le 1
  | pitTicks => exact Nat.zero_le 1
  | halTicks => exact Nat.zero_le 1

/-- The counter of `hal.c` after one operation, if it does not wrap. -/
theorem halGetTicks_step (c : Clock κ) (o : Op κ) (h : (halGetTicks c).toNat + 1 < 2 ^ 64) :
    (halGetTicks (step c o)).toNat = (halGetTicks c).toNat + interrupts [o] := by
  have hle := interrupts_singleton_le o
  have hstep := (foldl_step [o] c).2.1
  rw [List.foldl_cons, List.foldl_nil] at hstep
  simp only [halGetTicks] at h ⊢
  rw [hstep, BitVec.toNat_add, BitVec.toNat_ofNat,
    Nat.mod_eq_of_lt (by omega : interrupts [o] < 2 ^ 64), Nat.mod_eq_of_lt (by omega)]

/-- The loop has waited long enough. -/
theorem sleepLoop_stop {target : BitVec 64} {c : Clock κ} (h : (halGetTicks c).toNat = target.toNat)
    (os : List (Op κ)) : sleepLoop target c os = some [] := by
  have hnot : ¬ halGetTicks c < target := by
    rw [BitVec.lt_def]
    omega
  cases os with
  | nil => rw [sleepLoop, if_neg hnot]
  | cons o os => rw [sleepLoop, if_neg hnot]

/-- **Halting until the counter has moved by `n`**: when the loop ends there have been `n` timer
interrupts, and with `n` timer interrupts it ends. -/
theorem sleepLoop_waits (target : BitVec 64) (os : List (Op κ)) : ∀ (c : Clock κ) (n : Nat),
    (halGetTicks c).toNat + n = target.toNat →
    (∀ slept, sleepLoop target c os = some slept → interrupts slept = n) ∧
      (n ≤ interrupts os → (sleepLoop target c os).isSome) := by
  have hwrap := target.isLt
  induction os with
  | nil =>
    rintro c (_ | n) hn
    · rw [sleepLoop_stop hn]
      exact ⟨fun slept h => Option.some.inj h ▸ rfl, fun _ => rfl⟩
    · rw [sleepLoop, if_pos (by rw [BitVec.lt_def]; omega)]
      exact ⟨fun slept h => absurd h (by simp), fun hle => absurd hle (Nat.not_succ_le_zero n)⟩
  | cons o os ih =>
    rintro c (_ | n) hn
    · rw [sleepLoop_stop hn]
      exact ⟨fun slept h => Option.some.inj h ▸ rfl, fun _ => rfl⟩
    · have hone := interrupts_singleton_le o
      obtain ⟨hslept, hreturns⟩ := ih (step c o) (n + 1 - interrupts [o]) (by
        rw [halGetTicks_step c o (by omega)]
        omega)
      rw [sleepLoop, if_pos (by rw [BitVec.lt_def]; omega)]
      refine ⟨fun slept h => ?_, fun hle => ?_⟩
      · obtain ⟨rest, hrest, rfl⟩ := Option.map_eq_some_iff.mp h
        rw [interrupts_cons, hslept rest hrest]
        omega
      · rw [interrupts_cons] at hle
        rw [Option.isSome_map]
        exact hreturns (by omega)

/-- **`hal_sleep_ms` waits for `ticks_needed` ticks**, before the 64-bit counter wraps. -/
theorem halSleepMs_waits (hz ms : Nat) (c : Clock κ) (os : List (Op κ))
    (hc : (halGetTicks c).toNat + 2 ^ 32 ≤ 2 ^ 64) :
    (∀ slept, halSleepMs hz ms c os = some slept → interrupts slept = ticksNeeded hz ms) ∧
      (ticksNeeded hz ms ≤ interrupts os → (halSleepMs hz ms c os).isSome) := by
  have hlt : ticksNeeded hz ms < 2 ^ 32 := by
    rw [ticksNeeded_eq]
    omega
  refine sleepLoop_waits _ os c _ ?_
  rw [BitVec.toNat_add, BitVec.toNat_ofNat, Nat.mod_eq_of_lt (by omega : ticksNeeded hz ms < 2 ^ 64),
    Nat.mod_eq_of_lt (by omega)]

/-! ## 3. How long that is -/

/-- `(N + 1) * D / 1193180` seconds are at least half of `ms / 1000` seconds. -/
def LongEnough (ms N D : Nat) : Prop := (ms : ℚ) / 1000 / 2 ≤ ((N : ℚ) + 1) * D / 1193180

theorem longEnough_iff (ms N D : Nat) : LongEnough ms N D ↔ ms * 1193180 ≤ 2000 * (N + 1) * D := by
  rw [LongEnough, div_div, div_le_div_iff₀ (by norm_num) (by norm_num)]
  rw [show (1000 : ℚ) * 2 = 2000 by norm_num]
  norm_cast
  rw [show (N + 1) * D * 2000 = 2000 * (N + 1) * D by ring]

/-- The frequency times the divisor falls short of the clock. -/
theorem mul_divisor_le (hz : Nat) : hz * min (1193180 / hz) 65535 ≤ 1193180 :=
  (Nat.mul_le_mul_left hz (min_le_left _ _)).trans (Nat.mul_div_le 1193180 hz)

/-- From 10 Hz on by a factor of less than two: unclamped because the divisor is at least 1, and
clamped because 65535 is. -/
theorem le_two_mul_divisor {hz : Nat} (hlo : 10 ≤ hz) (hhi : hz ≤ 596590) :
    1193180 ≤ 2 * (hz * min (1193180 / hz) 65535) := by
  rcases le_total (1193180 / hz) 65535 with hle | hle
  · rw [min_eq_left hle]
    have hone : 1 ≤ 1193180 / hz := (Nat.le_div_iff_mul_le (by omega)).mpr (by omega)
    have hsum := Nat.div_add_mod 1193180 hz
    have hmod := Nat.mod_lt 1193180 (show hz > 0 by omega)
    have hmul := Nat.mul_le_mul_left hz hone
    omega
  · rw [min_eq_right hle]
    omega

/-- A product of time and frequency just below its second wrap. -/
def BelowSecondWrap (x : Nat) : Prop :=
  (2 ^ 32 + 4294966000 ≤ x ∧ x ≤ 2 ^ 32 + 4294966704) ∨ (2 ^ 32 + 4294967000 ≤ x ∧ x < 2 ^ 33)

instance (x : Nat) : Decidable (BelowSecondWrap x) := inferInstanceAs (Decidable (_ ∨ _))

/-- **When a wait is long enough.**  Below 10 Hz the clamped divisor has to make up for it; otherwise the
product must not wrap, or else nearly twice, with a divisor that is exact. -/
def WaitsLongEnough (hz ms : Nat) : Prop :=
  if hz < 10 then ms * 1193180 ≤ 2000 * (max 1 (ms * hz / 1000) + 1) * 65535
  else ms * hz < 2 ^ 32 ∨ (19 ≤ hz ∧ hz ∣ 1193180 ∧ BelowSecondWrap (ms * hz))

/-- Without wrapping, both roundings stay within the factor of two. -/
theorem longEnough_of_lt {hz ms D : Nat} (hD : 1193180 ≤ 2 * (hz * D)) (hx : ms * hz < 2 ^ 32) :
    ms * 1193180 ≤ 2000 * (ticksNeeded hz ms + 1) * D := by
  have hN : ms * hz ≤ 1000 * (ticksNeeded hz ms + 1) := by
    rw [ticksNeeded_eq, Nat.mod_eq_of_lt hx]
    omega
  calc ms * 1193180 ≤ ms * (2 * (hz * D)) := Nat.mul_le_mul_left ms hD
    _ = 2 * (ms * hz) * D := by ring
    _ ≤ 2 * (1000 * (ticksNeeded hz ms + 1)) * D := by gcongr
    _ = 2000 * (ticksNeeded hz ms + 1) * D := by ring

/-- With wrapping, multiply by the frequency: the inequality is one about the product. -/
theorem longEnough_iff_of_le {hz ms D : Nat} (hhz : 0 < hz) (hD : hz * D ≤ 1193180)
    (hx : 2 ^ 32 ≤ ms * hz) :
    ms * 1193180 ≤ 2000 * (ticksNeeded hz ms + 1) * D ↔
      hz * D = 1193180 ∧ BelowSecondWrap (ms * hz) := by
  have hscale : ms * 1193180 ≤ 2000 * (ticksNeeded hz ms + 1) * D ↔
      ms * hz * 1193180 ≤ 2000 * (ticksNeeded hz ms + 1) * (hz * D) := by
    rw [← Nat.mul_le_mul_left_iff hhz]
    constructor
    · intro h
      linarith
    · intro h
      linarith
  rw [hscale, ticksNeeded_eq]
  generalize ms * hz = x at hx ⊢
  generalize hN : max 1 (x % 2 ^ 32 / 1000) = N
  unfold BelowSecondWrap
  constructor
  · intro h
    have hexact : hz * D = 1193180 := by
      by_contra hne
      have hle : 2000 * (N + 1) * (hz * D) ≤ 2000 * (N + 1) * 1193179 :=
        Nat.mul_le_mul_left _ (by omega)
      omega
    rw [hexact] at h
    exact ⟨hexact, by omega⟩
  · rintro ⟨hexact, hx⟩
    rw [hexact]
    omega

/-- An unclamped divisor is exact if the frequency divides the clock. -/
theorem mul_divisor_eq_iff {hz : Nat} (hlo : 10 ≤ hz) :
    hz * min (1193180 / hz) 65535 = 1193180 ↔ 19 ≤ hz ∧ hz ∣ 1193180 := by
  constructor
  · intro h
    have hdvd : hz ∣ 1193180 := ⟨_, h.symm⟩
    refine ⟨?_, hdvd⟩
    by_contra hlt
    have hle : hz * min (1193180 / hz) 65535 ≤ hz * 65535 := Nat.mul_le_mul_left hz (min_le_right _ _)
    omega
  · rintro ⟨h19, hdvd⟩
    have hle : 1193180 / hz ≤ 65535 := by
      refine Nat.le_of_lt_succ ((Nat.div_lt_iff_lt_mul (by omega)).mpr ?_)
      omega
    rw [min_eq_left hle, Nat.mul_div_cancel' hdvd]

/-- Below 10 Hz a wait is short long before the product wraps. -/
theorem longEnough_slow {hz ms : Nat} (hhi : hz < 10) :
    ms * 1193180 ≤ 2000 * (ticksNeeded hz ms + 1) * 65535 ↔
      ms * 1193180 ≤ 2000 * (max 1 (ms * hz / 1000) + 1) * 65535 := by
  have hnine : ms * hz ≤ ms * 9 := Nat.mul_le_mul_left ms (by omega)
  rw [ticksNeeded_eq]
  generalize ms * hz = x at hnine ⊢
  rcases Nat.lt_or_ge x (2 ^ 32) with hx | hx
  · rw [Nat.mod_eq_of_lt hx]
  · exact iff_of_false (by omega) (by omega)

/-- **Timed waits.**  For every frequency from 1 to 596590 Hz and every time in 32 bits there are the
divisor that is programmed and the number of ticks that are waited for, whatever happens in the
meantime, and together they are long enough exactly under the condition above. -/
theorem timed_wait_iff (hz ms : Nat) (hlo : 1 ≤ hz) (hhi : hz ≤ 596590) :
    ∃ outs D N, halSetTimerFrequency hz = some (outs, hz) ∧ reload outs = some D ∧
      (∀ (c : Clock κ) (os : List (Op κ)), (halGetTicks c).toNat + 2 ^ 32 ≤ 2 ^ 64 →
        (∀ slept, halSleepMs hz ms c os = some slept → interrupts slept = N) ∧
          (N ≤ interrupts os → (halSleepMs hz ms c os).isSome)) ∧
      (LongEnough ms N D ↔ WaitsLongEnough hz ms) := by
  obtain ⟨outs, hset, hreload⟩ := reload_pitSetFrequency (divisorFor_eq hlo hhi) (min_le_right _ _)
  refine ⟨outs, _, ticksNeeded hz ms, hset, hreload, halSleepMs_waits hz ms, ?_⟩
  rw [longEnough_iff, WaitsLongEnough]
  split
  · next hslow =>
    have hclamped : min (1193180 / hz) 65535 = 65535 := by
      refine min_eq_right ((Nat.le_div_iff_mul_le (by omega)).mpr ?_)
      omega
    rw [hclamped]
    exact longEnough_slow hslow
  · next hfast =>
    have h10 : 10 ≤ hz := by omega
    rcases Nat.lt_or_ge (ms * hz) (2 ^ 32) with hx | hx
    · exact iff_of_true (longEnough_of_lt (le_two_mul_divisor h10 hhi) hx) (Or.inl hx)
    · rw [longEnough_iff_of_le (by omega) (mul_divisor_le hz) hx, mul_divisor_eq_iff h10, and_assoc]
      exact (or_iff_right (not_lt.mpr hx)).symm

/-- Ten seconds at the frequency the kernel sets. -/
theorem timed_wait_ten_seconds : ∃ outs D N, halSetTimerFrequency 100 = some (outs, 100) ∧
    reload outs = some D ∧ LongEnough 10000 N D := by
  obtain ⟨outs, D, N, hset, hreload, -, hlong⟩ :=
    timed_wait_iff (κ := Unit) 100 10000 (by decide) (by decide)
  exact ⟨outs, D, N, hset, hreload, hlong.mpr (Or.inl (by decide))⟩

/-- **Waits that are far too short.**  At 100 Hz, twelve hours are over at the first tick: the product is
2^32 + 4.  At 1 Hz, a second is over at the first tick too, which comes after 55 ms. -/
theorem wait_over_at_first_tick :
    halSetTimerFrequency 100 = some ([(0x43, 0x36), (0x40, 0x9B), (0x40, 0x2E)], 100) ∧
    halSleepMs 100 42949673 (boot (κ := Unit)) [.irq0, .irq0] = some [.irq0] ∧
    ¬ LongEnough 42949673 1 0x2E9B ∧
    halSetTimerFrequency 1 = some ([(0x43, 0x36), (0x40, 0xFF), (0x40, 0xFF)], 1) ∧
    halSleepMs 1 1000 (boot (κ := Unit)) [.irq0, .irq0] = some [.irq0] ∧
    ¬ LongEnough 1000 1 0xFFFF := by
  refine ⟨by decide, rfl, ?_, by decide, rfl, ?_⟩
  · rw [longEnough_iff]
    decide
  · rw [longEnough_iff]
    decide

end JarvOs.Drivers.Timer
