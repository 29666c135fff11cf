/-
# When a sleeper wakes (`scheduler_sleep_current`, `check_sleepers`)

The deadline is computed from the 64-bit `tick_count`, kept in the 32-bit `wake_tick`, and compared with
`tick_count` again.  What `check_sleepers` does with it is settled first, and exactly: the interrupt
after the call finds the process still current and only puts it on the sleep list; from then on it is
moved to its ready queue at the FIRST interrupt that finds `wake_tick <= tick_count`, and never again
(`asleep_along`).

Whether that is too early is then a question about numbers (`firstDue_iff`).  It is not as long as the
deadline fits into 32 bits.  Past that the process wakes at once, two ticks after the call, which is
early unless it had asked for no more.
-/
import JarvOs.Process.RoundRobin

namespace JarvOs.Process

open JarvOs.Lib JarvOs.Memory

variable {s : Sched} {ls : Lists} {k k' : Kernel} {p c : Proc} {W T D ticks τ : Nat}

/-! ## 1. Moved to a ready queue -/

/-- `check_sleepers` puts `p` on a ready queue. -/
def Moved (s : Sched) (p : Proc) : Prop :=
  ∃ s' q, s.checkSleepers = some s' ∧ s'.OnList (s'.head (.ready q)) p ∧
    ∀ q, ¬ s.OnList (s.head (.ready q)) p

theorem moved_iff (h : Placed s ls) : Moved s p ↔ p ∈ ls .sleep ∧ s.due p = true := by
  obtain ⟨s', ls', hrun, h', -, hl⟩ := checkSleepers_spec h
  constructor
  · rintro ⟨_, q, hs, hon, hnot⟩
    obtain rfl := Option.some.inj (hrun.symm.trans hs)
    rw [h'.onList_iff (by simp), hl.ready, List.mem_append, ← h.onList_iff (by simp)] at hon
    have hmem := List.mem_of_mem_filter (hon.resolve_left (hnot q))
    exact List.mem_filter.mp hmem
  · rintro ⟨hp, hdue⟩
    refine ⟨s', (s.pcb p).priority, hrun, ?_, fun q hon => ?_⟩
    · rw [h'.onList_iff (by simp), hl.ready]
      exact List.mem_append_right _ (List.mem_filter.mpr ⟨List.mem_filter.mpr ⟨hp, hdue⟩, by simp⟩)
    · rw [h.onList_iff (by simp)] at hon
      exact h.exclusive.not_mem hp (by simp) hon

/-- If the interrupt that finds the kernel in this state moves `p`, it does not do so before `D`. -/
def NotEarly (p : Proc) (D : Nat) (k : Kernel) (_ : Nat × Nat) : Prop :=
  Moved k.sched.timerTick p → D ≤ k.sched.timerTick.tickCount

/-! ## 2. One interrupt -/

/-- The scheduler's invariant, with the process that has the CPU as the current one. -/
structure Serving (k : Kernel) (c : Proc) (ls : Lists) : Prop extends SchedInv k.sched c ls where
  current : k.sched.current = some c

/-- **An interrupt.** -/
theorem Serving.step (h : Serving k c ls) (o : Nat × Nat) :
    ∃ k' c' ls', interrupt k o = some k' ∧ Serving k' c' ls' ∧
      ls' .sleep = k.sched.timerTick.queued ls .sleep ∧
      TickDone k.sched.timerTick k'.sched (ls .free)
        (k.sched.timerTick.board (ls .sleep) (fun q => ls (.ready q))) := by
  obtain ⟨⟨sw, k'⟩, hr, hdone⟩ := tick_done (k := { k with sched := k.sched.timerTick })
    h.toCurrent.listIntegrity.timerTick h.current o.1 o.2
  obtain ⟨c', q, xs, -, -, h', hcur, -⟩ := tick_kernel (timerTick_lists h.toSchedInv) hr
  refine ⟨k', c', _, by rw [interrupt, hr]; rfl, ⟨h', hcur⟩, ?_, hdone⟩
  rw [Function.update_of_ne (by simp), take_other (by simp) (by simp)]

/-- `p` is on the sleep list until `W`, and it is `τ`. -/
structure Asleep (k : Kernel) (p : Proc) (W τ : Nat) : Prop where
  serving : ∃ c ls, Serving k c ls ∧ p ∈ ls .sleep
  wakeTick : (k.sched.pcb p).wakeTick = W
  tickCount : k.sched.tickCount = τ

/-- `p` does not sleep. -/
structure Awake (k : Kernel) (p : Proc) : Prop where
  serving : ∃ c ls, Serving k c ls
  state : (k.sched.pcb p).state ≠ .sleeping

/-- An interrupt after `p` has been woken. -/
theorem Awake.step (h : Awake k p) (o : Nat × Nat) :
    ¬ Moved k.sched.timerTick p ∧ ∃ k', interrupt k o = some k' ∧ Awake k' p := by
  obtain ⟨c, ls, hk⟩ := h.serving
  refine ⟨fun hm => ?_, ?_⟩
  · have hp := ((moved_iff (timerTick_lists hk.toSchedInv).placed).mp hm).1
    exact h.state (hk.placed.asleep hp)
  · obtain ⟨k', c', ls', hrun, h', -, hdone⟩ := hk.step o
    refine ⟨k', hrun, ⟨c', ls', h'⟩, ?_⟩
    rw [hdone.state p]
    split
    · simp
    · split
      · simp
      · exact h.state

/-- **An interrupt while `p` sleeps** moves it if it is time, and leaves it on the list if not. -/
theorem Asleep.step (h : Asleep k p W τ) (o : Nat × Nat) :
    (Moved k.sched.timerTick p ↔ W ≤ (τ + 1) % 2 ^ 64) ∧
      ∃ k', interrupt k o = some k' ∧ (W ≤ (τ + 1) % 2 ^ 64 → Awake k' p) ∧
        ((τ + 1) % 2 ^ 64 < W → Asleep k' p W ((τ + 1) % 2 ^ 64)) := by
  obtain ⟨c, ls, hk, hp⟩ := h.serving
  have hclock : k.sched.timerTick.tickCount = (τ + 1) % 2 ^ 64 := by rw [Sched.timerTick, h.tickCount]
  have hdue : k.sched.timerTick.due p = decide (W ≤ (τ + 1) % 2 ^ 64) := by
    rw [Sched.due, hclock, ← h.wakeTick]
    rfl
  obtain ⟨k', c', ls', hrun, h', hsleep, hdone⟩ := hk.step o
  refine ⟨?_, k', hrun, fun hW => ⟨⟨c', ls', h'⟩, ?_⟩, fun hW => ⟨⟨c', ls', h', ?_⟩, ?_, ?_⟩⟩
  · rw [moved_iff (timerTick_lists hk.toSchedInv).placed, hdue, decide_eq_true_iff]
    exact and_iff_right hp
  · -- a sleeper that is due is READY, unless it is chosen at once
    have hready : p ∈ ls .sleep ∧ k.sched.timerTick.due p = true := ⟨hp, by simpa [hdue] using hW⟩
    rw [hdone.state p]
    split
    · simp
    · split
      · simp
      · rename_i hnot
        exact absurd (Or.inl hready) hnot
  · rw [hsleep, queued_sleep]
    refine List.mem_append_right _ (List.mem_filter.mpr ⟨hp, ?_⟩)
    simpa [hdue] using hW
  · rw [hdone.wakeTick p]
    exact h.wakeTick
  · rw [hdone.tickCount, hclock]

/-! ## 3. Runs of interrupts -/

/-- Among the interrupts after the time `τ` the one number `n`, from 0, is the first to find the clock
at `W`. -/
def FirstDue (τ W n : Nat) : Prop :=
  W ≤ (τ + n + 1) % 2 ^ 64 ∧ ∀ i < n, (τ + i + 1) % 2 ^ 64 < W

theorem firstDue_zero : FirstDue τ W 0 ↔ W ≤ (τ + 1) % 2 ^ 64 := by simp [FirstDue]

theorem firstDue_succ {n : Nat} : FirstDue τ W (n + 1) ↔
    (τ + 1) % 2 ^ 64 < W ∧ FirstDue ((τ + 1) % 2 ^ 64) W n := by
  have hshift : ∀ i, ((τ + 1) % 2 ^ 64 + i + 1) % 2 ^ 64 = (τ + (i + 1) + 1) % 2 ^ 64 := by
    intro i
    omega
  simp only [FirstDue, hshift, Nat.forall_lt_succ_left]
  exact ⟨fun ⟨hn, h0, hi⟩ => ⟨h0, hn, hi⟩, fun ⟨h0, hn, hi⟩ => ⟨hn, h0, hi⟩⟩

theorem awake_along {calls : List (Nat × Nat)} (h : Awake k p) :
    Along interrupt (NotEarly p D) k calls := by
  induction calls generalizing k with
  | nil => exact trivial
  | cons o calls ih =>
    obtain ⟨hnot, k₁, hk₁, h₁⟩ := h.step o
    refine ⟨fun hm => absurd hm hnot, fun k' hk' => ?_⟩
    obtain rfl := Option.some.inj (hk₁.symm.trans hk')
    exact ih h₁

/-- **The sleeper wakes at the first interrupt that is late enough, and at no other.** -/
theorem asleep_along {calls : List (Nat × Nat)} (h : Asleep k p W τ) :
    Along interrupt (NotEarly p D) k calls ↔
      ∀ n < calls.length, FirstDue τ W n → D ≤ (τ + n + 1) % 2 ^ 64 := by
  induction calls generalizing k τ with
  | nil => simp [Along]
  | cons o calls ih =>
    obtain ⟨hmoved, k₁, hk₁, hwake, hstay⟩ := h.step o
    have hhead : NotEarly p D k o ↔ (W ≤ (τ + 1) % 2 ^ 64 → D ≤ (τ + 1) % 2 ^ 64) := by
      rw [NotEarly, hmoved, Sched.timerTick, h.tickCount]
    have htail : Along interrupt (NotEarly p D) k₁ calls ↔
        ∀ n < calls.length, FirstDue τ W (n + 1) → D ≤ (τ + (n + 1) + 1) % 2 ^ 64 := by
      rcases Nat.lt_or_ge ((τ + 1) % 2 ^ 64) W with hlt | hge
      · rw [ih (hstay hlt)]
        refine forall_congr' fun n => imp_congr_right fun _ => ?_
        have hshift : ((τ + 1) % 2 ^ 64 + n + 1) % 2 ^ 64 = (τ + (n + 1) + 1) % 2 ^ 64 := by omega
        rw [firstDue_succ, hshift]
        exact ⟨fun hn hdue => hn hdue.2, fun hn hdue => hn ⟨hlt, hdue⟩⟩
      · refine iff_of_true (awake_along (hwake hge)) (fun n _ hdue => ?_)
        exact absurd (firstDue_succ.mp hdue).1 (Nat.not_lt.mpr hge)
    rw [List.length_cons, Nat.forall_lt_succ_left, firstDue_zero, ← htail, Along, hhead]
    refine and_congr_right fun _ => ⟨fun hall => hall k₁ hk₁, fun hall k' hk' => ?_⟩
    obtain rfl := Option.some.inj (hk₁.symm.trans hk')
    exact hall

/-! ## 4. The call -/

/-- `scheduler_sleep_current`, up to the wait. -/
def Kernel.sleepCurrent (k : Kernel) (ms : Nat) : Kernel :=
  { k with sched := k.sched.schedulerSleepCurrent ms }

/-- A process of the pool that calls it is marked, with its deadline modulo 2^32. -/
theorem sleepCurrent_pcb {i : Fin 64} (hc : s.current = some (.pool i)) (ms : Nat) :
    ((s.schedulerSleepCurrent ms).pcb (.pool i)).state = .sleeping ∧
      ((s.schedulerSleepCurrent ms).pcb (.pool i)).wakeTick =
        add32 s.tickCount (max 1 (ms / 10)) ∧
      (s.schedulerSleepCurrent ms).tickCount = s.tickCount := by
  have hticks : (if ms / 10 = 0 then 1 else ms / 10) = max 1 (ms / 10) := by
    split <;> omega
  simp only [Sched.schedulerSleepCurrent, hc, hticks, if_neg (show Proc.pool i ≠ .idle by simp),
    modify_pcb, Function.update_self]
  exact ⟨trivial, trivial, rfl⟩

/-- **The interrupt after the call** puts the caller on the sleep list. -/
theorem sleepCurrent_step {i : Fin 64} (h : Serving k (.pool i) ls) (ms : Nat) (o : Nat × Nat) :
    ¬ Moved (k.sleepCurrent ms).sched.timerTick (.pool i) ∧
      ∃ k', interrupt (k.sleepCurrent ms) o = some k' ∧
        Asleep k' (.pool i) (add32 k.sched.tickCount (max 1 (ms / 10)))
          ((k.sched.tickCount + 1) % 2 ^ 64) := by
  obtain ⟨hst, hwake, hclock⟩ := sleepCurrent_pcb h.current ms
  have h₀ : Serving (k.sleepCurrent ms) (.pool i) ls :=
    ⟨sleep_lists h.toSchedInv ms, (sleep_current k.sched ms).trans h.current⟩
  have hnot : .pool i ∉ ls .sleep := h₀.not_mem h₀.current (by simp)
  obtain ⟨k', c', ls', hrun, h', hsleep, hdone⟩ := h₀.step o
  refine ⟨fun hm => ?_, k', hrun, ⟨c', ls', h', ?_⟩, ?_, ?_⟩
  · exact hnot ((moved_iff (timerTick_lists h₀.toSchedInv).placed).mp hm).1
  · have hcur : (k.sleepCurrent ms).sched.timerTick.current = some (.pool i) := h₀.current
    have hstate : ((k.sleepCurrent ms).sched.timerTick.pcb (.pool i)).state = .sleeping := hst
    rw [hsleep, queued_sleep, hcur, Option.toList_some]
    refine List.mem_append_left _ (List.mem_filter.mpr ⟨List.mem_singleton_self _, ?_⟩)
    exact decide_eq_true hstate
  · rw [hdone.wakeTick]
    exact hwake
  · rw [hdone.tickCount, Sched.timerTick, Kernel.sleepCurrent, hclock]

/-- **What the deadline says.**  With `wake_tick` the sum modulo 2^32, and the first interrupt past,
no wake-up is early exactly if the sum fits into 32 bits, or two ticks are enough and the clock does
not wrap in between. -/
theorem firstDue_iff (hT : T < 2 ^ 64) (hpos : 0 < ticks) (hlt : ticks < 2 ^ 32) :
    (∀ n, FirstDue ((T + 1) % 2 ^ 64) (add32 T ticks) n →
        T + ticks ≤ ((T + 1) % 2 ^ 64 + n + 1) % 2 ^ 64) ↔
      T + ticks < 2 ^ 32 ∨ (ticks ≤ 2 ∧ T + 2 < 2 ^ 64) := by
  rw [add32]
  constructor
  · intro hall
    by_contra hnot
    rw [not_or, not_lt, not_and_or] at hnot
    obtain ⟨hbig, hcase⟩ := hnot
    rcases Nat.lt_or_ge (T + 2) (2 ^ 64) with h2 | h2
    · -- due at once
      have hfirst := hall 0 (firstDue_zero.mpr (by omega))
      omega
    · -- the clock starts again from 0, and reaches the truncated deadline first
      have hfirst := hall ((T + ticks) % 2 ^ 32 - (T + 2 - 2 ^ 64)) ⟨by omega, fun i hi => by omega⟩
      omega
  · rintro (hfit | ⟨h2, hwrap⟩) n ⟨hn, hbefore⟩
    · omega
    · rcases Nat.lt_or_ge (T + ticks) (2 ^ 32) with hfit | hbig
      · omega
      · rcases Nat.eq_zero_or_pos n with rfl | hpos
        · omega
        · have hzero := hbefore 0 hpos
          omega

/-- **No early wake-up, exactly when.**  A process of the pool asks at the time `T` to sleep for some
ticks, at least one.  In EVERY run of timer interrupts that follows it is moved to a ready queue only
when the clock is at `T + ticks` or past it, if and only if that sum fits into the 32 bits of
`wake_tick`, or else `ticks` is at most 2 (no sleeper wakes earlier than that) and the clock does not
wrap. -/
theorem no_early_wake_iff {i : Fin 64} (h : Serving k (.pool i) ls)
    (hT : k.sched.tickCount < 2 ^ 64) {ms : Nat} (hms : ms < 2 ^ 32) :
    (∀ calls, Along interrupt (NotEarly (.pool i) (k.sched.tickCount + max 1 (ms / 10)))
        (k.sleepCurrent ms) calls) ↔
      k.sched.tickCount + max 1 (ms / 10) < 2 ^ 32 ∨
        (max 1 (ms / 10) ≤ 2 ∧ k.sched.tickCount + 2 < 2 ^ 64) := by
  rw [← firstDue_iff hT (by omega) (by omega)]
  constructor
  · intro hall n hdue
    obtain ⟨-, k₁, hk₁, h₁⟩ := sleepCurrent_step h ms (0, 0)
    have hrest := (hall ((0, 0) :: List.replicate (n + 1) (0, 0))).2 k₁ hk₁
    exact (asleep_along h₁).mp hrest n (by simp) hdue
  · intro hall calls
    cases calls with
    | nil => exact trivial
    | cons o calls =>
      obtain ⟨hnot, k₁, hk₁, h₁⟩ := sleepCurrent_step h ms o
      refine ⟨fun hm => absurd hm hnot, fun k' hk' => ?_⟩
      obtain rfl := Option.some.inj (hk₁.symm.trans hk')
      exact (asleep_along h₁).mpr (fun n _ hdue => hall n hdue)

/-! ## 5. A process alone -/

/-- A process with nobody beside it or above it keeps the CPU. -/
theorem turning_alone {free : List Proc} {ready : Priority → List Proc} {q : Priority}
    (habove : ∀ q', q'.value < q.value → ready q' = []) (o : Nat × Nat) (n : Nat)
    (h : Turning k.sched free [] ready q [] c) (hclock : k.sched.tickCount + n < 2 ^ 64) :
    ∃ k', run interrupt k (List.replicate n o) = some k' ∧ Turning k'.sched free [] ready q [] c ∧
      k'.sched.tickCount = k.sched.tickCount + n := by
  induction n generalizing k with
  | zero => exact ⟨k, rfl, h, rfl⟩
  | succ n ih =>
    obtain ⟨k₁, hk₁, h₁, hclock₁, -⟩ :=
      h.step habove (fun x hx => absurd hx List.not_mem_nil) rfl o
    have htick : k₁.sched.tickCount = k.sched.tickCount + 1 := by
      rw [hclock₁, Sched.timerTick]
      exact Nat.mod_eq_of_lt (by omega)
    obtain ⟨k', hrun, h', hclock'⟩ := ih h₁ (by omega)
    refine ⟨k', ?_, h', by omega⟩
    rw [List.replicate_succ]
    exact run_cons_eq_some.mpr ⟨k₁, hk₁, hrun⟩

theorem serving_run {calls : List (Nat × Nat)} (h : ∃ c ls, Serving k c ls)
    (hrun : run interrupt k calls = some k') : ∃ c ls, Serving k' c ls := by
  refine run_inv (I := fun k => ∃ c ls, Serving k c ls) (fun k o k' hk hstep => ?_) calls k k' h hrun
  obtain ⟨c, ls, hk⟩ := hk
  obtain ⟨k₁, c', ls', hk₁, h₁, -⟩ := hk.step o
  obtain rfl := Option.some.inj (hk₁.symm.trans hstep)
  exact ⟨c', ls', h₁⟩

/-- A tick that interrupts the idle process while somebody of NORMAL priority waits alone. -/
theorem tick_alone (h : SchedInv s .idle ls) (hc : s.current = some .idle) (hsleep : ls .sleep = [])
    (hready : ∀ q, ls (.ready q) = if Priority.normal = q then [p] else []) :
    (s.board (ls .sleep) (fun q => ls (.ready q))).top s.policy s.moment = some .normal ∧
      (s.board (ls .sleep) (fun q => ls (.ready q))).tick s.policy s.moment =
        ⟨fun q => if q = .low then [.idle] else [], [], some p⟩ := by
  have hqueue : ∀ q, s.queued ls (.ready q) =
      (if Priority.normal = q then [p] else []) ++ if q = .low then [.idle] else [] := by
    intro q
    rw [queued_ready_of_idle h hc hsleep, hready]
  have hnobody : s.queued ls .sleep = [] := by
    simp [queued_sleep, hsleep, hc, h.idle_running hc]
  have htop : (s.board (ls .sleep) (fun q => ls (.ready q))).top s.policy s.moment =
      some .normal := by
    rw [top_eq]
    simp [hqueue]
  refine ⟨htop, ?_⟩
  rw [Board.tick, htop, asleep_eq, hnobody, funext queue_eq]
  simp only [hqueue, Board.mk.injEq]
  refine ⟨funext fun q => ?_, trivial, rfl⟩
  cases q <;> rfl

/-- The interrupt gives that process the CPU. -/
theorem Serving.alone (h : Serving k .idle ls) (hsleep : ls .sleep = [])
    (hready : ∀ q, ls (.ready q) = if Priority.normal = q then [p] else []) (o : Nat × Nat) :
    ∃ k', interrupt k o = some k' ∧ k'.sched.tickCount = k.sched.timerTick.tickCount ∧
      Turning k'.sched (ls .free) [] (fun q => if q = .low then [.idle] else []) .normal [] p := by
  obtain ⟨k', -, -, hrun, -, -, hdone⟩ := h.step o
  obtain ⟨htop, htick⟩ := tick_alone (timerTick_lists h.toSchedInv) h.current hsleep hready
  have hsome := Option.isSome_iff_exists.mpr ⟨_, htop⟩
  have hcur : k'.sched.current = some p := by
    rw [hdone.spelled.current, htick]
  refine ⟨k', hrun, hdone.tickCount, ?_, hcur, ?_, ?_⟩
  · have hlists := hdone.integrity (Or.inl hsome)
    have hsame : Function.update (fun q : Priority => if q = .low then [Proc.idle] else []) .normal [] =
        fun q => if q = .low then [.idle] else [] := Function.update_eq_self _ _
    rw [htick] at hlists
    rwa [hsame]
  · rw [hdone.state p, if_pos ⟨hsome, hcur⟩]
  · rw [hdone.priority p]
    exact h.placed.priority (by rw [hready, if_pos rfl]; exact List.mem_singleton_self p)

/-- The first process gets the CPU, and keeps it for any number of interrupts. -/
theorem sample_serving (n : Nat) (hn : n + 1 < 2 ^ 64) : ∃ m₀ k₀ k ls,
    vmmInit sampleLayout blankMachine = some m₀ ∧
    schedulerCreateProcess sampleLayout (bootRun m₀).kernel [0x61] 0x100400 0 .normal =
      some (some (.pool 0), k₀) ∧
    run interrupt k₀ (List.replicate (n + 1) (10, 0x8FF0)) = some k ∧
    Serving k (.pool 0) ls ∧ k.sched.tickCount = n + 1 := by
  obtain ⟨m₀, dir, stack, m₁, hinit, -, -, hcreate⟩ := sample_create .normal
  obtain ⟨ls, h, hsleep, hready⟩ := sample_lists hcreate
  have h₀ : Serving ⟨m₁, sampleSched .normal dir stack⟩ .idle ls := ⟨h, rfl⟩
  obtain ⟨k₁, hk₁, hclock₁, hturning⟩ := h₀.alone hsleep hready (10, 0x8FF0)
  replace hclock₁ : k₁.sched.tickCount = 1 := hclock₁
  have habove : ∀ q : Priority, q.value < Priority.normal.value →
      (if q = .low then [Proc.idle] else []) = [] := by
    intro q hq
    refine if_neg ?_
    rintro rfl
    exact absurd hq (by decide)
  obtain ⟨k, hrun, hk, hclock⟩ := turning_alone habove (10, 0x8FF0) n hturning (by omega)
  have hrun' : run interrupt ⟨m₁, sampleSched .normal dir stack⟩
      (List.replicate (n + 1) (10, 0x8FF0)) = some k := by
    rw [List.replicate_succ]
    exact run_cons_eq_some.mpr ⟨k₁, hk₁, hrun⟩
  obtain ⟨c, ls', hserving⟩ := serving_run ⟨_, _, h₀⟩ hrun'
  obtain rfl : c = .pool 0 := Option.some.inj (hserving.current.symm.trans hk.current)
  exact ⟨m₀, _, k, ls', hinit, hcreate, hrun', hserving, by omega⟩

/-- A tick after boot the deadline is far from 2^32. -/
theorem no_early_wake_boot : ∃ m₀ k₀ k, vmmInit sampleLayout blankMachine = some m₀ ∧
    schedulerCreateProcess sampleLayout (bootRun m₀).kernel [0x61] 0x100400 0 .normal =
      some (some (.pool 0), k₀) ∧
    run interrupt k₀ [(10, 0x8FF0)] = some k ∧ k.sched.tickCount = 1 ∧
    ∀ calls, Along interrupt (NotEarly (.pool 0) 4) (k.sleepCurrent 30) calls := by
  obtain ⟨m₀, k₀, k, ls, hinit, hcreate, hrun, hk, hclock⟩ := sample_serving 0 (by decide)
  have hiff := no_early_wake_iff hk (by rw [hclock]; decide) (show 30 < 2 ^ 32 by decide)
  rw [hclock] at hiff
  exact ⟨m₀, k₀, k, hinit, hcreate, hrun, hclock, hiff.mpr (by decide)⟩

/-- **An early wake-up.**  After 2^32 - 1 interrupts, with only one process besides the idle one, that
process asks for 30 ms, three ticks.  Its deadline 2^32 + 2 is kept as 2, and the second interrupt from
then, at 2^32 + 1, moves it to its ready queue. -/
theorem sleeper_wakes_early : ∃ m₀ k₀ k k₁, vmmInit sampleLayout blankMachine = some m₀ ∧
    schedulerCreateProcess sampleLayout (bootRun m₀).kernel [0x61] 0x100400 0 .normal =
      some (some (.pool 0), k₀) ∧
    run interrupt k₀ (List.replicate (2 ^ 32 - 1) (10, 0x8FF0)) = some k ∧
    k.sched.current = some (.pool 0) ∧ k.sched.tickCount = 2 ^ 32 - 1 ∧
    interrupt (k.sleepCurrent 30) (10, 0x8FF0) = some k₁ ∧
    Moved k₁.sched.timerTick (.pool 0) ∧ k₁.sched.timerTick.tickCount = 2 ^ 32 + 1 ∧
    ¬ NotEarly (.pool 0) (2 ^ 32 - 1 + max 1 (30 / 10)) k₁ (10, 0x8FF0) := by
  obtain ⟨m₀, k₀, k, ls, hinit, hcreate, hrun, hk, hclock⟩ :=
    sample_serving (2 ^ 32 - 2) (by decide)
  obtain ⟨-, k₁, hk₁, hasleep⟩ := sleepCurrent_step hk 30 (10, 0x8FF0)
  have hclock₁ : k₁.sched.timerTick.tickCount = 2 ^ 32 + 1 := by
    rw [Sched.timerTick, hasleep.tickCount, hclock]
    rfl
  have hmoved : Moved k₁.sched.timerTick (.pool 0) := by
    rw [(hasleep.step (10, 0x8FF0)).1, hclock]
    decide
  refine ⟨m₀, k₀, k, k₁, hinit, hcreate, hrun, hk.current, hclock, hk₁, hmoved, hclock₁,
    fun hnot => ?_⟩
  have hlate := hnot hmoved
  rw [hclock₁] at hlate
  exact absurd hlate (by decide)

end JarvOs.Process
