/-
# Round robin

As long as nobody comes in from elsewhere, a level goes round: the running process is put at the end of
its queue, the first of the queue gets the CPU.  After as many timer interrupts as there are processes
on the level everybody has had a turn and everything is as before.

The step is `Board.tick_turn`, which knows nothing of pointers, and `tick_done`, which knows nothing of
turns.  The induction is over the part of the ring that has had no turn yet.
-/
import JarvOs.Process.TickRefines

namespace JarvOs.Process

open JarvOs.Lib JarvOs.Memory

variable {s : Sched} {k k' : Kernel} {free sleep : List Proc} {ready : Priority → List Proc}
  {p : Priority} {c y : Proc} {xs ys : List Proc}

/-! ## 1. Timer interrupts -/

/-- A timer interrupt: `irq0_handler` counts and calls `scheduler_tick`.  The two numbers are the
milliseconds it passes on and the stack pointer `context_switch` would save. -/
def interrupt (k : Kernel) (o : Nat × Nat) : Option Kernel :=
  (schedulerTick { k with sched := k.sched.timerTick } o.1 o.2).map Prod.snd

/-- The same, and who has the CPU afterwards. -/
def turn (k : Kernel) (o : Nat × Nat) : Option (Option Proc × Kernel) :=
  (interrupt k o).map (fun k' => (k'.sched.current, k'))

theorem ListIntegrity.timerTick (h : ListIntegrity s free sleep ready) :
    ListIntegrity s.timerTick free sleep ready :=
  ⟨h.free_chain, h.sleep_chain, h.ready_chain, h.ready_tail, h.ready_empty, h.once, h.priority,
    h.asleep⟩

theorem interrupt_done (h : ListIntegrity k.sched free sleep ready) (hc : k.sched.current = some c)
    (o : Nat × Nat) : ∃ k', interrupt k o = some k' ∧
      TickDone k.sched.timerTick k'.sched free (k.sched.timerTick.board sleep ready) := by
  obtain ⟨r, hr, hdone⟩ :=
    tick_done (k := { k with sched := k.sched.timerTick }) h.timerTick hc o.1 o.2
  exact ⟨r.2, by rw [interrupt, hr]; rfl, hdone⟩

/-! ## 2. One turn -/

/-- The value of a `process_priority_t`; a smaller one is more urgent. -/
def Priority.value : Priority → Nat
  | .realtime => 0
  | .high => 1
  | .normal => 2
  | .low => 3

theorem levels_above (s : Sched) (p : Priority) :
    ∃ hi lo, s.policy.levels = hi ++ p :: lo ∧ ∀ q ∈ hi, q ≠ p ∧ q.value < p.value := by
  cases p with
  | realtime => exact ⟨[], [.high, .normal, .low], rfl, by decide⟩
  | high => exact ⟨[.realtime], [.normal, .low], rfl, by decide⟩
  | normal => exact ⟨[.realtime, .high], [.low], rfl, by decide⟩
  | low => exact ⟨[.realtime, .high, .normal], [], rfl, by decide⟩

/-- The level `p` goes round: its queue is `xs` and the running process is `c`.  The other queues are
those of `ready`. -/
structure Turning (s : Sched) (free sleep : List Proc) (ready : Priority → List Proc) (p : Priority)
    (xs : List Proc) (c : Proc) : Prop where
  lists : ListIntegrity s free sleep (Function.update ready p xs)
  current : s.current = some c
  running : (s.pcb c).state = .running
  level : (s.pcb c).priority = p

theorem Turning.priority (h : Turning s free sleep ready p xs c) (hy : y ∈ xs ++ [c]) :
    (s.pcb y).priority = p := by
  rcases List.mem_append.mp hy with hy | hy
  · refine h.lists.priority p y ?_
    rwa [Function.update_self]
  · obtain rfl := List.mem_singleton.mp hy
    exact h.level

/-- **One interrupt, one turn.** -/
theorem Turning.step (h : Turning k.sched free sleep ready p xs c)
    (habove : ∀ q, q.value < p.value → ready q = [])
    (hquiet : ∀ x ∈ sleep, k.sched.timerTick.tickCount < (k.sched.pcb x).wakeTick)
    (hring : xs ++ [c] = y :: ys) (o : Nat × Nat) :
    ∃ k', interrupt k o = some k' ∧ Turning k'.sched free sleep ready p ys y ∧
      k'.sched.tickCount = k.sched.timerTick.tickCount ∧
      ∀ x, (k'.sched.pcb x).wakeTick = (k.sched.pcb x).wakeTick := by
  obtain ⟨k', hk', hdone⟩ := interrupt_done h.lists h.current o
  obtain ⟨hi, lo, hlevels, hhi⟩ := levels_above k.sched.timerTick p
  have hfate : k.sched.timerTick.moment.fate = .runs := by
    simp [Sched.moment, Sched.fate, Sched.timerTick, h.current, h.running]
  have hdue : ∀ x ∈ sleep, k.sched.timerTick.moment.due x = false := by
    intro x hx
    exact decide_eq_false (Nat.not_le.mpr (hquiet x hx))
  have hempty : ∀ q ∈ hi,
      q ≠ p ∧ (k.sched.timerTick.board sleep (Function.update ready p xs)).ready q = [] := by
    intro q hq
    obtain ⟨hne, hlt⟩ := hhi q hq
    rw [Sched.board_ready, Function.update_of_ne hne]
    exact ⟨hne, habove q hlt⟩
  have hnext : (k.sched.timerTick.board sleep (Function.update ready p xs)).ready p ++ [c] =
      y :: ys := by
    rw [Sched.board_ready, Function.update_self, hring]
  have htop := Board.top_turn hlevels hempty hfate hdue h.current h.level
  have htick := Board.tick_turn htop hfate hdue h.current h.level hnext
  rw [Sched.board_ready, Sched.board_sleep, Function.update_idem] at htick
  have hcur : k'.sched.current = some y := by
    rw [hdone.spelled.current, htick]
  have hint := hdone.integrity (Or.inl (by rw [htop]; rfl))
  rw [htick] at hint
  refine ⟨k', hk', ⟨hint, hcur, ?_, ?_⟩, hdone.tickCount, hdone.wakeTick⟩
  · rw [hdone.state y, if_pos ⟨by rw [htop]; rfl, hcur⟩]
  · rw [hdone.priority y]
    exact h.priority (hring ▸ List.mem_cons_self)

/-! ## 3. A round -/

/-- **Interrupts one after another.**  Those of the ring whose turn it is get it in their order, and
are behind the others then. -/
theorem Turning.run {zs : List Proc} {calls : List (Nat × Nat)}
    (h : Turning k.sched free sleep ready p xs c) (hring : xs ++ [c] = ys ++ zs)
    (hlen : calls.length = ys.length) (habove : ∀ q, q.value < p.value → ready q = [])
    (hquiet : ∀ x ∈ sleep, ∀ i < calls.length,
      (k.sched.tickCount + i + 1) % 2 ^ 64 < (k.sched.pcb x).wakeTick) :
    ∃ k' xs' c', answers turn k calls = some (ys.map some, k') ∧
      Turning k'.sched free sleep ready p xs' c' ∧ xs' ++ [c'] = zs ++ ys := by
  induction ys generalizing k zs calls xs c with
  | nil =>
    obtain rfl := List.length_eq_zero_iff.mp hlen
    exact ⟨k, xs, c, rfl, h, by rw [hring, List.nil_append, List.append_nil]⟩
  | cons y ys ih =>
    cases calls with
    | nil => exact absurd hlen (by simp)
    | cons o calls =>
      obtain ⟨k₁, hk₁, h₁, hclock, hwake⟩ :=
        h.step habove (fun x hx => hquiet x hx 0 (Nat.succ_pos _)) hring o
      have hquiet₁ : ∀ x ∈ sleep, ∀ i < calls.length,
          (k₁.sched.tickCount + i + 1) % 2 ^ 64 < (k₁.sched.pcb x).wakeTick := by
        intro x hx i hi
        have hlater := hquiet x hx (i + 1) (Nat.succ_lt_succ hi)
        rw [hclock, hwake x, Sched.timerTick]
        simp only
        omega
      obtain ⟨k', xs', c', hrun, h', hring'⟩ :=
        ih h₁ (List.append_assoc ys zs [y]) (Nat.succ.inj hlen) hquiet₁
      refine ⟨k', xs', c', ?_, h', by rw [hring', List.append_assoc]; rfl⟩
      simp only [answers, turn, hk₁, Option.map_some, Option.bind_some, h₁.current, hrun,
        List.map_cons]

/-- **Round robin.**  Let `c` be running on the level `p`, with nobody above it, and no sleeper due in
the next interrupts, as many as there are processes on the level.  Then those of the queue get the CPU
in their order, each once, and last `c` again; and the free list, the ready queues, the sleep list and
the current process are as before. -/
theorem round_robin (h : ListIntegrity k.sched free sleep ready) (hcur : k.sched.current = some c)
    (hrunning : (k.sched.pcb c).state = .running)
    (habove : ∀ q, q.value < (k.sched.pcb c).priority.value → ready q = [])
    {calls : List (Nat × Nat)}
    (hcalls : calls.length = (ready (k.sched.pcb c).priority).length + 1)
    (hquiet : ∀ x ∈ sleep, ∀ i < calls.length,
      (k.sched.tickCount + i + 1) % 2 ^ 64 < (k.sched.pcb x).wakeTick) :
    (ready (k.sched.pcb c).priority ++ [c]).Nodup ∧
      ∃ k', answers turn k calls =
          some ((ready (k.sched.pcb c).priority ++ [c]).map some, k') ∧
        ListIntegrity k'.sched free sleep ready ∧ k'.sched.current = some c := by
  have hturning : Turning k.sched free sleep ready (k.sched.pcb c).priority
      (ready (k.sched.pcb c).priority) c :=
    ⟨by rwa [Function.update_eq_self], hcur, hrunning, rfl⟩
  refine ⟨?_, ?_⟩
  · have hlists := h.toCurrent
    refine List.nodup_append.mpr ⟨hlists.placed.exclusive.nodup (.ready _), List.nodup_singleton c, ?_⟩
    rintro x hx z hz rfl
    obtain rfl := List.mem_singleton.mp hz
    exact hlists.not_mem hcur (k := .ready _) (by simp) hx
  · obtain ⟨k', xs', c', hrun, h', hring⟩ := hturning.run
      (List.append_nil (ready (k.sched.pcb c).priority ++ [c])).symm (by simpa using hcalls) habove hquiet
    rw [List.nil_append] at hring
    obtain ⟨rfl, hc⟩ := List.append_inj' hring rfl
    obtain rfl := List.singleton_inj.mp hc
    refine ⟨k', hrun, ?_, h'.current⟩
    have hint := h'.lists
    rwa [Function.update_eq_self] at hint

/-- The idle process and a first one of LOW priority take turns. -/
theorem round_robin_idle : ∃ m₀ dir stack m₁ k', vmmInit sampleLayout blankMachine = some m₀ ∧
    schedulerCreateProcess sampleLayout (bootRun m₀).kernel [0x61] 0x100400 0 .low =
      some (some (.pool 0), ⟨m₁, sampleSched .low dir stack⟩) ∧
    answers turn ⟨m₁, sampleSched .low dir stack⟩ [(10, 0x8FF0), (10, 0x9FF0)] =
      some ([some (.pool 0), some .idle], k') ∧ k'.sched.current = some .idle := by
  obtain ⟨m₀, dir, stack, m₁, hinit, -, -, hcreate⟩ := sample_create .low
  obtain ⟨ls, h, hsleep, hready⟩ := sample_lists hcreate
  have hlevel : ((sampleSched .low dir stack).pcb .idle).priority = .low := rfl
  have hcalls : [(10, 0x8FF0), (10, 0x9FF0)].length =
      (ls (.ready ((sampleSched .low dir stack).pcb .idle).priority)).length + 1 := by
    rw [hlevel, hready, if_pos rfl]
    rfl
  obtain ⟨-, k', hrun, -, hcur⟩ := round_robin (k := ⟨m₁, sampleSched .low dir stack⟩)
    h.toCurrent.listIntegrity (c := .idle) rfl rfl
    (fun q hq => by
      have hne : Priority.low ≠ q := by
        rintro rfl
        exact absurd hq (Nat.lt_irrefl _)
      rw [hready, if_neg hne])
    hcalls (by simp [hsleep])
  refine ⟨m₀, dir, stack, m₁, k', hinit, hcreate, ?_, hcur⟩
  rw [hrun, hlevel, hready, if_pos rfl]
  rfl

end JarvOs.Process
