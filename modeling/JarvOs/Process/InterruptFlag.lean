/-
# The interrupt flag of a new process

IRQ0 enters through an interrupt gate, which clears IF; the `iretd` at the end of `isr32` gives the
interrupted code back the IF it had.  A tick that switches leaves the interrupted process INSIDE
its `isr32`, and whoever gets the CPU continues where it stopped: another process inside its own
`isr32`, on the way to its `iretd`, but a new process at `process_entry_trampoline`, with no
`iretd` ahead.  `context_switch` does not touch IF and nothing on that path executes `sti`.

`starts_preemptible_iff`: in a history of creations and timer interrupts every entry function
starts with IF set exactly when no interrupt that is delivered finds a process on a ready queue,
that is, when no process is ever started.  A process that is started keeps the CPU for good
(`started_never_preempted`).
-/
import JarvOs.Process.SchedRuns

namespace JarvOs.Process

open JarvOs.Lib JarvOs.Memory

/-! ## 1. Timer interrupts -/

/-- `IDT_INTERRUPT_GATE` -/
def idtInterruptGate : Nat := 0xE

/-- The flags `idt_init` gives the gate of IRQ0. -/
def irq0Flags : Nat := 0x8E

/-- IF after an interrupt has entered through a gate with these flags. -/
def gateEntry (flags : Nat) (ifl : Bool) : Bool :=
  if flags &&& 0xF = idtInterruptGate then false else ifl

@[simp] theorem gateEntry_irq0 (ifl : Bool) : gateEntry irq0Flags ifl = false := rfl

/-- `irq0_handler`, up to the callbacks: count, and run the scheduler. -/
def irq0Handler (k : Kernel) (esp : Nat) : Option (Option Switch × Kernel) :=
  schedulerTick { k with sched := k.sched.timerTick } 10 esp

/-- Where a process continues when it gets the CPU: its first frame returns to
`process_entry_trampoline`, any other into its own `isr32`, whose `iretd` loads this IF. -/
inductive Resume
  | trampoline
  | iretd (ifl : Bool)
deriving DecidableEq, Repr

/-- The calls of a history. -/
inductive CpuOp
  | create (name : List UInt8) (entry arg : Nat) (priority : Priority)
  | timer (esp : Nat)
deriving DecidableEq, Repr

/-- A run of the scheduler with the CPU's IF, where each process will continue, and the process
whose entry function the last call started, if it started one. -/
structure CpuRun where
  run : SchedRun
  ifl : Bool
  resume : Proc → Resume
  started : Option Proc

namespace CpuRun

abbrev sched (st : CpuRun) : Sched := st.run.sched

def created (st : CpuRun) (r : Option Proc × Kernel) : CpuRun :=
  { run := st.run.created r
    ifl := st.ifl
    resume := fun p => if r.1 = some p then .trampoline else st.resume p
    started := none }

/-- After `irq0_handler`, entered with IF at `saved` before the gate. -/
def ticked (st : CpuRun) (esp : Nat) (r : Option Switch × Kernel) : CpuRun :=
  let run := st.run.ticked esp r
  match r.1 with
  | none => { st with run := run, started := none }
  | some _ =>
    let resume := Function.update st.resume st.run.running (.iretd st.ifl)
    match resume run.running with
    | .trampoline =>
      { run := run, ifl := gateEntry irq0Flags st.ifl, resume := resume
        started := some run.running }
    | .iretd ifl => { run := run, ifl := ifl, resume := resume, started := none }

end CpuRun

/-- One call.  A timer interrupt is delivered only while IF is set; until then it is pending. -/
def cpuStep (L : Layout) (st : CpuRun) : CpuOp → Option CpuRun
  | .create name entry arg priority =>
    (schedulerCreateProcess L st.run.kernel name entry arg priority).map st.created
  | .timer esp =>
    if st.ifl then (irq0Handler st.run.kernel esp).map (st.ticked esp)
    else some { st with started := none }

/-- After boot: the shell runs under the idle PCB, and `hal_init` has executed `sti`. -/
def bootCpu (m : Machine) : CpuRun := ⟨bootRun m, true, fun _ => .trampoline, none⟩

/-! ## 2. One call -/

/-- An entry function that starts, starts with IF set. -/
def StartsPreemptible (L : Layout) (st : CpuRun) (op : CpuOp) : Prop :=
  ∀ st', cpuStep L st op = some st' → st'.started ≠ none → st'.ifl = true

/-- A timer interrupt that is delivered finds all ready queues empty. -/
def NobodyReady (st : CpuRun) : CpuOp → Prop
  | .timer _ => st.ifl = true → ∀ q, (st.sched.queues q).head = none
  | .create .. => True

variable {L : Layout} {st st' : CpuRun} {ls : Lists} {m : Machine}

/-- Before the first process is started: the idle process runs, with IF set, nobody sleeps, and
whoever is ready is at its first frame. -/
structure BeforeStart (st : CpuRun) (ls : Lists) : Prop where
  sched : SchedInv st.sched .idle ls
  current : st.sched.current = some .idle
  running : st.run.running = .idle
  ifl : st.ifl = true
  sleep : ls .sleep = []
  fresh : ∀ q, ∀ p ∈ ls (.ready q), st.resume p = .trampoline

theorem before_created (h : BeforeStart st ls) {r : Option Proc × Kernel} {name : List UInt8}
    {entry arg : Nat} {prio : Priority}
    (hrun : schedulerCreateProcess L st.run.kernel name entry arg prio = some r) :
    ∃ ls', BeforeStart (st.created r) ls' := by
  obtain ⟨r, k'⟩ := r
  obtain ⟨ls', h', hcr⟩ := create_lists h.sched hrun
  obtain ⟨hs, hr⟩ := created_sched st.run (r, k')
  refine ⟨ls', ?_, ?_, hr.trans h.running, h.ifl, hcr.sleep.trans h.sleep, fun q p hp => ?_⟩
  · simp only [CpuRun.sched, CpuRun.created, hs]
    exact h'
  · simp only [CpuRun.sched, CpuRun.created, hs]
    exact hcr.current.trans h.current
  · rw [hcr.ready, List.mem_append, List.mem_filter, Option.mem_toList] at hp
    simp only [CpuRun.created]
    rcases hp with hp | ⟨hp, -⟩
    · split
      · rfl
      · exact h.fresh q p hp
    · rw [if_pos hp]

section Choice

variable {s : Sched} {q : Priority} {curr : Proc} {xs : List Proc}

/-- With nobody ready, a tick that interrupts the idle process can only choose that. -/
theorem choice_idle (h : SchedInv s .idle ls) (hc : s.current = some .idle) (hsleep : ls .sleep = [])
    (hempty : ∀ q, ls (.ready q) = []) (hxs : s.queued ls (.ready q) = curr :: xs) :
    q = .low ∧ curr = .idle ∧ xs = [] := by
  rw [queued_ready_of_idle h hc hsleep, hempty, List.nil_append] at hxs
  by_cases hq : q = .low
  · simpa [hq, eq_comm] using hxs
  · simp [hq] at hxs

/-- With somebody ready, it chooses one of those. -/
theorem choice_ready (h : SchedInv s .idle ls) (hc : s.current = some .idle) (hsleep : ls .sleep = [])
    (hsome : ¬ ∀ q, ls (.ready q) = []) (hxs : s.queued ls (.ready q) = curr :: xs)
    (hfirst : [Priority.realtime, .high, .normal, .low].findSome?
      (fun q => (s.queued ls (.ready q)).head?) = some curr) : curr ∈ ls (.ready q) := by
  have hqueued := queued_ready_of_idle h hc hsleep
  rw [hqueued] at hxs
  cases hls : ls (.ready q) with
  | cons y ys =>
    rw [hls, List.cons_append] at hxs
    rw [(List.cons.inj hxs).1]
    exact List.mem_cons_self
  | nil =>
    -- then it is the idle process, and all queues were empty
    rw [hls, List.nil_append] at hxs
    obtain ⟨rfl, rfl⟩ : q = .low ∧ curr = .idle := by
      by_cases hq : q = .low
      · exact ⟨hq, by simpa [hq, eq_comm] using congrArg List.head? hxs⟩
      · simp [hq] at hxs
    have hidle : ∀ q, .idle ∉ ls (.ready q) := fun q => h.not_mem hc (by simp)
    have hnot : ∀ q, q ≠ .low → (s.queued ls (.ready q)).head? ≠ some .idle := by
      intro q hq hhead
      rw [hqueued, if_neg hq, List.append_nil] at hhead
      exact hidle q (List.mem_of_mem_head? hhead)
    refine absurd (fun q => ?_) hsome
    by_cases hq : q = .low
    · rw [hq, hls]
    · have hq' := ((findSome_low hnot).mp hfirst).2 q hq
      rwa [hqueued, if_neg hq, List.append_nil, List.head?_eq_none_iff] at hq'

end Choice

/-- **A delivered timer interrupt** goes back to the idle process if nobody is ready, and otherwise
starts a process with IF clear. -/
theorem before_timer (h : BeforeStart st ls) (esp : Nat) :
    ∃ st', cpuStep L st (.timer esp) = some st' ∧
      (((∀ q, (st.sched.queues q).head = none) ∧ st'.started = none ∧ ∃ ls', BeforeStart st' ls') ∨
        (¬ (∀ q, (st.sched.queues q).head = none) ∧ st'.started ≠ none ∧ st'.ifl = false)) := by
  have hinv : SchedInv st.sched.timerTick .idle ls := timerTick_lists h.sched
  have hcur₀ : st.sched.timerTick.current = some .idle := h.current
  have hnone : (∀ q, (st.sched.queues q).head = none) ↔ ∀ q, ls (.ready q) = [] := by
    refine forall_congr' fun q => ?_
    rw [h.sched.placed.ready_head, List.head?_eq_none_iff]
  obtain ⟨sw, k', -, -, htick, -⟩ := tick_current
    (k := { st.run.kernel with sched := st.sched.timerTick }) hinv h.current 10 esp
  obtain ⟨curr, q, xs, hxs, hfirst, h', hcur, hsw, -⟩ := tick_kernel
    (k := { st.run.kernel with sched := st.sched.timerTick }) hinv htick
  have hstep : cpuStep L st (.timer esp) = some (st.ticked esp (sw, k')) := by
    simp only [cpuStep, h.ifl, if_true, irq0Handler, htick, Option.map_some]
  refine ⟨_, hstep, ?_⟩
  rw [hnone]
  by_cases hempty : ∀ q, ls (.ready q) = []
  · obtain ⟨rfl, rfl, rfl⟩ := choice_idle hinv hcur₀ h.sleep hempty hxs
    obtain rfl := hsw.mpr h.current
    refine Or.inl ⟨hempty, rfl, _, h', hcur, h.running, h.ifl, ?_, fun q p hp => ?_⟩
    · rw [Function.update_of_ne (by simp), take_other (by simp) (by simp), queued_sleep]
      simp [hcur₀, hinv.idle_running hcur₀, h.sleep]
    · rw [Function.update_of_ne (by simp)] at hp
      by_cases hq : q = .low
      · subst hq
        rw [take_same (by simp)] at hp
        exact absurd hp List.not_mem_nil
      · rw [take_other (by simp) (by simpa using hq), queued_ready_of_idle hinv hcur₀ h.sleep, hempty,
          if_neg hq] at hp
        exact absurd hp List.not_mem_nil
  · -- the process chosen was ready before, at its first frame
    have hmem := choice_ready hinv hcur₀ h.sleep hempty hxs hfirst
    have hne : curr ≠ .idle := by
      rintro rfl
      exact h.sched.not_mem h.current (by simp) hmem
    cases sw with
    | none => exact absurd (Option.some.inj ((hsw.mp rfl).symm.trans h.current)) hne
    | some w =>
      have hr : (st.run.ticked esp (some w, k')).running = curr := by
        simp [SchedRun.ticked, hcur]
      have hres : Function.update st.resume st.run.running (.iretd st.ifl) curr = .trampoline := by
        rw [h.running, Function.update_of_ne hne]
        exact h.fresh q curr hmem
      refine Or.inr ⟨hempty, ?_, ?_⟩ <;> simp [CpuRun.ticked, hr, hres]

theorem startsPreemptible_iff (h : BeforeStart st ls) (op : CpuOp) :
    StartsPreemptible L st op ↔ NobodyReady st op := by
  cases op with
  | create name entry arg prio =>
    refine iff_of_true (fun st' hst hne => absurd ?_ hne) trivial
    obtain ⟨r, -, rfl⟩ := Option.map_eq_some_iff.mp hst
    rfl
  | timer esp =>
    obtain ⟨st', hst, ⟨hnone, hstart, -⟩ | ⟨hsome, hstart, hifl⟩⟩ := before_timer (L := L) h esp
    · refine iff_of_true (fun st'' hst' hne => absurd ?_ hne) (fun _ => hnone)
      obtain rfl := Option.some.inj (hst.symm.trans hst')
      exact hstart
    · refine iff_of_false (fun hp => ?_) (fun hq => hsome (hq h.ifl))
      exact absurd (hp st' hst hstart) (by simp [hifl])

theorem before_step (h : BeforeStart st ls) {op : CpuOp} (hop : NobodyReady st op)
    (hst : cpuStep L st op = some st') : ∃ ls', BeforeStart st' ls' := by
  cases op with
  | create name entry arg prio =>
    obtain ⟨r, hrun, rfl⟩ := Option.map_eq_some_iff.mp hst
    exact before_created h hrun
  | timer esp =>
    obtain ⟨st'', hst'', ⟨-, -, h'⟩ | ⟨hsome, -⟩⟩ := before_timer (L := L) h esp
    · obtain rfl := Option.some.inj (hst.symm.trans hst'')
      exact h'
    · exact absurd (hop h.ifl) hsome

/-! ## 3. Every history -/

theorem before_boot (m : Machine) : BeforeStart (bootCpu m) initLists :=
  ⟨schedulerInit_lists rfl, rfl, rfl, rfl, rfl, fun _ _ hp => absurd hp List.not_mem_nil⟩

/-- **Processes start preemptible, exactly when none starts.**  Over a history of creations and timer
interrupts after boot, every entry function starts with IF set if and only if every timer interrupt
that is delivered finds the ready queues empty. -/
theorem starts_preemptible_iff (L : Layout) (m : Machine) (ops : List CpuOp) :
    Along (cpuStep L) (StartsPreemptible L) (bootCpu m) ops ↔
      Along (cpuStep L) NobodyReady (bootCpu m) ops :=
  along_iff (I := fun st => ∃ ls, BeforeStart st ls) (fun _ op ⟨_, h⟩ => startsPreemptible_iff h op)
    (fun _ _ _ ⟨_, h⟩ hop hst => before_step h hop hst) ops (bootCpu m) ⟨initLists, before_boot m⟩

/-- **A process started with IF clear is never preempted**: from then on no timer interrupt is
delivered, whatever is created. -/
theorem started_never_preempted {ops : List CpuOp} (hifl : st.ifl = false)
    (hrun : run (cpuStep L) st ops = some st') :
    st'.ifl = false ∧ st'.run.running = st.run.running := by
  refine run_inv (I := fun t => t.ifl = false ∧ t.run.running = st.run.running) ?_ ops st st'
    ⟨hifl, rfl⟩ hrun
  rintro t op t' ⟨ht, hr⟩ hst
  cases op with
  | create name entry arg prio =>
    obtain ⟨r, -, rfl⟩ := Option.map_eq_some_iff.mp hst
    exact ⟨ht, (created_sched t.run r).2.trans hr⟩
  | timer esp =>
    simp only [cpuStep, ht, Bool.false_eq_true, if_false, Option.some.injEq] at hst
    obtain rfl := hst
    exact ⟨rfl, hr⟩

/-- **The first process starts with IF clear**: it is created, the next timer interrupt starts its
entry function, and no later one is delivered. -/
theorem first_process_starts_masked : ∃ m₀ st, vmmInit sampleLayout blankMachine = some m₀ ∧
    run (cpuStep sampleLayout) (bootCpu m₀) [.create [0x61] 0x100400 0 .normal, .timer 0x8FF0] =
      some st ∧ st.started ≠ none ∧ st.ifl = false ∧
    ¬ Along (cpuStep sampleLayout) (StartsPreemptible sampleLayout) (bootCpu m₀)
      [.create [0x61] 0x100400 0 .normal, .timer 0x8FF0] := by
  obtain ⟨m₀, dir, stack, m₁, hinit, hstack, hmem, hcreate⟩ := sample_create .normal
  have hstep : cpuStep sampleLayout (bootCpu m₀) (.create [0x61] 0x100400 0 .normal) =
      some ((bootCpu m₀).created (some (.pool 0), ⟨m₁, sampleSched .normal dir stack⟩)) := by
    simp only [cpuStep]
    rw [show (bootCpu m₀).run = bootRun m₀ from rfl, hcreate, Option.map_some]
  obtain ⟨st₁, hst₁⟩ : ∃ st₁, (bootCpu m₀).created (some (.pool 0),
    ⟨m₁, sampleSched .normal dir stack⟩) = st₁ := ⟨_, rfl⟩
  rw [hst₁] at hstep
  obtain ⟨ls, h⟩ := before_created (before_boot m₀) hcreate
  rw [hst₁] at h
  have hready : ¬ ∀ q, (st₁.sched.queues q).head = none := fun hn => by
    have hhead : (st₁.sched.queues .normal).head = some (.pool 0) := by rw [← hst₁]; rfl
    exact absurd (hhead.symm.trans (hn .normal)) (by simp)
  obtain ⟨st, hst, ⟨hnone, -⟩ | ⟨-, hstart, hifl⟩⟩ := before_timer (L := sampleLayout) h 0x8FF0
  · exact absurd hnone hready
  · refine ⟨m₀, st, hinit, run_cons_eq_some.mpr ⟨st₁, hstep, by simp [run, hst]⟩, hstart, hifl, ?_⟩
    rintro ⟨-, hrest⟩
    exact absurd ((hrest st₁ hstep).1 st hst hstart) (by simp [hifl])

end JarvOs.Process
