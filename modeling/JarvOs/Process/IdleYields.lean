/-
# The idle process and the others

The idle process is meant to have the CPU when nobody else can use it.  Nothing in `scheduler_tick` says
so: an interrupted idle process is put at the end of a ready queue like any other, the queue of PRIORITY_LOW,
and waits for its turn there.  Below everybody else that comes to the same thing.  Next to another process
of PRIORITY_LOW it does not, since the two take turns.

So it depends on the priorities processes are created with (`idle_yields_iff`): the idle process yields to
all others in every run that creates no process of PRIORITY_LOW, and to create one is enough to break it.
-/
import JarvOs.Process.RoundRobin

namespace JarvOs.Process

open JarvOs.Lib JarvOs.Memory

variable {L : Layout} {st st' : SchedRun} {ls : Lists} {k k' : Kernel} {A : Set Priority}

/-! ## 1. Runs -/

/-- The calls of a run that creates processes with the priorities of `A`. -/
def CreatesIn (A : Set Priority) : SchedOp → Prop
  | .create _ _ _ priority => priority ∈ A
  | .sleep _ => True
  | .tick _ _ => True
  | .timer => True
  | .fork _ => False
  | .yield => False
  | .entryReturn => False

/-- A tick that gives the idle process the CPU leaves nobody else on a ready queue. -/
def IdleYields (st : SchedRun) : SchedOp → Prop
  | .tick d esp => ∃ r, schedulerTick st.kernel d esp = some r ∧
      (r.2.sched.current = some .idle → ∀ q xs, Chain r.2.sched.next (r.2.sched.queues q).head xs →
        ∀ p ∈ xs, p = .idle)
  | _ => True

/-! ## 2. Without processes of PRIORITY_LOW -/

/-- The scheduler's invariant, with a current process; whoever is in use and has PRIORITY_LOW is the idle
process. -/
structure NoRivals (st : SchedRun) (ls : Lists) : Prop extends SchedInv st.sched st.running ls where
  current : st.sched.current = some st.running
  low : ∀ x, x ∉ ls .free → (st.sched.pcb x).priority = .low → x = .idle

/-- A new process has the priority it was created with. -/
theorem create_priority {name : List UInt8} {entry arg : Nat} {prio : Priority} {p : Proc}
    (hrun : schedulerCreateProcess L k name entry arg prio = some (some p, k')) :
    (k'.sched.pcb p).priority = prio := by
  unfold schedulerCreateProcess at hrun
  split at hrun
  · exact absurd hrun (by simp)
  · obtain ⟨⟨dir, stack, m⟩, -, hrun⟩ := Option.bind_eq_some_iff.mp hrun
    simp only at hrun
    split at hrun
    · exact absurd hrun (by simp)
    · simp only [Option.some.injEq, Prod.mk.injEq] at hrun
      obtain ⟨rfl, rfl⟩ := hrun
      rw [(relinked_enqueue _ _).priority]
      simp [Pcb.fresh]

theorem noRivals_boot (m : Machine) : NoRivals (bootRun m) initLists := by
  refine ⟨schedulerInit_lists rfl, rfl, fun x hx _ => ?_⟩
  cases x with
  | idle => rfl
  | pool i => exact absurd (pool_mem_initLists i) hx

theorem NoRivals.created (h : NoRivals st ls) {name : List UInt8} {entry arg : Nat} {prio : Priority}
    (hprio : prio ≠ .low) {r : Option Proc × Kernel}
    (hrun : schedulerCreateProcess L st.kernel name entry arg prio = some r) :
    ∃ ls', NoRivals (st.created r) ls' := by
  obtain ⟨r, k'⟩ := r
  obtain ⟨ls', h', hcr⟩ := create_lists h.toSchedInv hrun
  obtain ⟨hs, hr⟩ := created_sched st (r, k')
  refine ⟨ls', by rw [hs, hr]; exact h', by rw [hs, hr]; exact hcr.current.trans h.current,
    fun x hx hlow => ?_⟩
  rw [hs] at hlow
  by_cases hold : x ∈ ls .free
  · obtain rfl := hcr.taken x hold hx
    exact absurd ((create_priority hrun).symm.trans hlow) hprio
  · exact h.low x hold ((field_of_body (hcr.body x hold) Pcb.priority (fun _ => rfl)).symm.trans hlow)

/-- Who is queued when the tick chooses is in use, and waits on the queue of its priority. -/
theorem queued_used (h : Current st.sched ls) {q : Priority} {x : Proc}
    (hx : x ∈ st.sched.queued ls (.ready q)) : (st.sched.pcb x).priority = q ∧ x ∉ ls .free := by
  obtain ⟨s₁, -, -, h₂, hfix, -⟩ := h.queued 0
  have hfree : st.sched.queued ls .free = ls .free := by
    rw [Sched.queued, requeue_free]
    rfl
  refine ⟨?_, ?_⟩
  · rw [← hfix.field Pcb.priority (fun _ => rfl)]
    exact h₂.placed.priority hx
  · rw [← hfree]
    exact h₂.placed.exclusive.not_mem hx (by simp)

/-- **A tick without rivals.** -/
theorem NoRivals.idleYields (h : NoRivals st ls) (d esp : Nat) : IdleYields st (.tick d esp) := by
  obtain ⟨r, hr, hdone⟩ := tick_done h.toCurrent.listIntegrity h.current d esp
  refine ⟨r, hr, fun hidle q xs hxs p hp => ?_⟩
  rw [hxs.unique (hdone.spelled.ready q)] at hp
  have hlevels : st.sched.policy.levels = [.realtime, .high, .normal] ++ [.low] := rfl
  refine Board.idle_alone hlevels (by decide) ?_ h.idlePriority ?_ ?_
    (hdone.spelled.current.symm.trans hidle) q p hp
  · intro q
    cases q <;> simp [Sched.policy]
  · intro q x hx
    rw [queue_eq] at hx
    exact (queued_used h.toCurrent hx).1
  · intro x hx
    rw [queue_eq] at hx
    obtain ⟨hlow, hused⟩ := queued_used h.toCurrent hx
    exact h.low x hused hlow

theorem NoRivals.ticked (h : NoRivals st ls) {d esp : Nat}
    (hst : schedStep L st (.tick d esp) = some st') : ∃ ls', NoRivals st' ls' := by
  obtain ⟨⟨sw, k'⟩, hrun, rfl⟩ := Option.map_eq_some_iff.mp hst
  obtain ⟨⟨_, _⟩, hrun', hdone⟩ := tick_done h.toCurrent.listIntegrity h.current d esp
  obtain ⟨rfl, rfl⟩ := Prod.mk.inj (Option.some.inj (hrun.symm.trans hrun'))
  obtain ⟨_, _, curr, ls', hrun', h', hcur, hfree, hcase⟩ := tick_current h.toSchedInv h.current d esp
  obtain ⟨rfl, rfl⟩ := Prod.mk.inj (Option.some.inj (hrun.symm.trans hrun'))
  have hsame : sw = none → curr = st.running := by
    rcases hcase with ⟨-, heq, -⟩ | ⟨-, hsw, -⟩
    · exact fun _ => heq
    · exact fun hnone => absurd (hsw.symm.trans hnone) (by simp)
  obtain ⟨hs, hr⟩ := ticked_running st esp hcur hsame
  refine ⟨ls', by rw [hs, hr]; exact h', by rw [hs, hr]; exact hcur, fun x hx hlow => ?_⟩
  rw [hfree] at hx
  rw [hs, hdone.priority] at hlow
  exact h.low x hx hlow

/-- **One call** of such a run. -/
theorem NoRivals.step (h : NoRivals st ls) {op : SchedOp} (hop : CreatesIn A op) (hA : .low ∉ A)
    (hst : schedStep L st op = some st') : ∃ ls', NoRivals st' ls' := by
  cases op with
  | create name entry arg prio =>
    obtain ⟨r, hrun, rfl⟩ := Option.map_eq_some_iff.mp hst
    exact h.created (fun hlow => hA (hlow ▸ hop)) hrun
  | tick d esp => exact h.ticked hst
  | timer =>
    obtain rfl := Option.some.inj hst
    exact ⟨ls, timerTick_lists h.toSchedInv, h.current, h.low⟩
  | sleep ms =>
    obtain rfl := Option.some.inj hst
    refine ⟨ls, sleep_lists h.toSchedInv ms, ?_, fun x hx hlow => h.low x hx ?_⟩
    · exact (sleep_current st.sched ms).trans h.current
    · exact (sleep_field Pcb.priority (fun _ _ _ => rfl) st.sched ms x).symm.trans hlow
  | fork parent => exact hop.elim
  | yield => exact hop.elim
  | entryReturn => exact hop.elim

/-! ## 3. Exactly when -/

/-- A timer interrupt counts and calls `scheduler_tick`. -/
theorem run_interrupt (L : Layout) (st : SchedRun) {d esp : Nat} (hk : interrupt st.kernel (d, esp) = some k') :
    ∃ st', run (schedStep L) st [.timer, .tick d esp] = some st' ∧ st'.kernel = k' := by
  obtain ⟨⟨sw, k''⟩, hr, rfl⟩ := Option.map_eq_some_iff.mp hk
  refine ⟨(st.withSched st.sched.timerTick).ticked esp (sw, k''), ?_, by cases sw <;> rfl⟩
  refine run_cons_eq_some.mpr ⟨_, rfl, run_cons_eq_some.mpr ⟨_, ?_, rfl⟩⟩
  rw [schedStep]
  exact Option.map_eq_some_iff.mpr ⟨_, hr, rfl⟩

/-- One process of PRIORITY_LOW, and two timer interrupts. -/
def twoSlices : List SchedOp :=
  [.create [0x61] 0x100400 0 .low, .timer, .tick 10 0x8FF0, .timer, .tick 10 0x9FF0]

theorem twoSlices_issued {m : Machine} (h : Along (schedStep L) IdleYields (bootRun m) twoSlices)
    (hrun : run (schedStep L) (bootRun m) (twoSlices.take 4) = some st) :
    IdleYields st (.tick 10 0x9FF0) := by
  have hsplit : twoSlices = twoSlices.take 4 ++ [.tick 10 0x9FF0] := rfl
  rw [hsplit] at h
  exact h.issued hrun

/-- **The idle process takes turns** with a process of PRIORITY_LOW: after its first time slice that one
is back on its queue, and the idle process has the CPU. -/
theorem idle_takes_turns : ∃ m₀ st, vmmInit sampleLayout blankMachine = some m₀ ∧
    run (schedStep sampleLayout) (bootRun m₀) (twoSlices.take 4) = some st ∧
    st.sched.current = some (.pool 0) ∧ ¬ IdleYields st (.tick 10 0x9FF0) := by
  obtain ⟨m₀, dir, stack, m₁, hinit, -, -, hcreate⟩ := sample_create .low
  obtain ⟨ls, h, hsleep, hready⟩ := sample_lists hcreate
  have hempty : ∀ q : Priority, q.value < Priority.low.value → ls (.ready q) = [] := by
    intro q hq
    rw [hready, if_neg]
    rintro rfl
    exact absurd hq (Nat.lt_irrefl _)
  have h₀ : Turning (sampleSched .low dir stack) (ls .free) [] (fun q => ls (.ready q)) .low
      [.pool 0] .idle := by
    refine ⟨?_, rfl, rfl, rfl⟩
    have hint := h.toCurrent.listIntegrity
    rwa [hsleep, ← Function.update_eq_self .low (fun q => ls (.ready q)), hready, if_pos rfl] at hint
  obtain ⟨k₁, hk₁, h₁, -⟩ := h₀.step (k := ⟨m₁, sampleSched .low dir stack⟩) hempty (by simp) rfl
    (10, 0x8FF0)
  obtain ⟨k₂, hk₂, h₂, -⟩ := h₁.step (k := k₁) hempty (by simp) rfl (10, 0x9FF0)
  have hstep : schedStep sampleLayout (bootRun m₀) (.create [0x61] 0x100400 0 .low) =
      some ((bootRun m₀).created (some (.pool 0), ⟨m₁, sampleSched .low dir stack⟩)) := by
    simp only [schedStep, hcreate, Option.map_some]
  obtain ⟨st, hrun, rfl⟩ := run_interrupt sampleLayout
    ((bootRun m₀).created (some (.pool 0), ⟨m₁, sampleSched .low dir stack⟩)) hk₁
  refine ⟨m₀, st.withSched st.sched.timerTick, hinit, ?_, h₁.current, ?_⟩
  · refine run_cons_eq_some.mpr ⟨_, hstep, ?_⟩
    exact (run_append (schedStep sampleLayout) [.timer, .tick 10 0x8FF0] [.timer] _).trans
      (by rw [hrun]; rfl)
  · rintro ⟨r, hr, hlaw⟩
    obtain ⟨r', hr', rfl⟩ := Option.map_eq_some_iff.mp hk₂
    obtain rfl := Option.some.inj (hr.symm.trans hr')
    have hchain := h₂.lists.ready_chain .low
    rw [Function.update_self] at hchain
    exact absurd (hlaw h₂.current .low _ hchain (.pool 0) (by simp)) (by simp)

/-- **The idle process yields to all others** in every run that creates processes with the priorities of
`A` only, on any machine, if and only if PRIORITY_LOW is none of them. -/
theorem idle_yields_iff (A : Set Priority) :
    (∀ (L : Layout) (m : Machine) (ops : List SchedOp), (∀ op ∈ ops, CreatesIn A op) →
      Along (schedStep L) IdleYields (bootRun m) ops) ↔ .low ∉ A := by
  constructor
  · intro hall hlow
    obtain ⟨m₀, st, -, hrun, -, hnot⟩ := idle_takes_turns
    have halong := hall sampleLayout m₀ twoSlices (by simp [twoSlices, CreatesIn, hlow])
    exact hnot (twoSlices_issued halong hrun)
  · intro hA L m ops hops
    refine (along_of_forall (bootRun m) hops).imp (I := fun st => ∃ ls, NoRivals st ls)
      (fun st op ⟨ls, h⟩ _ => ?_) (fun st op st' ⟨ls, h⟩ hop hst => h.step hop hA hst)
      ⟨initLists, noRivals_boot m⟩
    cases op with
    | tick d esp => exact h.idleYields d esp
    | _ => trivial

/-- **A process loses the CPU to the idle process** although it could go on: the second interrupt finds
it running, puts it on its queue and gives the CPU to the idle process. -/
theorem idle_preempts_process : ∃ m₀ st, vmmInit sampleLayout blankMachine = some m₀ ∧
    run (schedStep sampleLayout) (bootRun m₀) (twoSlices.take 4) = some st ∧
    st.sched.current = some (.pool 0) ∧ ¬ IdleYields st (.tick 10 0x9FF0) ∧
    ¬ Along (schedStep sampleLayout) IdleYields (bootRun m₀) twoSlices := by
  obtain ⟨m₀, st, hinit, hrun, hcur, hnot⟩ := idle_takes_turns
  exact ⟨m₀, st, hinit, hrun, hcur, hnot, fun halong => hnot (twoSlices_issued halong hrun)⟩

end JarvOs.Process
