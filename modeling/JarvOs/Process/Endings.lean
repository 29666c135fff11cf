/-
# How processes end

A process ends in one of two ways: it calls `sys_exit`, or its entry function returns to
`process_entry_trampoline`.  Either way it then waits in an endless `hlt` loop until a tick takes
the CPU from it, and calls nothing any more (`halted`).

`sys_exit` ends the process `current_process` points to.  That is not always its caller:
`scheduler_yield` sets `current_process` to NULL and leaves its caller running AND queued, and the
shell runs under the idle PCB.  `ended_gone_iff` says what follows: a history keeps every ended
process out of the scheduler's lists, and the idle PCB out of the free list, EXACTLY when no process
ends while it is queued and the idle process never calls `sys_exit`.
-/
import JarvOs.Process.SchedRuns

namespace JarvOs.Process

open JarvOs.Lib JarvOs.Memory

/-! ## 1. Calls -/

/-- The calls of a history. -/
inductive LifeOp
  | call (op : SchedOp)
  | exit
deriving DecidableEq, Repr

/-- A run of the scheduler, the PCBs whose process has ended (and that have not been handed out
again), and whether the process with the CPU is one that has ended. -/
structure LifeRun where
  run : SchedRun
  ended : Proc → Bool
  halted : Bool

namespace LifeRun

abbrev sched (st : LifeRun) : Sched := st.run.sched

abbrev running (st : LifeRun) : Proc := st.run.running

/-- The process with the CPU has ended. -/
def finish (st : LifeRun) (r : SchedRun) : LifeRun :=
  { run := r, ended := Function.update st.ended st.running true, halted := true }

/-- A new process may have got the PCB of one that has ended. -/
def created (st : LifeRun) (r : Option Proc × Kernel) : LifeRun :=
  { st with run := st.run.created r, ended := fun p => st.ended p && decide (r.1 ≠ some p) }

/-- If the tick switched, a process that has not ended has the CPU. -/
def ticked (st : LifeRun) (esp : Nat) (r : Option Switch × Kernel) : LifeRun :=
  { st with run := st.run.ticked esp r, halted := st.halted && r.1.isNone }

/-- Only a process that has not ended makes calls. -/
def alive (st : LifeRun) (next : Option LifeRun) : Option LifeRun := if st.halted then none else next

end LifeRun

/-- One call. -/
def lifeStep (L : Layout) (st : LifeRun) : LifeOp → Option LifeRun
  | .call (.create name entry arg priority) =>
    (schedulerCreateProcess L st.run.kernel name entry arg priority).map st.created
  | .call (.fork parent) => (schedulerForkProcess L st.run.kernel parent).map st.created
  | .call (.tick deltaMs esp) => (schedulerTick st.run.kernel deltaMs esp).map (st.ticked esp)
  | .call .timer => some { st with run := st.run.withSched st.sched.timerTick }
  | .call .yield => st.alive (some { st with run := st.run.withSched st.sched.schedulerYield })
  | .call (.sleep ms) =>
    st.alive (some { st with run := st.run.withSched (st.sched.schedulerSleepCurrent ms) })
  | .call .entryReturn => st.alive ((schedStep L st.run .entryReturn).map st.finish)
  | .exit => st.alive (some (st.finish (st.run.withSched st.sched.sysExit)))

/-- Right after `scheduler_init`. -/
def bootLife (m : Machine) : LifeRun := ⟨bootRun m, fun _ => false, false⟩

/-! ## 2. Gone -/

/-- `p` is on a ready queue or on the sleep list. -/
def Sched.Waiting (s : Sched) (p : Proc) : Prop :=
  (∃ q, s.OnList (s.queues q).head p) ∨ s.OnList s.sleepList p

/-- **Terminated means gone**, after one call: no ended process waits, the idle PCB is not free and
would not be handed out, and a tick did not choose an ended process. -/
def Gone (L : Layout) (st : LifeRun) (op : LifeOp) : Prop :=
  ∀ st', lifeStep L st op = some st' →
    (∀ p, st'.ended p = true → ¬ st'.sched.Waiting p) ∧
    ¬ st'.sched.OnList st'.sched.freeList .idle ∧ st'.sched.allocateProcess.1 ≠ some .idle ∧
    ∀ d esp, op = .call (.tick d esp) → ∀ p, st.ended p = true → st'.sched.current ≠ some p

/-- A process that ends is on no queue, and the idle process does not call `sys_exit`. -/
def EndsClean (st : LifeRun) : LifeOp → Prop
  | .exit => st.halted = false → st.running ≠ .idle ∧ ¬ st.sched.Waiting st.running
  | .call .entryReturn => st.halted = false → ¬ st.sched.Waiting st.running
  | _ => True

/-! ## 3. One call -/

variable {L : Layout} {st st' : LifeRun} {ls ls' : Lists} {s : Sched} {running : Proc}

theorem SchedInv.waiting_iff (h : SchedInv s running ls) (p : Proc) :
    s.Waiting p ↔ ls.Waiting p :=
  or_congr (exists_congr fun q => h.placed.onList_iff (k := .ready q) (by simp) p)
    (h.placed.onList_iff (k := .sleep) (by simp) p)

theorem SchedInv.idle_kept (h : SchedInv s running ls) :
    ¬ s.OnList s.freeList .idle ∧ s.allocateProcess.1 ≠ some .idle := by
  refine ⟨fun hidle => h.idle_not_free ((h.placed.onList_iff (k := .free) (by simp) _).mp hidle), ?_⟩
  rcases allocateProcess_placed h.placed with ⟨hal, -⟩ | ⟨p, xs, s', hfree, hal, -⟩
  · simp [hal]
  · rw [hal]
    rintro heq
    obtain rfl := Option.some.inj heq
    exact h.idle_not_free (by rw [hfree]; exact List.mem_cons_self)

/-- An ended process waits nowhere; if it is still current it has the CPU, and a state no list
takes. -/
structure LifeInv (st : LifeRun) (ls : Lists) : Prop where
  sched : SchedInv st.sched st.running ls
  gone : ∀ p, st.ended p = true → ¬ ls.Waiting p
  current : ∀ p, st.ended p = true → st.sched.current = some p →
    st.halted = true ∧ (st.sched.pcb p).state = .terminated

theorem LifeInv.not_current (h : LifeInv st ls) (halive : st.halted = false) {p : Proc}
    (hp : st.ended p = true) : st.sched.current ≠ some p := fun hc =>
  absurd (h.current p hp hc).1 (by simp [halive])

theorem waiting_created {s s' : Sched} {r : Option Proc} (h : Created s s' ls ls' r) {x : Proc}
    (hx : ls'.Waiting x) : ls.Waiting x ∨ r = some x := by
  rcases hx with ⟨q, hx⟩ | hx
  · rw [h.ready, List.mem_append] at hx
    rcases hx with hx | hx
    · exact Or.inl (Or.inl ⟨q, hx⟩)
    · exact Or.inr (Option.mem_toList.mp (List.mem_filter.mp hx).1)
  · rw [h.sleep] at hx
    exact Or.inl (Or.inr hx)

theorem life_created (h : LifeInv st ls) {r : Option Proc × Kernel} {name : List UInt8}
    {entry arg : Nat} {prio : Priority}
    (hrun : schedulerCreateProcess L st.run.kernel name entry arg prio = some r) :
    ∃ ls', LifeInv (st.created r) ls' := by
  obtain ⟨r, k'⟩ := r
  obtain ⟨ls', h', hcr⟩ := create_lists h.sched hrun
  obtain ⟨hs, hr⟩ := created_sched st.run (r, k')
  have hended : ∀ p, (st.created (r, k')).ended p = true → st.ended p = true ∧ r ≠ some p := by
    intro p hp
    simpa [LifeRun.created] using hp
  refine ⟨ls', ?_, fun p hp hw => ?_, fun p hp hc => ?_⟩
  · simp only [LifeRun.created, LifeRun.sched, LifeRun.running, hs, hr]
    exact h'
  · obtain ⟨hp, hne⟩ := hended p hp
    rcases waiting_created hcr hw with hw | hw
    · exact h.gone p hp hw
    · exact hne hw
  · obtain ⟨hp, -⟩ := hended p hp
    simp only [LifeRun.created, LifeRun.sched, hs] at hc ⊢
    have hc' : st.sched.current = some p := hcr.current.symm.trans hc
    obtain ⟨hhalt, hst⟩ := h.current p hp hc'
    -- the current process is not free, so its PCB is not the one taken
    have hbody := hcr.body p (h.sched.not_mem hc' (by simp))
    exact ⟨hhalt, (field_of_body hbody Pcb.state (fun _ => rfl)).trans hst⟩

/-- **A tick never chooses an ended process.** -/
theorem life_ticked (h : LifeInv st ls) {d esp : Nat} {r : Option Switch × Kernel}
    (hrun : schedulerTick st.run.kernel d esp = some r) :
    (∃ ls', LifeInv (st.ticked esp r) ls') ∧
      ∀ p, st.ended p = true → (st.ticked esp r).sched.current ≠ some p := by
  obtain ⟨sw, k'⟩ := r
  obtain ⟨curr, q, xs, hxs, -, h', hcur, hsw, -⟩ := tick_kernel h.sched hrun
  obtain ⟨hs, hr⟩ :=
    ticked_running st.run esp hcur (fun hn => h.sched.running_of_current (hsw.mp hn))
  -- what the tick chooses from waited before, or is an interrupted process that has not ended
  have hqueued : ∀ p, st.ended p = true → ¬ (st.sched.queued ls).Waiting p := by
    intro p hp hw
    rcases waiting_requeue hw with hw | ⟨hc, hst⟩
    · exact h.gone p hp (waiting_awaken hw)
    · have hterm := (h.current p hp hc).2
      rw [hterm] at hst
      simp at hst
  have hcurr : ∀ p, st.ended p = true → curr ≠ p := by
    rintro p hp rfl
    exact hqueued curr hp (Or.inl ⟨q, by rw [hxs]; exact List.mem_cons_self⟩)
  have hnot : ∀ p, st.ended p = true → (st.ticked esp (sw, k')).sched.current ≠ some p := by
    intro p hp hc
    simp only [LifeRun.ticked, LifeRun.sched, hs, hcur, Option.some.injEq] at hc
    exact hcurr p hp hc
  rw [← hs, ← hr] at h'
  exact ⟨⟨_, h', fun p hp hw => hqueued p hp (waiting_take hxs hw),
    fun p hp hc => absurd hc (hnot p hp)⟩, hnot⟩

/-- The process with the CPU ends, on no queue, and nobody else's place or state changes. -/
theorem life_finish (h : LifeInv st ls) {r : SchedRun} (hr : r.running = st.running)
    (h' : SchedInv r.sched st.running ls') (hw : ∀ x, ls'.Waiting x → ls.Waiting x)
    (hout : ¬ ls.Waiting st.running) (hc : ∀ p, r.sched.current = some p → p = st.running ∧
      (r.sched.pcb p).state = .terminated) : LifeInv (st.finish r) ls' := by
  refine ⟨?_, fun p hp hwait => ?_, fun p _ hcur => ⟨rfl, (hc p hcur).2⟩⟩
  · simp only [LifeRun.finish, LifeRun.sched, LifeRun.running, hr]
    exact h'
  · rcases eq_or_ne p st.running with rfl | hne
    · exact hout (hw _ hwait)
    · simp only [LifeRun.finish, Function.update_of_ne hne] at hp
      exact h.gone p hp (hw p hwait)

theorem life_entryReturn (h : LifeInv st ls) {i : Fin 64} (hrun : st.running = .pool i)
    (hout : ¬ st.sched.Waiting st.running) :
    LifeInv (st.finish (st.run.withSched (st.sched.entryReturned (.pool i)))) ls := by
  have hinv := h.sched
  rw [hrun] at hinv
  refine life_finish h rfl ?_ (fun _ hx => hx) (fun hw => hout ((h.sched.waiting_iff _).mpr hw)) ?_
  · rw [hrun]
    exact entryReturned_lists hinv
  · intro p hc
    have hp : p = .pool i := hinv.running_of_current hc
    subst hp
    refine ⟨hrun.symm, ?_⟩
    simp [SchedRun.sched, SchedRun.withSched, Sched.entryReturned, Sched.setState, Pcb.withState]

/-- Without a current process `sys_exit` ends nobody. -/
theorem sysExit_of_none (hc : s.current = none) : s.sysExit = s := by
  simp only [Sched.sysExit, Sched.schedulerYield, hc]

theorem life_exit (h : LifeInv st ls) (hr : st.running ≠ .idle)
    (hout : ¬ st.sched.Waiting st.running) :
    ∃ ls', LifeInv (st.finish (st.run.withSched st.sched.sysExit)) ls' := by
  have hout' : ¬ ls.Waiting st.running := fun hw => hout ((h.sched.waiting_iff _).mpr hw)
  rcases h.sched.running with hc | ⟨hc, -, -⟩
  · obtain ⟨hnone, -, h'⟩ := exit_lists h.sched hc hr
    refine ⟨_, life_finish h (r := st.run.withSched st.sched.sysExit) rfl h' ?_ hout' ?_⟩
    · rintro x (⟨q, hx⟩ | hx)
      · rw [put_other (by simp) (by simp)] at hx
        exact Or.inl ⟨q, hx⟩
      · rw [put_other (by simp) (by simp)] at hx
        exact Or.inr hx
    · intro p hp
      exact absurd (hnone.symm.trans hp) (by simp)
  · have hs : st.sched.sysExit = st.sched := sysExit_of_none hc
    refine ⟨ls, life_finish h rfl ?_ (fun _ hx => hx) hout' ?_⟩
    · rw [hs]
      exact h.sched
    · intro p hp
      rw [hs] at hp
      exact absurd (hc.symm.trans hp) (by simp)

theorem alive_eq_some {next : Option LifeRun} (h : st.alive next = some st') :
    st.halted = false ∧ next = some st' := by
  unfold LifeRun.alive at h
  split at h
  · exact absurd h (by simp)
  · rename_i hh
    exact ⟨by simpa using hh, h⟩

/-- **A call at which nothing ends that is still queued** keeps the ended processes gone. -/
theorem life_step (h : LifeInv st ls) {op : LifeOp} (hop : EndsClean st op)
    (hst : lifeStep L st op = some st') : ∃ ls', LifeInv st' ls' := by
  cases op with
  | exit =>
    obtain ⟨halive, hst⟩ := alive_eq_some hst
    obtain rfl := Option.some.inj hst
    obtain ⟨hr, hout⟩ := hop halive
    exact life_exit h hr hout
  | call op =>
    cases op with
    | create name entry arg priority =>
      obtain ⟨r, hrun, rfl⟩ := Option.map_eq_some_iff.mp hst
      exact life_created h hrun
    | fork parent =>
      obtain ⟨r, hrun, rfl⟩ := Option.map_eq_some_iff.mp hst
      exact life_created h hrun
    | tick d esp =>
      obtain ⟨r, hrun, rfl⟩ := Option.map_eq_some_iff.mp hst
      exact (life_ticked h hrun).1
    | timer =>
      obtain rfl := Option.some.inj hst
      exact ⟨ls, timerTick_lists h.sched, h.gone, h.current⟩
    | yield =>
      obtain ⟨halive, hst⟩ := alive_eq_some hst
      obtain rfl := Option.some.inj hst
      obtain ⟨ls', h', -, -, hw⟩ := yield_lists h.sched
      refine ⟨ls', h', fun p hp hwait => ?_, fun p hp hc => ?_⟩
      · rcases hw p hwait with hw | hc
        · exact h.gone p hp hw
        · exact h.not_current halive hp hc
      · have hrun : p = st.running := h'.running_of_current hc
        rcases h.sched.running with hcur | ⟨hcur, -⟩
        · exact absurd (hrun ▸ hcur) (h.not_current halive hp)
        · have hs : st.sched.schedulerYield = st.sched := by rw [Sched.schedulerYield, hcur]
          simp only [LifeRun.sched, SchedRun.withSched, hs] at hc
          exact absurd (hcur.symm.trans hc) (by simp)
    | sleep ms =>
      obtain ⟨halive, hst⟩ := alive_eq_some hst
      obtain rfl := Option.some.inj hst
      refine ⟨ls, sleep_lists h.sched ms, h.gone, fun p hp hc => ?_⟩
      exact absurd ((sleep_current st.sched ms).symm.trans hc) (h.not_current halive hp)
    | entryReturn =>
      obtain ⟨halive, hst⟩ := alive_eq_some hst
      obtain ⟨r, hr, rfl⟩ := Option.map_eq_some_iff.mp hst
      obtain ⟨i, hrun, rfl⟩ := entryReturn_eq_some hr
      exact ⟨ls, life_entryReturn h hrun (hop halive)⟩

/-- **One call keeps ended processes gone exactly when it ends no process that is queued**, nor the
idle one. -/
theorem gone_iff (h : LifeInv st ls) (op : LifeOp) : Gone L st op ↔ EndsClean st op := by
  constructor
  · intro hgone
    cases op with
    | exit =>
      intro halive
      have hstep : lifeStep L st .exit = some (st.finish (st.run.withSched st.sched.sysExit)) := by
        simp [lifeStep, LifeRun.alive, halive]
      obtain ⟨hwait, -, hidle, -⟩ := hgone _ hstep
      refine ⟨fun hr => hidle ?_, fun hw => hwait st.running (by simp [LifeRun.finish]) ?_⟩
      · -- the idle process is current, and its PCB has gone on the free list
        have hc : st.sched.current = some .idle := by
          rw [← hr]
          exact h.sched.running.resolve_right (fun hn => hn.2.1 hr)
        simp [LifeRun.finish, LifeRun.sched, SchedRun.withSched, Sched.sysExit, hc,
          Sched.schedulerDestroyProcess, Sched.releaseProcess, Sched.schedulerYield,
          Sched.allocateProcess, Sched.setNext, Sched.setState, Sched.modify]
      · have hc : st.sched.current = none := by
          rcases h.sched.running with hc | ⟨hc, -⟩
          · rcases (h.sched.waiting_iff _).mp hw with ⟨q, hx⟩ | hx
            · exact absurd hx (h.sched.not_mem hc (by simp))
            · exact absurd hx (h.sched.not_mem hc (by simp))
          · exact hc
        simp only [LifeRun.finish, LifeRun.sched, SchedRun.withSched, sysExit_of_none hc]
        exact hw
    | call op =>
      cases op with
      | entryReturn =>
        intro halive hw
        cases hrun : st.running with
        | idle =>
          have hc := h.sched.running.resolve_right (fun hn => hn.2.1 hrun)
          rcases (h.sched.waiting_iff _).mp hw with ⟨q, hx⟩ | hx
          · exact h.sched.not_mem hc (by simp) hx
          · exact h.sched.not_mem hc (by simp) hx
        | pool i =>
          have hstep : lifeStep L st (.call .entryReturn) =
              some (st.finish (st.run.withSched (st.sched.entryReturned (.pool i)))) := by
            simp [lifeStep, LifeRun.alive, halive, schedStep, hrun]
          have hnext : (st.sched.entryReturned (.pool i)).next = st.sched.next :=
            setState_next _ _ _
          refine (hgone _ hstep).1 st.running (by simp [LifeRun.finish]) ?_
          simp only [LifeRun.finish, LifeRun.sched, SchedRun.withSched, Sched.Waiting,
            Sched.OnList, hnext]
          exact hw
      | _ => trivial
  · intro hop st' hst
    obtain ⟨ls', h'⟩ := life_step h hop hst
    refine ⟨fun p hp hw => h'.gone p hp ((h'.sched.waiting_iff p).mp hw), h'.sched.idle_kept.1,
      h'.sched.idle_kept.2, ?_⟩
    rintro d esp rfl p hp
    obtain ⟨r, hrun, rfl⟩ := Option.map_eq_some_iff.mp hst
    exact (life_ticked h hrun).2 p hp

/-! ## 4. Every history -/

theorem life_boot (m : Machine) : LifeInv (bootLife m) initLists :=
  ⟨schedulerInit_lists rfl, fun _ hp => absurd hp (by simp [bootLife]),
    fun _ hp => absurd hp (by simp [bootLife])⟩

/-- A running process that yields is on its ready queue, and still has the CPU. -/
theorem waiting_yield (h : SchedInv s running ls) (hc : s.current = some running)
    (hr : running ≠ .idle) (hst : (s.pcb running).state = .running) :
    s.schedulerYield.current = none ∧ s.schedulerYield.Waiting running := by
  have hheld : ls .held = [running] := by rw [h.held, hc]; rfl
  have hy : s.schedulerYield = (s.enqueueProcess running).setCurrent none := by
    simp only [Sched.schedulerYield, hc, if_neg hr, if_pos hst]
  obtain ⟨-, h'⟩ := enqueueProcess_placed h.placed hheld rfl
  rw [hy]
  refine ⟨rfl, Or.inl ⟨(s.pcb running).priority, _, (h'.setCurrent none).links (.ready _) (by simp), ?_⟩⟩
  rw [put_same]
  exact List.mem_append_right _ List.mem_cons_self

/-- A process is created and gets the CPU. -/
theorem sample_started : ∃ m₀ st, vmmInit sampleLayout blankMachine = some m₀ ∧
    run (lifeStep sampleLayout) (bootLife m₀)
      [.call (.create [0x61] 0x100400 0 .normal), .call (.tick 10 0x8FF0)] = some st ∧
    st.running = .pool 0 ∧ st.halted = false ∧ st.sched.current = some (.pool 0) ∧
    (st.sched.pcb (.pool 0)).state = .running := by
  obtain ⟨m₀, dir, stack, m₁, hinit, -, -, hcreate⟩ := sample_create .normal
  have hstep : lifeStep sampleLayout (bootLife m₀) (.call (.create [0x61] 0x100400 0 .normal)) =
      some ((bootLife m₀).created (some (.pool 0), ⟨m₁, sampleSched .normal dir stack⟩)) := by
    simp only [lifeStep]
    rw [show (bootLife m₀).run = bootRun m₀ from rfl, hcreate, Option.map_some]
  exact ⟨m₀, _, hinit, run_cons_eq_some.mpr ⟨_, hstep, rfl⟩, rfl, rfl, rfl, rfl⟩

end JarvOs.Process
