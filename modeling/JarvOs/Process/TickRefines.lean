/-
# `scheduler_tick` is a tick of the board

Three loops and a dozen pointer assignments on lists that share one link field, against the list
functions of `Lib.Board`: the code refines the policy.  The state need not be one the kernel can reach,
only one whose lists are lists; in particular the idle process may be anywhere.

What is read off the pointers afterwards is `Board.tick` of what was read off before.  Besides, the
chosen process is RUNNING, whoever was put on a ready queue is READY, and no priority or wake-up time
changes.
-/
import JarvOs.Process.SchedRuns
import JarvOs.Lib.Board

namespace JarvOs.Process

open JarvOs.Lib JarvOs.Memory

variable {s s' : Sched} {ls : Lists} {free sleep : List Proc} {ready : Priority → List Proc}
  {k : Kernel}

/-! ## 1. The board of a scheduler -/

namespace Sched

/-- The priorities of the processes. -/
def policy (s : Sched) : Policy Priority Proc :=
  ⟨[.realtime, .high, .normal, .low], fun p => (s.pcb p).priority, .idle⟩

/-- What becomes of the current process in a tick. -/
def fate (s : Sched) : Fate :=
  match s.current with
  | none => .gone
  | some p =>
    if (s.pcb p).state = .running then .runs
    else if (s.pcb p).state = .sleeping then .sleeps
    else .gone

/-- What a tick finds. -/
def moment (s : Sched) : Moment Proc := ⟨s.due, s.fate⟩

/-- The board with the given lists. -/
def board (s : Sched) (sleep : List Proc) (ready : Priority → List Proc) : Board Priority Proc :=
  ⟨ready, sleep, s.current⟩

@[simp] theorem board_ready (s : Sched) (sleep : List Proc) (ready : Priority → List Proc) :
    (s.board sleep ready).ready = ready := rfl

@[simp] theorem board_sleep (s : Sched) (sleep : List Proc) (ready : Priority → List Proc) :
    (s.board sleep ready).sleep = sleep := rfl

end Sched

/-- The lists of an integral scheduler, by place. -/
def gather (free sleep : List Proc) (ready : Priority → List Proc) (held : List Proc) : Lists
  | .free => free
  | .ready q => ready q
  | .sleep => sleep
  | .held => held

theorem ListIntegrity.toCurrent (h : ListIntegrity s free sleep ready) :
    Current s (gather free sleep ready s.current.toList) := by
  refine ⟨⟨fun i hi => ?_, h.ready_tail, ?_, fun hp => h.priority _ _ hp, fun hp => h.asleep _ hp⟩,
    rfl⟩
  · cases i with
    | free => exact h.free_chain
    | ready q => exact h.ready_chain q
    | sleep => exact h.sleep_chain
    | held => exact absurd rfl hi
  · refine exclusive_of_nodup [.free, .ready .realtime, .ready .high, .ready .normal,
      .ready .low, .sleep, .held] (fun i => ?_) ?_
    · cases i with
      | ready q => cases q <;> decide
      | _ => decide
    · simpa only [List.flatMap_cons, List.flatMap_nil, List.append_assoc, List.append_nil, gather]
        using h.once

theorem queue_eq (q : Priority) :
    (s.board (ls .sleep) (fun q => ls (.ready q))).queue s.policy s.moment q =
      s.queued ls (.ready q) := by
  rw [queued_ready, Board.queue]
  congr 1
  unfold Sched.interrupted Sched.moment Sched.fate
  cases hc : s.current with
  | none => simp
  | some p =>
    by_cases hrun : (s.pcb p).state = .running
    · rcases eq_or_ne (s.pcb p).priority q with hq | hq
      · simp [hrun, Sched.board, hc, Sched.policy, hq]
      · simp [hrun, Sched.board, hc, Sched.policy, hq]
    · by_cases hsl : (s.pcb p).state = .sleeping
      · simp [hsl]
      · simp [hrun, hsl]

theorem asleep_eq : (s.board (ls .sleep) (fun q => ls (.ready q))).asleep s.moment =
    s.queued ls .sleep := by
  rw [queued_sleep, Board.asleep]
  congr 1
  unfold Sched.moment Sched.fate
  cases hc : s.current with
  | none => simp
  | some p =>
    by_cases hrun : (s.pcb p).state = .running
    · simp [hrun]
    · by_cases hsl : (s.pcb p).state = .sleeping
      · simp [hsl, Sched.board, hc]
      · simp [hrun, hsl]

/-! ## 2. States -/

/-- `check_sleepers` makes the due ones READY. -/
theorem Woken.state_eq {ws : List Proc} (h : Woken s s' ws) (x : Proc) :
    (s'.pcb x).state = if x ∈ ws then .ready else (s.pcb x).state := by
  by_cases hx : x ∈ ws
  · have hb := h.body x
    rw [if_pos hx] at hb ⊢
    exact congrArg (fun c => c.state) hb
  · rw [if_neg hx, h.state hx]

theorem charge_sleep_state (s : Sched) (p : Proc) (d : Nat) (x : Proc) :
    (((s.modify p (·.charge d)).enqueueSleep p).pcb x).state = (s.pcb x).state := by
  have hlink := (relinked_setNext (s.modify p (·.charge d)) p (s.modify p (·.charge d)).sleepList).state x
  refine Eq.trans hlink ?_
  rcases eq_or_ne x p with rfl | hx
  · simp [Pcb.charge]
  · simp [hx]

/-- A RUNNING process that is interrupted is READY. -/
theorem preempt_state (s : Sched) (d : Nat) (x : Proc) :
    ((s.preempt d).pcb x).state =
      if s.current = some x ∧ (s.pcb x).state = .running then .ready else (s.pcb x).state := by
  unfold Sched.preempt
  cases hc : s.current with
  | none => simp
  | some p =>
    simp only
    by_cases hrun : (s.pcb p).state = .running
    · rw [if_pos hrun, setCurrent_pcb, (relinked_enqueue _ p).state]
      rcases eq_or_ne p x with rfl | hx
      · simp [Sched.setState, Pcb.withState, hrun]
      · simp [Sched.setState, hx, Ne.symm hx]
    · have hnot : ¬ (some p = some x ∧ (s.pcb x).state = .running) := by
        rintro ⟨heq, hst⟩
        exact hrun (Option.some.inj heq ▸ hst)
      rw [if_neg hrun, if_neg hnot]
      by_cases hsl : (s.pcb p).state = .sleeping
      · rw [if_pos hsl, setCurrent_pcb]
        exact charge_sleep_state s p d x
      · rw [if_neg hsl]

/-! ## 3. One tick -/

/-- The pointers of `s` spell out the board `b`, and the free list. -/
structure Spelled (s : Sched) (free : List Proc) (b : Board Priority Proc) : Prop where
  free : Chain s.next s.freeList free
  ready : ∀ q, Chain s.next (s.queues q).head (b.ready q)
  tail : ∀ q, (s.queues q).tail = (b.ready q).getLast?
  sleep : Chain s.next s.sleepList b.sleep
  current : s.current = b.current

/-- **What a tick has done** to a scheduler with the free list `free` and the board `b`. -/
structure TickDone (s s' : Sched) (free : List Proc) (b : Board Priority Proc) : Prop where
  spelled : Spelled s' free (b.tick s.policy s.moment)
  state : ∀ x, (s'.pcb x).state =
    if (b.top s.policy s.moment).isSome ∧ s'.current = some x then .running
    else if (x ∈ b.sleep ∧ s.due x = true) ∨ (s.current = some x ∧ (s.pcb x).state = .running)
      then .ready
    else (s.pcb x).state
  priority : ∀ x, (s'.pcb x).priority = (s.pcb x).priority
  wakeTick : ∀ x, (s'.pcb x).wakeTick = (s.pcb x).wakeTick
  tickCount : s'.tickCount = s.tickCount
  integrity : (b.top s.policy s.moment).isSome ∨
    (.idle ∉ free ∧ .idle ∉ (b.tick s.policy s.moment).sleep) →
      ListIntegrity s' free (b.tick s.policy s.moment).sleep (b.tick s.policy s.moment).ready

/-- The current process may be any that is on no list. -/
theorem Placed.hold {p : Proc} (h : Placed s ls) (hp : ∀ k, k ≠ .held → p ∉ ls k) :
    Placed s (Function.update ls .held [p]) := by
  have hexcl : Exclusive (Function.update ls .held [p]) := by
    have hempty : Exclusive (Function.update ls .held []) := h.exclusive.shrink (List.nil_sublist _)
    have hperm : [p].Perm (p :: Function.update ls .held [] .held) := by rw [Function.update_self]
    have hins := hempty.insert (fun k => ?_) hperm
    · rwa [Function.update_idem] at hins
    · rcases eq_or_ne k .held with rfl | hk
      · simp
      · rw [Function.update_of_ne hk]
        exact hp k hk
  refine ⟨fun i hi => ?_, fun q => ?_, hexcl, fun {q x} hx => ?_, fun {x} hx => ?_⟩
  · rw [Function.update_of_ne hi]
    exact h.links i hi
  · rw [Function.update_of_ne (by simp)]
    exact h.tail q
  · rw [Function.update_of_ne (by simp)] at hx
    exact h.priority hx
  · rw [Function.update_of_ne (by simp)] at hx
    exact h.asleep hx

theorem Placed.spelled (h : Placed s ls) {b : Board Priority Proc}
    (hready : b.ready = fun q => ls (.ready q)) (hsleep : b.sleep = ls .sleep)
    (hcur : s.current = b.current) : Spelled s (ls .free) b := by
  refine ⟨h.links .free (by simp), fun q => ?_, fun q => ?_, ?_, hcur⟩
  · rw [hready]
    exact h.links (.ready q) (by simp)
  · rw [hready]
    exact h.tail q
  · rw [hsleep]
    exact h.links .sleep (by simp)

/-- The states after a tick that makes the processes of `c` RUNNING. -/
theorem tick_state {s₁ s₃ : Sched} {d : Nat} (h : Current s ls)
    (hw : Woken s s₁ ((ls .sleep).filter s.due)) {c : Proc → Prop} [DecidablePred c]
    (hst : ∀ x, (s₃.pcb x).state = if c x then .running else ((s₁.preempt d).pcb x).state)
    (x : Proc) : (s₃.pcb x).state = if c x then .running
      else if (x ∈ ls .sleep ∧ s.due x = true) ∨ (s.current = some x ∧ (s.pcb x).state = .running)
        then .ready
      else (s.pcb x).state := by
  rw [hst x, preempt_state, hw.current, hw.state_eq]
  by_cases hcur : s.current = some x
  · have hx : x ∉ ls .sleep := h.not_mem hcur (by simp)
    simp [hcur, hx]
  · simp [hcur]

section Choice

variable {s₁ : Sched} {d : Nat}

/-- The highest level is that of the lists the tick chooses from. -/
theorem top_eq : (s.board (ls .sleep) (fun q => ls (.ready q))).top s.policy s.moment =
    [Priority.realtime, .high, .normal, .low].find? (fun q => !(s.queued ls (.ready q)).isEmpty) := by
  rw [Board.top, funext queue_eq]
  rfl

/-- **Somebody is ready.** -/
theorem tick_chosen (h : Current s ls) (hw : Woken s s₁ ((ls .sleep).filter s.due))
    (h₂ : Current (s₁.preempt d) (s.queued ls)) (hfix₂ : Fixed s (s₁.preempt d))
    (hclock₂ : (s₁.preempt d).tickCount = s.tickCount) {q : Priority}
    (hq : (s.board (ls .sleep) (fun q => ls (.ready q))).top s.policy s.moment = some q) :
    (s₁.preempt d).selectNext.2.current = some (s₁.preempt d).selectNext.1 ∧
      TickDone s (s₁.preempt d).selectNext.2 (ls .free)
        (s.board (ls .sleep) (fun q => ls (.ready q))) := by
  obtain ⟨p, xs, hxs, -, hp, hc, hst, hfix, hclock, h₃⟩ :=
    selectNext_first h₂.placed (top_eq.symm.trans hq)
  have hfixed := hfix₂.trans hfix
  -- the board after the tick is what the lists after the choice say
  have htick : (s.board (ls .sleep) (fun q => ls (.ready q))).tick s.policy s.moment =
      ⟨fun q' => Function.update ((s.queued ls).take (.ready q) p xs) .held [p] (.ready q'),
        Function.update ((s.queued ls).take (.ready q) p xs) .held [p] .sleep, some p⟩ := by
    have hsleep : Function.update ((s.queued ls).take (.ready q) p xs) .held [p] .sleep =
        s.queued ls .sleep := by
      rw [Function.update_of_ne (by simp), take_other (by simp) (by simp)]
    simp only [Board.tick, hq, asleep_eq, funext queue_eq, hxs, List.tail_cons, List.head?_cons,
      hsleep, Board.mk.injEq, and_true]
    funext q'
    rw [Function.update_of_ne (show Place.ready q' ≠ .held by simp)]
    rcases eq_or_ne q' q with rfl | hne
    · rw [Function.update_self, take_same (by simp)]
    · rw [Function.update_of_ne hne, take_other (by simp) (by simpa using hne)]
  have hint := (⟨h₃, by rw [hc]; exact Function.update_self _ _ _⟩ : Current _ _).listIntegrity
  have hspell := h₃.spelled (b := ⟨_, _, some p⟩) rfl rfl hc
  rw [chosen_free] at hint hspell
  refine ⟨by rw [hc, hp], ?_, fun x => ?_, hfixed.field Pcb.priority (fun _ => rfl),
    hfixed.field Pcb.wakeTick (fun _ => rfl), hclock.trans hclock₂, fun _ => ?_⟩
  · rw [htick]
    exact hspell
  · rw [hq, hc]
    refine tick_state (d := d) h hw (c := fun x => (some q).isSome ∧ some p = some x) (fun x => ?_) x
    rw [hst x]
    simp only [Option.isSome_some, true_and, Option.some.injEq, eq_comm]
  · rw [htick]
    exact hint

/-- **Nobody is ready.** -/
theorem tick_idle (h : Current s ls) (hw : Woken s s₁ ((ls .sleep).filter s.due))
    (h₂ : Current (s₁.preempt d) (s.queued ls)) (hfix₂ : Fixed s (s₁.preempt d))
    (hclock₂ : (s₁.preempt d).tickCount = s.tickCount)
    (hq : (s.board (ls .sleep) (fun q => ls (.ready q))).top s.policy s.moment = none) :
    (s₁.preempt d).selectNext.2.current = some (s₁.preempt d).selectNext.1 ∧
      TickDone s (s₁.preempt d).selectNext.2 (ls .free)
        (s.board (ls .sleep) (fun q => ls (.ready q))) := by
  have hnil : ∀ q, s.queued ls (.ready q) = [] := by
    have hnone := hq
    rw [top_eq, List.find?_eq_none] at hnone
    exact fun q => by simpa using hnone q (by cases q <;> simp)
  have hsel : (s₁.preempt d).selectNext = (.idle, (s₁.preempt d).setCurrent (some .idle)) := by
    have hpick : (s₁.preempt d).pickNextProcess = none := by
      rw [pickNextProcess_spec h₂.placed, List.findSome?_eq_none_iff]
      exact fun q _ => by rw [hnil q]; rfl
    rw [Sched.selectNext, hpick]
  have htick : (s.board (ls .sleep) (fun q => ls (.ready q))).tick s.policy s.moment =
      ⟨fun q => s.queued ls (.ready q), s.queued ls .sleep, some .idle⟩ := by
    simp only [Board.tick, hq, asleep_eq, funext queue_eq]
    rfl
  have hfree : s.queued ls .free = ls .free := by
    rw [Sched.queued, requeue_free]
    rfl
  have hspell := (h₂.placed.setCurrent (some .idle)).spelled (b := ⟨_, _, some .idle⟩) rfl rfl rfl
  rw [hfree] at hspell
  rw [hsel]
  refine ⟨rfl, ?_, fun x => ?_, hfix₂.field Pcb.priority (fun _ => rfl),
    hfix₂.field Pcb.wakeTick (fun _ => rfl), hclock₂, fun hidle => ?_⟩
  · rw [htick]
    exact hspell
  · rw [hq]
    exact tick_state (d := d) h hw (c := fun x => (none : Option Priority).isSome ∧ some .idle = some x)
      (fun x => by simp) x
  · rw [hq, htick] at hidle
    obtain ⟨hf, hs⟩ := hidle.resolve_left (by simp)
    have hnew : Current ((s₁.preempt d).setCurrent (some .idle))
        (Function.update (s.queued ls) .held [.idle]) :=
      ⟨(h₂.placed.setCurrent _).hold (fun k hk => ?_), Function.update_self _ _ _⟩
    · have hint := hnew.listIntegrity
      simp only [Function.update_of_ne (show Place.free ≠ .held by simp),
        Function.update_of_ne (show Place.sleep ≠ .held by simp), hfree] at hint
      rw [htick]
      exact hint
    · cases k with
      | free => rwa [hfree]
      | ready q => simp [hnil q]
      | sleep => exact hs
      | held => exact absurd rfl hk

/-- **The lists and the states after a tick**, before the context is switched. -/
theorem tick_sched (h : Current s ls) (d : Nat) :
    ∃ s₁, s.checkSleepers = some s₁ ∧
      (s₁.preempt d).selectNext.2.current = some (s₁.preempt d).selectNext.1 ∧
      TickDone s (s₁.preempt d).selectNext.2 (ls .free)
        (s.board (ls .sleep) (fun q => ls (.ready q))) := by
  obtain ⟨s₁, hrun, hw, h₂, hfix, hclock⟩ := h.queued d
  cases hq : (s.board (ls .sleep) (fun q => ls (.ready q))).top s.policy s.moment with
  | some q => exact ⟨s₁, hrun, tick_chosen h hw h₂ hfix hclock hq⟩
  | none => exact ⟨s₁, hrun, tick_idle h hw h₂ hfix hclock hq⟩

end Choice

/-! ## 4. The context switch -/

theorem stackPtr_next (s : Sched) (p : Proc) (esp : Nat) :
    (s.modify p (fun c => { c with stackPtr := esp })).next = s.next :=
  funext (stackPtr_field s p esp Pcb.next (fun _ => rfl))

theorem ListIntegrity.setStackPtr (h : ListIntegrity s free sleep ready) (p : Proc) (esp : Nat) :
    ListIntegrity (s.modify p (fun c => { c with stackPtr := esp })) free sleep ready := by
  have hnext := stackPtr_next s p esp
  refine ⟨?_, ?_, fun q => ?_, h.ready_tail, h.ready_empty, h.once, fun q x hx => ?_, fun x hx => ?_⟩
  · rw [hnext]
    exact h.free_chain
  · rw [hnext]
    exact h.sleep_chain
  · rw [hnext]
    exact h.ready_chain q
  · rw [stackPtr_field s p esp Pcb.priority (fun _ => rfl)]
    exact h.priority q x hx
  · rw [stackPtr_field s p esp Pcb.state (fun _ => rfl)]
    exact h.asleep x hx

theorem TickDone.setStackPtr {b : Board Priority Proc} (h : TickDone s s' free b) (p : Proc)
    (esp : Nat) : TickDone s (s'.modify p (fun c => { c with stackPtr := esp })) free b := by
  have hnext := stackPtr_next s' p esp
  refine ⟨⟨?_, fun q => ?_, h.spelled.tail, ?_, h.spelled.current⟩, fun x => ?_, fun x => ?_,
    fun x => ?_, h.tickCount, fun hidle => (h.integrity hidle).setStackPtr p esp⟩
  · rw [hnext]
    exact h.spelled.free
  · rw [hnext]
    exact h.spelled.ready q
  · rw [hnext]
    exact h.spelled.sleep
  · rw [stackPtr_field s' p esp Pcb.state (fun _ => rfl)]
    exact h.state x
  · rw [stackPtr_field s' p esp Pcb.priority (fun _ => rfl)]
    exact h.priority x
  · rw [stackPtr_field s' p esp Pcb.wakeTick (fun _ => rfl)]
    exact h.wakeTick x

/-- With a current process the call returns. -/
theorem tick_done (h : ListIntegrity k.sched free sleep ready) {c : Proc}
    (hc : k.sched.current = some c) (d esp : Nat) :
    ∃ r, schedulerTick k d esp = some r ∧
      TickDone k.sched r.2.sched free (k.sched.board sleep ready) := by
  obtain ⟨s₁, hs₁, -, hdone⟩ := tick_sched h.toCurrent d
  simp only [schedulerTick, hs₁, hc, Option.bind_eq_bind, Option.bind_some]
  split
  · exact ⟨_, rfl, hdone⟩
  · exact ⟨_, rfl, hdone.setStackPtr c esp⟩

/-- Without one it saves the stack pointer at address 60. -/
theorem tick_done_noCurrent (h : ListIntegrity k.sched free sleep ready)
    (hc : k.sched.current = none) (d esp : Nat) :
    Ensures (∀ dir, ((vmmSwitchDirectory k.mach dir).store32 60 esp).isSome) (schedulerTick k d esp)
      (fun r => TickDone k.sched r.2.sched free (k.sched.board sleep ready)) := by
  obtain ⟨s₁, hs₁, -, hdone⟩ := tick_sched h.toCurrent d
  simp only [schedulerTick, hs₁, hc, Option.bind_eq_bind, Option.bind_some, contextSwitch,
    if_neg (Option.some_ne_none _).symm]
  refine ⟨fun r hr => ?_, fun hmapped => ?_⟩
  · simp only [Option.bind_eq_some_iff, Option.map_eq_some_iff] at hr
    obtain ⟨_, ⟨m, -, rfl⟩, hr⟩ := hr
    obtain rfl := Option.some.inj hr
    exact hdone
  · have hloaded : ∀ m, m = vmmSwitchDirectory k.mach m.cr3 → (m.store32 60 esp).isSome := by
      intro m hm
      rw [hm]
      exact hmapped m.cr3
    rw [Option.isSome_bind, Option.any_map]
    exact hloaded _ (by split <;> rfl)

end JarvOs.Process
