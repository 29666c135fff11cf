/-
# What the calls of the scheduler do to its lists

One specification per function, over the lists of `Placed`: where each process goes, and which
fields of which PCBs change.  `check_sleepers` removes from the list it is walking while it puts
the removed processes on other lists through the same link field; its loop is specified for any
position in the sleep list, the part already walked and kept on one side, the rest on the other.
-/
import JarvOs.Process.Lists
import JarvOs.Memory.PageTables

namespace JarvOs.Process

open JarvOs.Lib

variable {s s' : Sched} {ls ls' : Lists} {p t : Proc} {hs xs ys kept rest : List Proc}

/-! ## 1. `check_sleepers` -/

/-- The processes `ws` have been made READY, and nothing else has happened to any PCB. -/
structure Woken (s s' : Sched) (ws : List Proc) : Prop where
  body : ∀ x, (s'.pcb x).body =
    if x ∈ ws then (s.pcb x).body.withState .ready else (s.pcb x).body
  current : s'.current = s.current
  tickCount : s'.tickCount = s.tickCount
  nextPid : s'.nextPid = s.nextPid

/-- The lists after `ws` have left the sleep list, where `kept` stay. -/
structure Wakes (s : Sched) (ls ls' : Lists) (ws kept : List Proc) : Prop where
  sleep : ls' .sleep = kept
  ready : ∀ q, ls' (.ready q) = ls (.ready q) ++ ws.filter (fun p => (s.pcb p).priority = q)
  free : ls' .free = ls .free
  held : ls' .held = ls .held

theorem Woken.field {β : Type} {ws : List Proc} (h : Woken s s' ws) (f : Pcb → β)
    (hf : ∀ c, f c.body = f c) (hst : ∀ c : Pcb, f (c.withState .ready) = f c) (x : Proc) :
    f (s'.pcb x) = f (s.pcb x) := by
  rw [← hf, h.body]
  split
  · rw [hst, hf]
  · rw [hf]

theorem Woken.state {ws : List Proc} (h : Woken s s' ws) {x : Proc} (hx : x ∉ ws) :
    (s'.pcb x).state = (s.pcb x).state := by
  have hb := h.body x
  rw [if_neg hx] at hb
  exact congrArg (fun c => c.state) hb

theorem Woken.trans {s'' : Sched} {ws ws' : List Proc} (h : Woken s s' ws) (h' : Woken s' s'' ws') :
    Woken s s'' (ws ++ ws') := by
  refine ⟨fun x => ?_, h'.current.trans h.current, h'.tickCount.trans h.tickCount,
    h'.nextPid.trans h.nextPid⟩
  rw [h'.body x, h.body x]
  by_cases hx : x ∈ ws <;> by_cases hx' : x ∈ ws' <;> simp [hx, hx', Pcb.withState]

theorem Wakes.trans {ls'' : Lists} {ws ws' ks ks' : List Proc} (h : Wakes s ls ls' ws ks)
    (h' : Wakes s' ls' ls'' ws' ks') (hprio : ∀ x, (s'.pcb x).priority = (s.pcb x).priority) :
    Wakes s ls ls'' (ws ++ ws') ks' := by
  refine ⟨h'.sleep, fun q => ?_, h'.free.trans h.free, h'.held.trans h.held⟩
  simp only [h'.ready q, h.ready q, hprio, List.filter_append, List.append_assoc]

/-- Unlinking the process after `kept` from the sleep list. -/
theorem unlink_placed (h : Placed s ls) (hls : ls .sleep = kept ++ p :: rest) :
    Relinked s (s.unlinkSleeper kept.getLast? (s.pcb p).next) ∧
      Placed (s.unlinkSleeper kept.getLast? (s.pcb p).next)
        (ls.take .sleep p (kept ++ rest)) := by
  have hnd := h.exclusive.nodup .sleep
  have hlink := h.links .sleep (by simp)
  rw [hls] at hnd hlink
  obtain ⟨c, hkept, rfl, hrest⟩ := path_append.mp hlink
  have hperm : (kept ++ p :: rest).Perm (p :: (kept ++ rest)) := List.perm_middle
  have hsub : (kept ++ rest).Sublist (kept ++ p :: rest) :=
    List.Sublist.append_left (List.sublist_cons_self _ _) _
  obtain ⟨s', hs', hr, hhead, hqueues, hnext, hchain⟩ : ∃ s',
      s.unlinkSleeper kept.getLast? (s.pcb p).next = s' ∧ Relinked s s' ∧
      (∀ k, k ≠ .sleep → s'.head k = s.head k) ∧ s'.queues = s.queues ∧
      (∀ x, x ∉ ls .sleep → s'.next x = s.next x) ∧
      Chain s'.next (s'.head .sleep) (kept ++ rest) := by
    refine ⟨_, rfl, ?_⟩
    cases hlast : kept.getLast? with
    | none =>
      obtain rfl := List.getLast?_eq_none_iff.mp hlast
      refine ⟨⟨fun _ => rfl, rfl, rfl, rfl⟩, fun k hk => ?_, rfl, fun _ _ => rfl, hrest⟩
      cases k with
      | sleep => exact absurd rfl hk
      | _ => rfl
    | some t =>
      have ht : t ∈ kept := List.mem_of_getLast? hlast
      have htr : t ∉ rest := fun hr =>
        (List.nodup_append.mp hnd).2.2 t ht t (List.mem_cons_of_mem _ hr) rfl
      refine ⟨relinked_setNext s t _, fun k _ => congrFun (head_setNext s t _) k, rfl,
        fun x hx => ?_, ?_⟩
      · simp only [Sched.unlinkSleeper, setNext_next]
        refine Function.update_of_ne ?_ _ _
        rintro rfl
        exact hx (by rw [hls]; exact List.mem_append_left _ ht)
      · simp only [Sched.unlinkSleeper, setNext_next, head_setNext]
        exact path_append.mpr ⟨s.next p, hkept.relink (List.nodup_append.mp hnd).1 hlast _,
          hrest.update_off htr _⟩
  rw [hs']
  refine ⟨hr, h.move (i := .sleep) (j := .held) hr (by simp) (by rw [hls]; exact hperm)
    (by rw [hls]; exact hsub) (List.Perm.refl _) (fun k hk _ _ => ⟨hhead k hk, fun x hx => ?_⟩)
    (fun _ => hchain) (fun hne => absurd rfl hne) (fun q => ?_) (fun q hq => absurd hq (by simp))
    (fun hq => absurd hq (by simp))⟩
  · exact hnext x (h.exclusive.not_mem hx hk.symm)
  · rw [hqueues, Function.update_of_ne (by simp), Function.update_of_ne (by simp)]
    exact h.tail q

/-- One sleeper is woken. -/
theorem wakeSleeper_placed (h : Placed s ls) (hls : ls .sleep = kept ++ p :: rest) :
    Woken s (s.wakeSleeper kept.getLast? p) [p] ∧
      ∃ ls', Placed (s.wakeSleeper kept.getLast? p) ls' ∧ Wakes s ls ls' [p] (kept ++ rest) := by
  obtain ⟨hr₁, h₁⟩ := unlink_placed h hls
  have hheld : ls.take .sleep p (kept ++ rest) .held = p :: ls .held := take_held _
  have h₂ : Placed ((s.unlinkSleeper kept.getLast? (s.pcb p).next).setState p .ready)
      (ls.take .sleep p (kept ++ rest)) :=
    h₁.modify_held (fun k hk => h₁.not_mem_of_held hheld hk) _
  have hprio : (((s.unlinkSleeper kept.getLast? (s.pcb p).next).setState p .ready).pcb p).priority =
      (s.pcb p).priority := by
    rw [← hr₁.priority p]
    simp [Sched.setState, Pcb.withState]
  obtain ⟨hr₃, h₃⟩ := enqueueProcess_placed h₂ hheld hprio
  refine ⟨⟨fun x => ?_, hr₃.current.trans hr₁.current, hr₃.tickCount.trans hr₁.tickCount,
    hr₃.nextPid.trans hr₁.nextPid⟩, _, h₃, ?_, fun q => ?_, ?_, put_held (by simp)⟩
  · rw [Sched.wakeSleeper, hr₃.body x]
    by_cases hx : x = p
    · subst hx
      rw [if_pos (by simp), setState_pcb, Function.update_self, body_withState, hr₁.body x]
    · rw [if_neg (by simpa using hx), setState_pcb, Function.update_of_ne hx, hr₁.body x]
  · rw [put_other (by simp) (by simp), take_same (by simp)]
  · by_cases hq : q = (s.pcb p).priority
    · subst hq
      rw [put_same, take_other (by simp) (by simp)]
      simp
    · rw [put_other (by simp) (by simpa using hq), take_other (by simp) (by simp)]
      simp [Ne.symm hq]
  · rw [put_other (by simp) (by simp), take_other (by simp) (by simp)]

/-- Its time has come. -/
def Sched.due (s : Sched) (p : Proc) : Bool := decide ((s.pcb p).wakeTick ≤ s.tickCount)

/-- **The loop of `check_sleepers`**, from any position on: it ends, wakes exactly the processes
whose time has come, in order, and keeps the others, in order. -/
theorem checkSleepersFrom_spec : ∀ (rest : List Proc) (fuel : Nat) (s : Sched) (ls : Lists)
    (kept : List Proc), Placed s ls → ls .sleep = kept ++ rest → rest.length < fuel →
    ∃ s' ls', Sched.checkSleepersFrom fuel s kept.getLast? rest.head? = some s' ∧ Placed s' ls' ∧
      Woken s s' (rest.filter s.due) ∧
      Wakes s ls ls' (rest.filter s.due) (kept ++ rest.filter (fun p => !s.due p)) := by
  intro rest
  induction rest with
  | nil =>
    intro fuel s ls kept h hls hfuel
    obtain ⟨fuel, rfl⟩ : ∃ n, fuel = n + 1 := ⟨fuel - 1, by simp at hfuel; omega⟩
    refine ⟨s, ls, rfl, h, ⟨fun x => by simp, rfl, rfl, rfl⟩, ?_⟩
    exact ⟨by simpa using hls, fun q => by simp, rfl, rfl⟩
  | cons p rest ih =>
    intro fuel s ls kept h hls hfuel
    obtain ⟨fuel, rfl⟩ : ∃ n, fuel = n + 1 := ⟨fuel - 1, by simp at hfuel; omega⟩
    have hlen : rest.length < fuel := by simpa using hfuel
    -- the link of `p` leads to the rest of the list
    have hnext : (s.pcb p).next = rest.head? := by
      have hlink := h.links .sleep (by simp)
      rw [hls] at hlink
      obtain ⟨c, -, -, hrest⟩ := path_append.mp hlink
      exact Chain.head hrest
    simp only [List.head?_cons, Sched.checkSleepersFrom, hnext]
    by_cases hdue : (s.pcb p).wakeTick ≤ s.tickCount
    · rw [if_pos hdue]
      obtain ⟨hw₁, ls₁, h₁, hl₁⟩ := wakeSleeper_placed h hls
      obtain ⟨s', ls', hrun, h', hw', hl'⟩ := ih fuel _ ls₁ kept h₁ hl₁.sleep hlen
      have hsame : (s.wakeSleeper kept.getLast? p).due = s.due := by
        funext x
        rw [Sched.due, Sched.due, hw₁.tickCount, hw₁.field Pcb.wakeTick (fun _ => rfl) (fun _ => rfl)]
      rw [hsame] at hw' hl'
      have hd : s.due p = true := decide_eq_true hdue
      simp only [List.filter_cons, hd, if_true, Bool.not_true, Bool.false_eq_true, if_false]
      exact ⟨s', ls', hrun, h', hw₁.trans hw',
        hl₁.trans hl' (hw₁.field Pcb.priority (fun _ => rfl) (fun _ => rfl))⟩
    · rw [if_neg hdue]
      have hd : s.due p = false := decide_eq_false hdue
      obtain ⟨s', ls', hrun, h', hw', hl'⟩ := ih fuel s ls (kept ++ [p]) h (by simp [hls]) hlen
      rw [List.getLast?_concat] at hrun
      refine ⟨s', ls', hrun, h', ?_, ?_⟩
      · simpa [List.filter_cons, hd] using hw'
      · simpa [List.filter_cons, hd] using hl'

instance : Fintype Proc :=
  Fintype.ofEquiv (Option (Fin 64))
    ⟨fun o => o.elim .idle .pool, fun | .pool i => some i | .idle => none,
      fun o => by cases o <;> rfl, fun p => by cases p <;> rfl⟩

theorem card_proc : Fintype.card Proc = 65 := rfl

/-- **`check_sleepers`** ends; it puts exactly the processes whose time has come on their ready
queues, in the order of the sleep list, and leaves the others on it. -/
theorem checkSleepers_spec (h : Placed s ls) :
    ∃ s' ls', s.checkSleepers = some s' ∧ Placed s' ls' ∧ Woken s s' ((ls .sleep).filter s.due) ∧
      Wakes s ls ls' ((ls .sleep).filter s.due) ((ls .sleep).filter (fun p => !s.due p)) := by
  have hlen : (ls .sleep).length < 66 := by
    have := (h.exclusive.nodup .sleep).length_le_card
    rw [card_proc] at this
    omega
  have hhead : s.sleepList = (ls .sleep).head? := (h.links .sleep (by simp)).head
  rw [Sched.checkSleepers, hhead]
  exact checkSleepersFrom_spec (ls .sleep) 66 s ls [] h rfl hlen

/-! ## 2. `scheduler_tick` on the lists -/

/-- What a tick leaves alone in a PCB. -/
def Pcb.fixed (c : Pcb) : Pcb := { c with next := none, state := .ready, cpuTimeMs := 0 }

/-- No PCB has changed but for its link, its state and its account. -/
def Fixed (s s' : Sched) : Prop := ∀ x, (s'.pcb x).fixed = (s.pcb x).fixed

theorem Fixed.trans {s'' : Sched} (h : Fixed s s') (h' : Fixed s' s'') : Fixed s s'' :=
  fun x => (h' x).trans (h x)

theorem Fixed.field {β : Type} (h : Fixed s s') (f : Pcb → β) (hf : ∀ c, f c.fixed = f c)
    (x : Proc) : f (s'.pcb x) = f (s.pcb x) := by
  rw [← hf, h, hf]

theorem Relinked.fixed (h : Relinked s s') : Fixed s s' := h.field Pcb.fixed (fun _ => rfl)

theorem Woken.fixed {ws : List Proc} (h : Woken s s' ws) : Fixed s s' :=
  h.field Pcb.fixed (fun _ => rfl) (fun _ => rfl)

theorem fixed_modify (f : Pcb → Pcb) (hf : ∀ c, (f c).fixed = c.fixed) : Fixed s (s.modify p f) := by
  intro x
  by_cases hx : x = p
  · subst hx
    rw [modify_pcb, Function.update_self, hf]
  · rw [modify_pcb, Function.update_of_ne hx]

/-- The lists and the current process agree: what is held is the current process. -/
structure Current (s : Sched) (ls : Lists) : Prop where
  placed : Placed s ls
  held : ls .held = s.current.toList

theorem Current.not_mem (h : Current s ls) (hc : s.current = some p) {k : Place} (hk : k ≠ .held) :
    p ∉ ls k :=
  h.placed.not_mem_of_held (show ls .held = [p] by rw [h.held, hc]; rfl) hk

/-- **What a tick does with the process it interrupts**: a running one becomes the last READY one of
its priority, a sleeping one the first on the sleep list, any other stays where it is. -/
theorem preempt_spec (h : Current s ls) (d : Nat) :
    Fixed s (s.preempt d) ∧
      ((s.preempt d = s ∧ ∀ p, s.current = some p → (s.pcb p).state ≠ .running ∧
          (s.pcb p).state ≠ .sleeping) ∨
        ∃ p, s.current = some p ∧ (s.preempt d).current = none ∧
          (((s.pcb p).state = .running ∧ Current (s.preempt d)
              (ls.put [] (.ready (s.pcb p).priority) (ls (.ready (s.pcb p).priority) ++ [p]))) ∨
            ((s.pcb p).state = .sleeping ∧
              Current (s.preempt d) (ls.put [] .sleep (p :: ls .sleep))))) := by
  cases hc : s.current with
  | none =>
    have hs : s.preempt d = s := by rw [Sched.preempt, hc]
    rw [hs]
    exact ⟨fun _ => rfl, Or.inl ⟨rfl, fun p hp => absurd hp (by simp)⟩⟩
  | some p =>
    have hheld : ls .held = [p] := by rw [h.held, hc]; rfl
    have hoff : ∀ k, k ≠ .held → p ∉ ls k := fun k hk => h.not_mem hc hk
    simp only [Sched.preempt, hc]
    by_cases hrun : (s.pcb p).state = .running
    · rw [if_pos hrun]
      obtain ⟨hr, h₂⟩ := enqueueProcess_placed (s := (s.modify p (·.charge d)).setState p .ready)
        ((h.placed.modify_held hoff _).modify_held hoff _) hheld (q := (s.pcb p).priority)
        (by simp [Sched.setState, Pcb.withState, Pcb.charge])
      have hfix : Fixed s ((s.modify p (·.charge d)).setState p .ready) :=
        Fixed.trans (fixed_modify (·.charge d) (fun _ => rfl))
          (fixed_modify (·.withState .ready) (fun _ => rfl))
      exact ⟨hfix.trans hr.fixed, Or.inr ⟨p, rfl, rfl, Or.inl ⟨hrun, h₂.setCurrent none,
        put_held (by simp)⟩⟩⟩
    · rw [if_neg hrun]
      by_cases hsl : (s.pcb p).state = .sleeping
      · rw [if_pos hsl]
        obtain ⟨hr, h₂⟩ := enqueueSleep_placed (s := s.modify p (·.charge d))
          (h.placed.modify_held hoff _) hheld (by simpa [Pcb.charge] using hsl)
        have hfix : Fixed s (s.modify p (·.charge d)) := fixed_modify _ (fun _ => rfl)
        exact ⟨hfix.trans hr.fixed, Or.inr ⟨p, rfl, rfl, Or.inr ⟨hsl, h₂.setCurrent none,
          put_held (by simp)⟩⟩⟩
      · rw [if_neg hsl]
        refine ⟨fun _ => rfl, Or.inl ⟨rfl, fun p' hp' => ?_⟩⟩
        obtain rfl := Option.some.inj hp'
        exact ⟨hrun, hsl⟩

/-- **`pick_next_process`** finds the first process of the first non-empty queue. -/
theorem pickNextProcess_spec (h : Placed s ls) :
    s.pickNextProcess = [Priority.realtime, .high, .normal, .low].findSome?
      (fun q => (ls (.ready q)).head?) := by
  unfold Sched.pickNextProcess
  congr 1
  funext q
  exact h.ready_head q

/-- Searching lists for a first element is searching for a list that has one. -/
theorem findSome_head {ρ α : Type} (f : ρ → List α) : ∀ qs : List ρ,
    qs.findSome? (fun q => (f q).head?) =
      (qs.find? (fun q => !(f q).isEmpty)).bind (fun q => (f q).head?)
  | [] => rfl
  | q :: qs => by
    cases hq : f q with
    | nil =>
      rw [List.findSome?_cons_of_isNone (by simp [hq]), List.find?_cons_of_neg (by simp [hq])]
      exact findSome_head f qs
    | cons x xs =>
      rw [List.findSome?_cons_of_isSome (by simp [hq]), List.find?_cons_of_pos (by simp [hq])]
      rfl

/-- A search through the queues ends at a process that only the lowest one can have. -/
theorem findSome_low {f : Priority → Option Proc} {p : Proc} (hnot : ∀ q, q ≠ .low → f q ≠ some p) :
    [Priority.realtime, .high, .normal, .low].findSome? f = some p ↔
      f .low = some p ∧ ∀ q, q ≠ .low → f q = none := by
  have hr := hnot .realtime (by simp)
  have hh := hnot .high (by simp)
  have hn := hnot .normal (by simp)
  constructor
  · intro h
    rcases hr' : f .realtime with _ | x <;> rcases hh' : f .high with _ | y <;>
      rcases hn' : f .normal with _ | z <;> rcases hl' : f .low with _ | w <;>
      simp_all
    rintro (_ | _ | _ | _) hq <;> simp_all
  · rintro ⟨hl, hnone⟩
    simp [hnone .realtime (by simp), hnone .high (by simp), hnone .normal (by simp), hl]

/-- **The choice of a tick**: the first process of the first non-empty queue becomes the current
one, and RUNNING; whoever was current is no longer. -/
theorem selectNext_first (h : Placed s ls) {q : Priority}
    (hq : [Priority.realtime, .high, .normal, .low].find?
      (fun q => !(ls (.ready q)).isEmpty) = some q) :
    ∃ p xs, ls (.ready q) = p :: xs ∧ s.pickNextProcess = some p ∧ s.selectNext.1 = p ∧
      s.selectNext.2.current = some p ∧
      (∀ x, (s.selectNext.2.pcb x).state = if x = p then .running else (s.pcb x).state) ∧
      Fixed s s.selectNext.2 ∧ s.selectNext.2.tickCount = s.tickCount ∧
      Placed s.selectNext.2 (Function.update (ls.take (.ready q) p xs) .held [p]) := by
  obtain ⟨p, xs, hxs⟩ : ∃ p xs, ls (.ready q) = p :: xs :=
    List.exists_cons_of_ne_nil (by simpa using List.find?_some hq)
  have hp : s.pickNextProcess = some p := by
    rw [pickNextProcess_spec h, findSome_head, hq, Option.bind_some, hxs, List.head?_cons]
  have hprio : (s.pcb p).priority = q := h.priority (by rw [hxs]; exact List.mem_cons_self)
  obtain ⟨s₁, hdeq, hr, h₁⟩ := dequeueProcess_placed h hxs
  have hsel : s.selectNext = (p, (s₁.setState p .running).setCurrent (some p)) := by
    rw [Sched.selectNext, hp]
    simp only [hprio, hdeq]
  have hoff : ∀ k, k ≠ .held → p ∉ ls.take (.ready q) p xs k := fun k hk =>
    h₁.not_mem_of_held (take_held _) hk
  have hfix : Fixed s₁ (s₁.setState p .running) := fixed_modify _ (fun _ => rfl)
  refine ⟨p, xs, hxs, hp, by rw [hsel], by rw [hsel]; rfl, fun x => ?_, ?_, ?_, ?_⟩
  · rw [hsel]
    rcases eq_or_ne x p with rfl | hx
    · simp [Sched.setState, Pcb.withState]
    · simp [Sched.setState, hx, hr.state]
  · rw [hsel]
    exact hr.fixed.trans hfix
  · rw [hsel]
    exact hr.tickCount
  · rw [hsel]
    have h₂ : Placed (s₁.setState p .running) (ls.take (.ready q) p xs) := h₁.modify_held hoff _
    refine (h₂.setCurrent (some p)).drop ?_
    rw [take_held]
    exact (List.nil_sublist _).cons_cons _

/-- There is a first non-empty queue if there is any. -/
theorem exists_first {q : Priority} (hne : ls (.ready q) ≠ []) :
    ∃ q, [Priority.realtime, .high, .normal, .low].find?
      (fun q => !(ls (.ready q)).isEmpty) = some q := by
  rw [← Option.isSome_iff_exists, List.find?_isSome]
  exact ⟨q, by cases q <;> simp, by simpa using hne⟩

/-! ## 3. The invariant of the scheduler -/

/-- The scheduler between two calls, while `running` has the CPU: the idle process is the current
one, and RUNNING, or is on the lowest queue; and `running` is the current process, or has given up
that role without having gone to sleep. -/
structure SchedInv (s : Sched) (running : Proc) (ls : Lists) : Prop extends Current s ls where
  idlePriority : (s.pcb .idle).priority = .low
  idle : (s.current = some .idle ∧ (s.pcb .idle).state = .running) ∨ .idle ∈ ls (.ready .low)
  running : s.current = some running ∨ (s.current = none ∧ running ≠ .idle ∧ running ∉ ls .sleep)

theorem SchedInv.running_of_current {running : Proc} (h : SchedInv s running ls)
    (hc : s.current = some p) : p = running := by
  rcases h.running with hr | ⟨hr, -⟩
  · exact Option.some.inj (hc.symm.trans hr)
  · exact absurd (hc.symm.trans hr) (by simp)

/-- The idle process is never current but RUNNING. -/
theorem SchedInv.idle_running {running : Proc} (h : SchedInv s running ls)
    (hc : s.current = some .idle) : (s.pcb .idle).state = .running := by
  rcases h.idle with ⟨-, hst⟩ | hmem
  · exact hst
  · exact absurd hmem (h.not_mem hc (by simp))

theorem Current.wake {ws kept : List Proc} (h : Current s ls) (hw : Woken s s' ws)
    (hl : Wakes s ls ls' ws kept) (h' : Placed s' ls') : Current s' ls' :=
  ⟨h', by rw [hl.held, h.held, hw.current]⟩

namespace Sched

/-- The lists after `check_sleepers`: the sleepers whose time has come are on their queues. -/
def awaken (s : Sched) (ls : Lists) : Lists
  | .sleep => (ls .sleep).filter (fun p => !s.due p)
  | .ready q => ls (.ready q) ++ ((ls .sleep).filter s.due).filter (fun p => (s.pcb p).priority = q)
  | k => ls k

/-- The lists after a tick has put away the process it interrupts. -/
def requeue (s : Sched) (ls : Lists) : Lists :=
  match s.current with
  | none => ls
  | some p =>
    if (s.pcb p).state = .running then
      ls.put [] (.ready (s.pcb p).priority) (ls (.ready (s.pcb p).priority) ++ [p])
    else if (s.pcb p).state = .sleeping then ls.put [] .sleep (p :: ls .sleep)
    else ls

/-- **The lists a tick chooses from.** -/
def queued (s : Sched) (ls : Lists) : Lists := s.requeue (s.awaken ls)

end Sched

theorem Wakes.eq_awaken
    (h : Wakes s ls ls' ((ls .sleep).filter s.due) ((ls .sleep).filter (fun p => !s.due p))) :
    ls' = s.awaken ls := by
  funext k
  cases k with
  | free => exact h.free
  | ready q => exact h.ready q
  | sleep => exact h.sleep
  | held => exact h.held

/-- Waking others does not change what happens to the interrupted process. -/
theorem Woken.requeue {ws : List Proc} (h : Woken s s' ws)
    (hcur : ∀ p, s.current = some p → p ∉ ws) (ls : Lists) : s'.requeue ls = s.requeue ls := by
  unfold Sched.requeue
  rw [h.current]
  cases hc : s.current with
  | none => rfl
  | some p =>
    simp only [h.state (hcur p hc), h.fixed.field Pcb.priority (fun _ => rfl) p]

/-- The three things that can happen to the interrupted process. -/
theorem requeue_cases (s : Sched) (ls : Lists) :
    (s.requeue ls = ls ∧ ∀ p, s.current = some p →
        (s.pcb p).state ≠ .running ∧ (s.pcb p).state ≠ .sleeping) ∨
      (∃ p, s.current = some p ∧ (s.pcb p).state = .running ∧ s.requeue ls =
        ls.put [] (.ready (s.pcb p).priority) (ls (.ready (s.pcb p).priority) ++ [p])) ∨
      ∃ p, s.current = some p ∧ (s.pcb p).state = .sleeping ∧
        s.requeue ls = ls.put [] .sleep (p :: ls .sleep) := by
  unfold Sched.requeue
  cases hc : s.current with
  | none => exact Or.inl ⟨rfl, fun p hp => absurd hp (by simp)⟩
  | some p =>
    by_cases hrun : (s.pcb p).state = .running
    · exact Or.inr (Or.inl ⟨p, rfl, hrun, if_pos hrun⟩)
    · by_cases hsl : (s.pcb p).state = .sleeping
      · exact Or.inr (Or.inr ⟨p, rfl, hsl, (if_neg hrun).trans (if_pos hsl)⟩)
      · refine Or.inl ⟨(if_neg hrun).trans (if_neg hsl), fun p' hp' => ?_⟩
        obtain rfl := Option.some.inj hp'
        exact ⟨hrun, hsl⟩

theorem Current.requeue (h : Current s ls) (d : Nat) : Current (s.preempt d) (s.requeue ls) := by
  obtain ⟨-, ⟨hs, hstate⟩ | ⟨p, hc, -, ⟨hst, h'⟩ | ⟨hst, h'⟩⟩⟩ := preempt_spec h d
  · rw [hs]
    rcases requeue_cases s ls with ⟨hls, -⟩ | ⟨p, hc, hst, -⟩ | ⟨p, hc, hst, -⟩
    · rwa [hls]
    · exact absurd hst (hstate p hc).1
    · exact absurd hst (hstate p hc).2
  · simpa only [Sched.requeue, hc, if_pos hst] using h'
  · have hne : (s.pcb p).state ≠ .running := by
      rw [hst]
      simp
    simpa only [Sched.requeue, hc, if_neg hne, if_pos hst] using h'

theorem preempt_tickCount (s : Sched) (d : Nat) : (s.preempt d).tickCount = s.tickCount := by
  unfold Sched.preempt
  split
  · rfl
  · split
    · exact (relinked_enqueue _ _).tickCount
    · split
      · rfl
      · rfl

/-- **The first half of a tick**: the sleepers whose time has come and the interrupted process are
where they belong. -/
theorem Current.queued (h : Current s ls) (d : Nat) :
    ∃ s₁, s.checkSleepers = some s₁ ∧ Woken s s₁ ((ls .sleep).filter s.due) ∧
      Current (s₁.preempt d) (s.queued ls) ∧ Fixed s (s₁.preempt d) ∧
      (s₁.preempt d).tickCount = s.tickCount := by
  obtain ⟨s₁, ls₁, hrun, h₁, hw, hl⟩ := checkSleepers_spec h.placed
  have hcur₁ : Current s₁ ls₁ := h.wake hw hl h₁
  -- the interrupted process is not among the sleepers
  have hls : s₁.requeue ls₁ = s.queued ls := by
    rw [hl.eq_awaken, Sched.queued]
    refine hw.requeue (fun p hp hmem => ?_) _
    exact h.not_mem hp (by simp) (List.mem_filter.mp hmem).1
  refine ⟨s₁, hrun, hw, hls ▸ hcur₁.requeue d, hw.fixed.trans (preempt_spec hcur₁ d).1,
    (preempt_tickCount s₁ d).trans hw.tickCount⟩

theorem requeue_free (s : Sched) (ls : Lists) : s.requeue ls .free = ls .free := by
  rcases requeue_cases s ls with ⟨hls, -⟩ | ⟨p, -, -, hls⟩ | ⟨p, -, -, hls⟩ <;> rw [hls]
  · exact put_other (by simp) (by simp)
  · exact put_other (by simp) (by simp)

/-- A process on a ready queue stays there. -/
theorem mem_requeue {q : Priority} {x : Proc} (hx : x ∈ ls (.ready q)) :
    x ∈ s.requeue ls (.ready q) := by
  rcases requeue_cases s ls with ⟨hls, -⟩ | ⟨p, -, -, hls⟩ | ⟨p, -, -, hls⟩ <;> rw [hls]
  · exact hx
  · by_cases hq : (s.pcb p).priority = q
    · rw [hq, put_same]
      exact List.mem_append_left _ hx
    · rwa [put_other (by simp) (by simpa using Ne.symm hq)]
  · rwa [put_other (by simp) (by simp)]

/-- The interrupted process, if it goes back to queue `q`. -/
def Sched.interrupted (s : Sched) (q : Priority) : List Proc :=
  s.current.toList.filter (fun p => (s.pcb p).state = .running ∧ (s.pcb p).priority = q)

/-- **A ready queue a tick chooses from**: who was on it, the sleepers that are due, and the
interrupted process. -/
theorem queued_ready (s : Sched) (ls : Lists) (q : Priority) :
    s.queued ls (.ready q) = ls (.ready q) ++
      ((ls .sleep).filter s.due).filter (fun p => (s.pcb p).priority = q) ++ s.interrupted q := by
  rw [Sched.queued]
  rcases requeue_cases s (s.awaken ls) with ⟨hls, hst⟩ | ⟨p, hc, hst, hls⟩ | ⟨p, hc, hst, hls⟩ <;>
    rw [hls]
  · have hnil : s.interrupted q = [] := by
      cases hc : s.current with
      | none => simp [Sched.interrupted, hc]
      | some p => simp [Sched.interrupted, hc, (hst p hc).1]
    rw [hnil, List.append_nil]
    rfl
  · by_cases hq : (s.pcb p).priority = q
    · rw [hq, put_same]
      simp [Sched.interrupted, hc, hst, hq, Sched.awaken]
    · rw [put_other (by simp) (by simpa using Ne.symm hq)]
      simp [Sched.interrupted, hc, hst, hq, Sched.awaken]
  · rw [put_other (by simp) (by simp)]
    simp [Sched.interrupted, hc, hst, Sched.awaken]

/-- A ready queue when a tick interrupts the idle process and nobody sleeps. -/
theorem queued_ready_of_idle {running : Proc} (h : SchedInv s running ls)
    (hc : s.current = some .idle) (hsleep : ls .sleep = []) (q : Priority) :
    s.queued ls (.ready q) = ls (.ready q) ++ if q = .low then [.idle] else [] := by
  rw [queued_ready, hsleep]
  by_cases hq : q = .low <;>
    simp [Sched.interrupted, hc, h.idle_running hc, h.idlePriority, hq, Ne.symm]

/-- The sleep list a tick leaves: the sleepers that are not due, behind the interrupted process if
that has gone to sleep. -/
theorem queued_sleep (s : Sched) (ls : Lists) :
    s.queued ls .sleep = s.current.toList.filter (fun p => (s.pcb p).state = .sleeping) ++
      (ls .sleep).filter (fun p => !s.due p) := by
  rw [Sched.queued]
  rcases requeue_cases s (s.awaken ls) with ⟨hls, hst⟩ | ⟨p, hc, hst, hls⟩ | ⟨p, hc, hst, hls⟩ <;>
    rw [hls]
  · cases hc : s.current with
    | none => simp [Sched.awaken]
    | some p => simp [Sched.awaken, (hst p hc).2]
  · rw [put_other (by simp) (by simp)]
    simp [hc, hst, Sched.awaken]
  · rw [put_same]
    simp [hc, hst, Sched.awaken]

/-- `x` waits on a ready queue or on the sleep list. -/
def Lists.Waiting (ls : Lists) (x : Proc) : Prop := (∃ q, x ∈ ls (.ready q)) ∨ x ∈ ls .sleep

/-- What waits after a running or sleeping process has been put away, waited before or is that
process. -/
theorem waiting_requeue {x : Proc} (hx : (s.requeue ls).Waiting x) :
    ls.Waiting x ∨
      (s.current = some x ∧ ((s.pcb x).state = .running ∨ (s.pcb x).state = .sleeping)) := by
  rcases requeue_cases s ls with ⟨hls, -⟩ | ⟨p, hc, hst, hls⟩ | ⟨p, hc, hst, hls⟩ <;> rw [hls] at hx
  · exact Or.inl hx
  · rcases hx with ⟨q, hx⟩ | hx
    · by_cases hq : (s.pcb p).priority = q
      · rw [hq, put_same, List.mem_append, List.mem_singleton] at hx
        rcases hx with hx | rfl
        · exact Or.inl (Or.inl ⟨q, hx⟩)
        · exact Or.inr ⟨hc, Or.inl hst⟩
      · rw [put_other (by simp) (by simpa using Ne.symm hq)] at hx
        exact Or.inl (Or.inl ⟨q, hx⟩)
    · rw [put_other (by simp) (by simp)] at hx
      exact Or.inl (Or.inr hx)
  · rcases hx with ⟨q, hx⟩ | hx
    · rw [put_other (by simp) (by simp)] at hx
      exact Or.inl (Or.inl ⟨q, hx⟩)
    · rw [put_same, List.mem_cons] at hx
      rcases hx with rfl | hx
      · exact Or.inr ⟨hc, Or.inr hst⟩
      · exact Or.inl (Or.inr hx)

theorem waiting_awaken {x : Proc} (hx : (s.awaken ls).Waiting x) : ls.Waiting x := by
  rcases hx with ⟨q, hx⟩ | hx
  · rcases List.mem_append.mp hx with hx | hx
    · exact Or.inl ⟨q, hx⟩
    · exact Or.inr (List.mem_filter.mp (List.mem_filter.mp hx).1).1
  · exact Or.inr (List.mem_filter.mp hx).1

/-- What waits after a call took a process off a ready queue, waited before. -/
theorem waiting_take {q : Priority} (hls : ls (.ready q) = p :: xs) {x : Proc}
    (hx : Lists.Waiting (Function.update (ls.take (.ready q) p xs) .held hs) x) : ls.Waiting x := by
  rcases hx with ⟨q', hx⟩ | hx
  · rw [Function.update_of_ne (by simp)] at hx
    by_cases hq : q' = q
    · subst hq
      rw [take_same (by simp)] at hx
      exact Or.inl ⟨q', by rw [hls]; exact List.mem_cons_of_mem _ hx⟩
    · rw [take_other (by simp) (by simpa using hq)] at hx
      exact Or.inl ⟨q', hx⟩
  · rw [Function.update_of_ne (by simp), take_other (by simp) (by simp)] at hx
    exact Or.inr hx

/-- When a tick chooses, the idle process is on the lowest queue. -/
theorem idle_queued {running : Proc} (h : SchedInv s running ls) :
    .idle ∈ s.queued ls (.ready .low) := by
  rcases h.idle with ⟨hc, hst⟩ | hmem
  · simp only [Sched.queued, Sched.requeue, hc, hst, h.idlePriority, if_true]
    rw [put_same]
    exact List.mem_append_right _ List.mem_cons_self
  · exact mem_requeue (List.mem_append_left _ hmem)

/-- **The choice of a tick**, in terms of the lists before it. -/
theorem tick_choice {running : Proc} (h : SchedInv s running ls) (d : Nat) :
    ∃ s₁ curr q xs, s.checkSleepers = some s₁ ∧ (s₁.preempt d).selectNext.1 = curr ∧
      (s₁.preempt d).selectNext.2.current = some curr ∧
      Fixed s (s₁.preempt d).selectNext.2 ∧ s.queued ls (.ready q) = curr :: xs ∧
      [Priority.realtime, .high, .normal, .low].findSome?
        (fun q => (s.queued ls (.ready q)).head?) = some curr ∧
      SchedInv (s₁.preempt d).selectNext.2 curr
        (Function.update ((s.queued ls).take (.ready q) curr xs) .held [curr]) := by
  obtain ⟨s₁, hrun, -, hcur₂, hfix₂, -⟩ := h.toCurrent.queued d
  obtain ⟨q, hq⟩ := exists_first (List.ne_nil_of_mem (idle_queued h))
  obtain ⟨p, xs, hxs, hpick, hp, hcur, hst, hfix, -, h₃⟩ := selectNext_first hcur₂.placed hq
  have hfixed : Fixed s (s₁.preempt d).selectNext.2 := hfix₂.trans hfix
  refine ⟨s₁, p, q, xs, hrun, hp, hcur, hfixed, hxs,
    (pickNextProcess_spec hcur₂.placed).symm.trans hpick,
    ⟨⟨h₃, by rw [hcur]; exact Function.update_self _ _ _⟩, ?_, ?_, Or.inl hcur⟩⟩
  · rw [hfixed.field Pcb.priority (fun _ => rfl)]
    exact h.idlePriority
  · by_cases hpi : p = .idle
    · subst hpi
      exact Or.inl ⟨hcur, by rw [hst, if_pos rfl]⟩
    · refine Or.inr ?_
      have hidle := idle_queued h
      rw [Function.update_of_ne (by simp)]
      by_cases hq : q = .low
      · subst hq
        rw [hxs] at hidle
        rw [take_same (by simp)]
        exact (List.mem_cons.mp hidle).resolve_left (Ne.symm hpi)
      · rwa [take_other (by simp) (by simpa using Ne.symm hq)]

/-- No tick takes a PCB from the free list, or puts one there. -/
theorem chosen_free (s : Sched) (ls : Lists) (q : Priority) (curr : Proc) (xs : List Proc) :
    Function.update ((s.queued ls).take (.ready q) curr xs) .held [curr] .free = ls .free := by
  rw [Function.update_of_ne (by simp), take_other (by simp) (by simp), Sched.queued, requeue_free]
  rfl

/-- **A tick on the lists.**  It ends, there always is a next process, and that process has the
CPU from then on. -/
theorem tick_lists {running : Proc} (h : SchedInv s running ls) (d : Nat) :
    ∃ s₁, s.checkSleepers = some s₁ ∧ Fixed s (s₁.preempt d).selectNext.2 ∧
      (s₁.preempt d).selectNext.2.current = some (s₁.preempt d).selectNext.1 ∧
      ∃ ls', ls' .free = ls .free ∧
        SchedInv (s₁.preempt d).selectNext.2 (s₁.preempt d).selectNext.1 ls' := by
  obtain ⟨s₁, curr, q, xs, hrun, rfl, hcur, hfix, -, -, h'⟩ := tick_choice h d
  exact ⟨s₁, hrun, hfix, hcur, _, chosen_free .., h'⟩

/-! ## 4. `scheduler_create_process` on the lists -/

/-- A call that leaves the current process, the sleep list and the idle process alone. -/
theorem SchedInv.of_placed {running : Proc} (h : SchedInv s running ls) (h' : Placed s' ls')
    (hcur : s'.current = s.current) (hheld : ls' .held = ls .held) (hsleep : ls' .sleep = ls .sleep)
    (hready : ∀ x ∈ ls (.ready .low), x ∈ ls' (.ready .low))
    (hidle : (s'.pcb .idle).body = (s.pcb .idle).body) : SchedInv s' running ls' := by
  have hprio : (s'.pcb .idle).priority = (s.pcb .idle).priority :=
    field_of_body hidle Pcb.priority (fun _ => rfl)
  have hstate : (s'.pcb .idle).state = (s.pcb .idle).state :=
    field_of_body hidle Pcb.state (fun _ => rfl)
  refine ⟨⟨h', by rw [hheld, hcur, h.held]⟩, hprio.trans h.idlePriority, ?_, ?_⟩
  · rw [hcur, hstate]
    exact h.idle.imp_right (hready _)
  · rw [hcur, hsleep]
    exact h.running

theorem SchedInv.idle_not_free {running : Proc} (h : SchedInv s running ls) : .idle ∉ ls .free := by
  rcases h.idle with ⟨hc, -⟩ | hmem
  · exact h.not_mem hc (by simp)
  · exact h.placed.exclusive.not_mem hmem (by simp)

/-- What a call of `scheduler_create_process` that returned `r` has done to the scheduler: a PCB
that was not free is unchanged but for its link, and a PCB that has left the free list is the
returned one, with a directory of its own, its stack pointer at the frame in its stack page, and
last on a ready queue. -/
structure Created (s s' : Sched) (ls ls' : Lists) (r : Option Proc) : Prop where
  body : ∀ x, x ∉ ls .free → (s'.pcb x).body = (s.pcb x).body
  free : ∀ x ∈ ls' .free, x ∈ ls .free
  taken : ∀ x ∈ ls .free, x ∉ ls' .free → r = some x
  frame : ∀ p, r = some p → p ∈ ls .free ∧ (s'.pcb p).stackPtr = (s'.pcb p).stackPhys + 4076
  directory : ∀ p, r = some p → (s'.pcb p).pageDirectory ≠ 0
  current : s'.current = s.current
  sleep : ls' .sleep = ls .sleep
  ready : ∀ q, ls' (.ready q) = ls (.ready q) ++
    r.toList.filter (fun p => (s'.pcb p).priority = q)

variable {L : Memory.Layout} {k k' : Kernel}

/-- The stack page is a frame, so the address of the first frame does not wrap. -/
theorem frame_addr {m m' : Memory.Machine} {dir a : Nat}
    (h : processMemory L m = some (dir, a, m')) : sub32 (add32 a 4096) 20 = a + 4076 := by
  have hlt : ∀ {m m' : Memory.Machine} {a : Nat}, m.allocPage = some (a, m') → a < 4096 * 16384 := by
    intro m m' a h
    rcases Memory.allocPage_spec m with ⟨h', -⟩ | ⟨q, hq, bm, h', -⟩
    · rw [h, Option.some.injEq, Prod.mk.injEq] at h'
      omega
    · rw [h, Option.some.injEq, Prod.mk.injEq] at h'
      have := (Memory.isFrame_of_free hq).2
      omega
  have ha : a < 4096 * 16384 := by
    unfold processMemory at h
    obtain ⟨⟨dir', m₁⟩, -, h⟩ := Option.bind_eq_some_iff.mp h
    obtain ⟨⟨stack, m₂⟩, halloc, h⟩ := Option.bind_eq_some_iff.mp h
    simp only at h
    split at h
    · simp only [Option.some.injEq, Prod.mk.injEq] at h
      omega
    · obtain ⟨m₃, -, h⟩ := Option.bind_eq_some_iff.mp h
      simp only [Option.some.injEq, Prod.mk.injEq] at h
      have := hlt halloc
      omega
  rw [add32_of_lt (by omega), sub32_of_le (by omega) (by omega)]
  omega

/-- Where there is a stack page there is a directory: without a frame for the one there is none for
the other. -/
theorem processMemory_dir {m m' : Memory.Machine} {dir a : Nat}
    (h : processMemory L m = some (dir, a, m')) (ha : a ≠ 0) :
    ∃ q ∈ Memory.freeFrames m.bitmap, dir = 4096 * q := by
  simp only [processMemory, Memory.vmmCreateAddressSpace, Option.bind_eq_bind] at h
  rcases Memory.allocPage_spec m with ⟨halloc, -⟩ | ⟨q, hq, bm, halloc, -⟩
  · simp only [halloc, Option.bind_some, if_true, Option.some.injEq, Prod.mk.injEq] at h
    exact absurd h.2.1.symm ha
  · have hq0 : 4096 * q ≠ 0 := by
      have := (Memory.isFrame_of_free hq).1
      omega
    refine ⟨q, hq, ?_⟩
    simp only [halloc, Option.bind_some, if_neg hq0] at h
    obtain ⟨⟨dir, m₁⟩, hdir, h⟩ := Option.bind_eq_some_iff.mp h
    obtain ⟨m₂, -, hdir⟩ := Option.bind_eq_some_iff.mp hdir
    obtain ⟨m₃, -, hdir⟩ := Option.bind_eq_some_iff.mp hdir
    simp only [Option.some.injEq, Prod.mk.injEq] at hdir
    obtain ⟨⟨stack, m₄⟩, -, h⟩ := Option.bind_eq_some_iff.mp h
    simp only at h
    split at h
    · simp only [Option.some.injEq, Prod.mk.injEq] at h
      omega
    · obtain ⟨m₅, -, h⟩ := Option.bind_eq_some_iff.mp h
      simp only [Option.some.injEq, Prod.mk.injEq] at h
      omega

/-- The PCB `p` has been taken off the free list and is in the hands of the call, which may have changed
it. -/
structure Taken (s s' : Sched) (ls : Lists) (p : Proc) (xs : List Proc) : Prop where
  free : ls .free = p :: xs
  placed : Placed s' (ls.take .free p xs)
  current : s'.current = s.current
  body : ∀ x, x ≠ p → (s'.pcb x).body = (s.pcb x).body

section Hand

variable {s₁ : Sched} {running : Proc}

theorem Taken.modify (h : Taken s s₁ ls p xs) (f : Pcb → Pcb) : Taken s (s₁.modify p f) ls p xs := by
  refine ⟨h.free, h.placed.modify_held (fun k hk => h.placed.not_mem_of_held (take_held _) hk) f,
    h.current, fun x hx => ?_⟩
  rw [modify_pcb, Function.update_of_ne hx]
  exact h.body x hx

theorem Taken.mem (h : Taken s s₁ ls p xs) : p ∈ ls .free := by
  rw [h.free]
  exact List.mem_cons_self

theorem Taken.ne_idle (h : Taken s s₁ ls p xs) (hinv : SchedInv s running ls) : .idle ≠ p := by
  rintro rfl
  exact hinv.idle_not_free h.mem

/-- What becomes of a process that is on no list the call touches. -/
theorem Taken.body_of_used (h : Taken s s₁ ls p xs) {x : Proc} (hx : x ∉ ls .free) :
    (s₁.pcb x).body = (s.pcb x).body :=
  h.body x (fun heq => hx (heq ▸ h.mem))

/-- The PCB is given back. -/
theorem Taken.release (h : Taken s s₁ ls p xs) (hinv : SchedInv s running ls) :
    ∃ ls', SchedInv (s₁.releaseProcess p) running ls' ∧
      Created s (s₁.releaseProcess p) ls ls' none := by
  obtain ⟨hr, h'⟩ := releaseProcess_placed h.placed (take_held _)
  have hcur := hr.current.trans h.current
  have hback : (ls.take .free p xs).put (ls .held) .free (p :: ls.take .free p xs .free) .free =
      ls .free := by
    rw [put_same, take_same (by simp), h.free]
  have hother : ∀ {k}, k ≠ .free → k ≠ .held →
      (ls.take .free p xs).put (ls .held) .free (p :: ls.take .free p xs .free) k = ls k := by
    intro k hf hh
    rw [put_other hh hf, take_other hh hf]
  refine ⟨_, hinv.of_placed h' hcur (put_held (by simp)) (hother (by simp) (by simp))
    (fun x hx => by rwa [hother (by simp) (by simp)])
    ((hr.body _).trans (h.body _ (h.ne_idle hinv))), ⟨fun x hx => ?_, fun x hx => ?_,
    fun x hx hx' => ?_, fun p hp => absurd hp (by simp), fun p hp => absurd hp (by simp), hcur,
    hother (by simp) (by simp), fun q => ?_⟩⟩
  · exact (hr.body x).trans (h.body_of_used hx)
  · rwa [hback] at hx
  · rw [hback] at hx'
    exact absurd hx hx'
  · rw [hother (by simp) (by simp)]
    simp

/-- The PCB becomes the last one of the queue of its priority. -/
theorem Taken.enqueue (h : Taken s s₁ ls p xs) (hinv : SchedInv s running ls)
    (hsp : (s₁.pcb p).stackPtr = (s₁.pcb p).stackPhys + 4076) (hdir : (s₁.pcb p).pageDirectory ≠ 0) :
    ∃ ls', SchedInv (s₁.enqueueProcess p) running ls' ∧
      Created s (s₁.enqueueProcess p) ls ls' (some p) := by
  obtain ⟨hr, h'⟩ := enqueueProcess_placed h.placed (take_held _) rfl
  have hcur := hr.current.trans h.current
  obtain ⟨ls', hls'⟩ : ∃ ls', (ls.take .free p xs).put (ls .held) (.ready (s₁.pcb p).priority)
      (ls.take .free p xs (.ready (s₁.pcb p).priority) ++ [p]) = ls' := ⟨_, rfl⟩
  rw [hls'] at h'
  have hprio : ((s₁.enqueueProcess p).pcb p).priority = (s₁.pcb p).priority := hr.priority p
  have hfree : ls' .free = xs := by
    rw [← hls', put_other (by simp) (by simp), take_same (by simp)]
  have hsleep : ls' .sleep = ls .sleep := by
    rw [← hls', put_other (by simp) (by simp), take_other (by simp) (by simp)]
  have hready : ∀ q, ls' (.ready q) = ls (.ready q) ++
      (some p).toList.filter (fun p' => ((s₁.enqueueProcess p).pcb p').priority = q) := by
    intro q
    rw [← hls']
    by_cases hq : (s₁.pcb p).priority = q
    · rw [hq, put_same, take_other (by simp) (by simp)]
      simp [hprio, hq]
    · rw [put_other (by simp) (by simpa using Ne.symm hq), take_other (by simp) (by simp)]
      simp [hprio, hq]
  have hheld : ls' .held = ls .held := by
    rw [← hls', put_held (by simp)]
  refine ⟨ls', hinv.of_placed h' hcur hheld hsleep
    (fun x hx => by rw [hready]; exact List.mem_append_left _ hx)
    ((hr.body _).trans (h.body _ (h.ne_idle hinv))), ⟨fun x hx => ?_, fun x hx => ?_,
    fun x hx hx' => ?_, fun p' hp' => ?_, fun p' hp' => ?_, hcur, hsleep, hready⟩⟩
  · exact (hr.body x).trans (h.body_of_used hx)
  · rw [hfree] at hx
    rw [h.free]
    exact List.mem_cons_of_mem _ hx
  · rw [hfree] at hx'
    rw [h.free] at hx
    rw [(List.mem_cons.mp hx).resolve_right hx']
  · obtain rfl := Option.some.inj hp'
    refine ⟨h.mem, ?_⟩
    rw [hr.stackPtr, hsp, hr.field Pcb.stackPhys (fun _ => rfl)]
  · obtain rfl := Option.some.inj hp'
    rw [hr.field Pcb.pageDirectory (fun _ => rfl)]
    exact hdir

end Hand

/-- **`scheduler_create_process`** on the lists: no PCB free and nothing changed; or no memory, and
the PCB is back on the free list; or a new process, last on the queue of its priority. -/
theorem create_lists {running : Proc} (h : SchedInv k.sched running ls) {name : List UInt8}
    {entry arg : Nat} {prio : Priority} {r : Option Proc}
    (hrun : schedulerCreateProcess L k name entry arg prio = some (r, k')) :
    ∃ ls', SchedInv k'.sched running ls' ∧ Created k.sched k'.sched ls ls' r := by
  unfold schedulerCreateProcess at hrun
  rcases allocateProcess_placed h.placed with ⟨hal, hnil⟩ | ⟨p, xs, s₁, hfree, hal, hr, h₁⟩
  · rw [hal] at hrun
    simp only [Option.some.injEq, Prod.mk.injEq] at hrun
    obtain ⟨rfl, rfl⟩ := hrun
    exact ⟨ls, h, ⟨fun _ _ => rfl, fun _ hx => hx, fun _ hx hx' => absurd hx hx',
      fun p hp => absurd hp (by simp), fun p hp => absurd hp (by simp), rfl, rfl,
      fun q => by simp⟩⟩
  · rw [hal] at hrun
    simp only [Option.bind_eq_bind] at hrun
    obtain ⟨⟨dir, stack, m₁⟩, hmem, hrun⟩ := Option.bind_eq_some_iff.mp hrun
    simp only at hrun
    have hcounted : Placed { s₁ with nextPid := add32 s₁.nextPid 1 } (ls.take .free p xs) := by
      refine h₁.congr rfl ?_ rfl
      funext k
      cases k <;> rfl
    have htaken : Taken k.sched { s₁ with nextPid := add32 s₁.nextPid 1 } ls p xs :=
      ⟨hfree, hcounted, hr.current, fun x _ => hr.body x⟩
    have hset := (htaken.modify (·.fresh s₁.nextPid name prio)).modify
      (fun c => { c with pageDirectory := dir, entryPoint := entry, arg := arg })
    split at hrun
    · simp only [Option.some.injEq, Prod.mk.injEq] at hrun
      obtain ⟨rfl, rfl⟩ := hrun
      exact hset.release h
    · rename_i hstack
      simp only [Option.some.injEq, Prod.mk.injEq] at hrun
      obtain ⟨rfl, rfl⟩ := hrun
      refine (hset.modify _).enqueue h ?_ ?_
      · rw [modify_pcb, Function.update_self]
        exact frame_addr hmem
      · simp only [modify_pcb, Function.update_self]
        obtain ⟨q, hq, rfl⟩ := processMemory_dir hmem hstack
        have := (Memory.isFrame_of_free hq).1
        omega

/-! ## 5. The other calls -/

/-- **`scheduler_yield`** puts a RUNNING process on its queue and lets go of any other. -/
theorem yield_lists {running : Proc} (h : SchedInv s running ls) :
    ∃ ls', SchedInv s.schedulerYield running ls' ∧ ls' .free = ls .free ∧
      Fixed s s.schedulerYield ∧
      ∀ x, ls'.Waiting x → ls.Waiting x ∨ s.current = some x := by
  cases hc : s.current with
  | none =>
    have hs : s.schedulerYield = s := by rw [Sched.schedulerYield, hc]
    rw [hs]
    exact ⟨ls, h, rfl, fun _ => rfl, fun _ hx => Or.inl hx⟩
  | some p =>
    by_cases hpi : p = .idle
    · have hs : s.schedulerYield = s := by simp only [Sched.schedulerYield, hc, if_pos hpi]
      rw [hs]
      exact ⟨ls, h, rfl, fun _ => rfl, fun _ hx => Or.inl hx⟩
    · have hrun : p = running := h.running_of_current hc
      have hidle : .idle ∈ ls (.ready .low) := by
        refine h.idle.resolve_left ?_
        rintro ⟨hi, -⟩
        exact hpi (Option.some.inj (hc.symm.trans hi))
      have hheld : ls .held = [p] := by rw [h.held, hc]; rfl
      have hsleep : running ∉ ls .sleep := hrun ▸ h.not_mem hc (by simp)
      simp only [Sched.schedulerYield, hc, if_neg hpi]
      by_cases hst : (s.pcb p).state = .running
      · rw [if_pos hst]
        obtain ⟨hr, h₁⟩ := enqueueProcess_placed h.placed hheld rfl
        refine ⟨_, ⟨⟨h₁.setCurrent none, put_held (by simp)⟩, ?_, Or.inr ?_,
          Or.inr ⟨rfl, hrun ▸ hpi, ?_⟩⟩, put_other (by simp) (by simp), hr.fixed, fun x hx => ?_⟩
        · exact (hr.priority .idle).trans h.idlePriority
        · by_cases hq : (s.pcb p).priority = .low
          · rw [hq, put_same]
            exact List.mem_append_left _ hidle
          · rwa [put_other (by simp) (by simpa using Ne.symm hq)]
        · rwa [put_other (by simp) (by simp)]
        · have hls : s.requeue ls =
              ls.put [] (.ready (s.pcb p).priority) (ls (.ready (s.pcb p).priority) ++ [p]) := by
            simp only [Sched.requeue, hc, if_pos hst]
          rw [← hls] at hx
          exact (waiting_requeue hx).imp_right (fun hx => hc.symm.trans hx.1)
      · rw [if_neg hst]
        have h₁ := (h.placed.setCurrent none).drop (List.nil_sublist _)
        refine ⟨_, ⟨⟨h₁, Function.update_self _ _ _⟩, h.idlePriority, Or.inr ?_,
          Or.inr ⟨rfl, hrun ▸ hpi, ?_⟩⟩, Function.update_of_ne (by simp) _ _, fun _ => rfl,
          fun x hx => Or.inl ?_⟩
        · rwa [Function.update_of_ne (by simp)]
        · rwa [Function.update_of_ne (by simp)]
        · rcases hx with ⟨q, hx⟩ | hx
          · rw [Function.update_of_ne (by simp)] at hx
            exact Or.inl ⟨q, hx⟩
          · rw [Function.update_of_ne (by simp)] at hx
            exact Or.inr hx

theorem sleep_current (s : Sched) (ms : Nat) : (s.schedulerSleepCurrent ms).current = s.current := by
  unfold Sched.schedulerSleepCurrent
  split
  · rfl
  · split <;> rfl

/-- **`scheduler_sleep_current`** only marks the current process. -/
theorem sleep_lists {running : Proc} (h : SchedInv s running ls) (ms : Nat) :
    SchedInv (s.schedulerSleepCurrent ms) running ls := by
  unfold Sched.schedulerSleepCurrent
  split
  · exact h
  · rename_i p hc
    split
    · exact h
    · rename_i hpi
      refine h.of_placed (h.placed.modify_held (fun k hk => h.not_mem hc hk) _) rfl rfl rfl
        (fun _ hx => hx) ?_
      rw [modify_pcb, Function.update_of_ne (Ne.symm hpi)]

theorem sleep_field {β : Type} (f : Pcb → β)
    (hf : ∀ (c : Pcb) (w : Nat) (st : ProcessState), f { c with wakeTick := w, state := st } = f c)
    (s : Sched) (ms : Nat) (x : Proc) : f ((s.schedulerSleepCurrent ms).pcb x) = f (s.pcb x) := by
  unfold Sched.schedulerSleepCurrent
  split
  · rfl
  · rename_i p _
    split
    · rfl
    · rcases eq_or_ne x p with rfl | hx
      · rw [modify_pcb, Function.update_self, hf]
      · rw [modify_pcb, Function.update_of_ne hx]

/-- **The end of `process_entry_trampoline`**: a process that has the CPU is not on the sleep
list, so its new state breaks no list. -/
theorem entryReturned_lists {i : Fin 64} (h : SchedInv s (.pool i) ls) :
    SchedInv (s.entryReturned (.pool i)) (.pool i) ls := by
  have hsleep : .pool i ∉ ls .sleep := by
    rcases h.running with hc | ⟨-, -, hs⟩
    · exact h.not_mem hc (by simp)
    · exact hs
  refine h.of_placed (h.placed.modify_any (·.withState .terminated) (fun _ => rfl) (fun _ => rfl)
    (fun hs => absurd hs hsleep)) rfl rfl rfl (fun _ hx => hx) ?_
  rw [Sched.entryReturned, setState_pcb, Function.update_of_ne (by simp)]

/-- **`sys_exit` by the current process**, if that is not the idle one: it is the first on the free
list, and nobody is current. -/
theorem exit_lists {running : Proc} (h : SchedInv s running ls) (hc : s.current = some running)
    (hr : running ≠ .idle) :
    s.sysExit.current = none ∧ Fixed s s.sysExit ∧
      SchedInv s.sysExit running (ls.put [] .free (running :: ls .free)) := by
  have hheld : ls .held = [running] := by rw [h.held, hc]; rfl
  have h₁ : Placed (s.setState running .terminated) ls :=
    h.placed.modify_held (fun k hk => h.not_mem hc hk) _
  obtain ⟨hr₂, h₂⟩ := releaseProcess_placed h₁ hheld
  have hfix : Fixed s (s.setState running .terminated) := fixed_modify _ (fun _ => rfl)
  have hcur : ((s.setState running .terminated).releaseProcess running).current = some running :=
    hr₂.current.trans hc
  have hst : (((s.setState running .terminated).releaseProcess running).pcb running).state ≠
      .running := by
    rw [hr₂.state, setState_pcb, Function.update_self]
    simp [Pcb.withState]
  have hexit : s.sysExit =
      ((s.setState running .terminated).releaseProcess running).setCurrent none := by
    simp only [Sched.sysExit, hc, Sched.schedulerDestroyProcess, Sched.schedulerYield, hcur,
      if_neg hr, if_neg hst]
  have hidle : .idle ∈ ls (.ready .low) := by
    refine h.idle.resolve_left ?_
    rintro ⟨hi, -⟩
    exact hr (Option.some.inj (hc.symm.trans hi))
  rw [hexit]
  refine ⟨rfl, hfix.trans hr₂.fixed, ⟨⟨h₂.setCurrent none, put_held (by simp)⟩, ?_, Or.inr ?_,
    Or.inr ⟨rfl, hr, ?_⟩⟩⟩
  · exact (hr₂.priority .idle).trans ((hfix.field Pcb.priority (fun _ => rfl) .idle).trans
      h.idlePriority)
  · rwa [put_other (by simp) (by simp)]
  · rw [put_other (by simp) (by simp)]
    exact h.not_mem hc (by simp)

/-- The timer interrupt counts. -/
theorem timerTick_lists {running : Proc} (h : SchedInv s running ls) :
    SchedInv s.timerTick running ls :=
  h.of_placed (h.placed.congr rfl (by funext k; cases k <;> rfl) rfl) rfl rfl rfl (fun _ hx => hx) rfl

/-- The lists `scheduler_init` makes: every PCB of the pool is free, in order. -/
def initLists : Lists
  | .free => (List.range' 0 64).map (fun j => .pool (Fin.ofNat 64 j))
  | .held => [.idle]
  | _ => []

theorem pool_mem_initLists (i : Fin 64) : .pool i ∈ initLists .free := by
  refine List.mem_map.mpr ⟨i, by simp [List.mem_range'_1], ?_⟩
  congr 1
  exact Fin.ext (Nat.mod_eq_of_lt i.isLt)

theorem mem_initLists {k : Place} {x : Proc} (hx : x ∈ initLists k) :
    (k = .free ∧ x ≠ .idle) ∨ (k = .held ∧ x = .idle) := by
  cases k with
  | free =>
    refine Or.inl ⟨rfl, ?_⟩
    rintro rfl
    simp [initLists] at hx
  | held => exact Or.inr ⟨rfl, List.mem_singleton.mp hx⟩
  | _ => exact absurd hx List.not_mem_nil

theorem pool_chain (s : Sched) : ∀ n i : Nat, i + n = 64 →
    Chain s.schedulerInit.next (if i < 64 then some (.pool (Fin.ofNat 64 i)) else none)
      ((List.range' i n).map (fun j => .pool (Fin.ofNat 64 j))) := by
  intro n
  induction n with
  | zero =>
    intro i hi
    exact if_neg (by omega)
  | succ n ih =>
    intro i hi
    have hlt : i < 64 := by omega
    refine ⟨if_pos hlt, ?_⟩
    have hnext : s.schedulerInit.next (.pool (Fin.ofNat 64 i)) =
        if i + 1 < 64 then some (.pool (Fin.ofNat 64 (i + 1))) else none := by
      have hval : (Fin.ofNat 64 i).val = i := Nat.mod_eq_of_lt hlt
      simp only [Sched.next, Sched.schedulerInit, Sched.poolNext, hval]
      split
      · rename_i h
        congr 2
        exact Fin.ext (Nat.mod_eq_of_lt h).symm
      · rfl
    rw [hnext]
    exact ih (i + 1) (by omega)

/-- **`scheduler_init`** on a scheduler nobody sleeps in. -/
theorem schedulerInit_lists (hsleep : s.sleepList = none) :
    SchedInv s.schedulerInit .idle initLists := by
  refine ⟨⟨⟨fun k hk => ?_, fun q => rfl, ⟨fun k => ?_, fun {k l x} hk hl => ?_⟩,
    fun hx => absurd hx List.not_mem_nil, fun hx => absurd hx List.not_mem_nil⟩, rfl⟩, rfl,
    Or.inl ⟨rfl, rfl⟩, Or.inl rfl⟩
  · cases k with
    | free => exact pool_chain s 64 0 rfl
    | ready q => rfl
    | sleep => exact hsleep
    | held => exact absurd rfl hk
  · cases k with
    | free => exact (show ((List.range' 0 64).map (fun j => Proc.pool (Fin.ofNat 64 j))).Nodup by
        decide +kernel)
    | held => exact List.nodup_singleton _
    | _ => exact List.nodup_nil
  · rcases mem_initLists hk with ⟨rfl, hx⟩ | ⟨rfl, hx⟩ <;>
      rcases mem_initLists hl with ⟨rfl, hx'⟩ | ⟨rfl, hx'⟩
    · rfl
    · exact absurd hx' hx
    · exact absurd hx hx'
    · rfl

end JarvOs.Process
