/-
# Which directory is loaded

A process with a NULL `page_directory` uses the kernel's own; only the idle process has one.
`scheduler_tick` loads the directory of the process it switches to if that process has one, and
otherwise leaves CR3 ALONE: the idle process runs on whatever directory was loaded before it.

`loaded_directory_iff` says when that is the right one.  `IdleNext` is the condition under which a
tick takes the CPU from another process and gives it to the idle one, read off the state before the
tick; a history has the right directory loaded after every tick exactly when the kernel's is loaded
whenever `IdleNext` holds.
-/
import JarvOs.Process.SchedRuns

namespace JarvOs.Process

open JarvOs.Lib JarvOs.Memory

variable {L : Layout} {st st' : SchedRun} {ls : Lists} {s : Sched} {k k' : Kernel} {running : Proc}
  {m m' : Machine}

/-! ## 1. CR3 under `scheduler_create_process` -/

theorem allocPage_cr3 {a : Nat} (h : m.allocPage = some (a, m')) : m'.cr3 = m.cr3 := by
  obtain ⟨r, -, heq⟩ := Option.map_eq_some_iff.mp h
  obtain ⟨-, rfl⟩ := Prod.mk.inj heq
  rfl

/-- The new address space is loaded only while the stack is built. -/
theorem processMemory_cr3 {dir a : Nat} (h : processMemory L m = some (dir, a, m')) :
    m'.cr3 = m.cr3 := by
  simp only [processMemory, Option.bind_eq_bind] at h
  obtain ⟨⟨dir', m₁⟩, hdir, h⟩ := Option.bind_eq_some_iff.mp h
  obtain ⟨⟨stack, m₂⟩, halloc, h⟩ := Option.bind_eq_some_iff.mp h
  have h₂ : m₂.cr3 = m.cr3 := (allocPage_cr3 halloc).trans (createAddressSpace_frames hdir).1
  simp only at h
  split at h
  · simp only [Option.some.injEq, Prod.mk.injEq] at h
    rw [← h.2.2, h₂]
  · obtain ⟨m₃, hbuild, h⟩ := Option.bind_eq_some_iff.mp h
    simp only [Option.some.injEq, Prod.mk.injEq] at h
    simp only [buildStack, Option.bind_eq_bind] at hbuild
    obtain ⟨⟨r, m₄⟩, -, hbuild⟩ := Option.bind_eq_some_iff.mp hbuild
    obtain ⟨m₅, -, hbuild⟩ := Option.bind_eq_some_iff.mp hbuild
    obtain rfl := Option.some.inj hbuild
    rw [← h.2.2]
    exact h₂

theorem create_cr3 {name : List UInt8} {entry arg : Nat} {prio : Priority} {r : Option Proc}
    (h : schedulerCreateProcess L k name entry arg prio = some (r, k')) :
    k'.mach.cr3 = k.mach.cr3 := by
  unfold schedulerCreateProcess at h
  split at h
  · simp only [Option.some.injEq, Prod.mk.injEq] at h
    rw [← h.2]
  · simp only [Option.bind_eq_bind] at h
    obtain ⟨⟨dir, stack, m₁⟩, hmem, h⟩ := Option.bind_eq_some_iff.mp h
    simp only at h
    split at h <;>
    · simp only [Option.some.injEq, Prod.mk.injEq] at h
      rw [← h.2]
      exact processMemory_cr3 hmem

/-! ## 2. The property and its condition -/

/-- The directory of a process: its own, or the kernel's if it has none. -/
def Sched.directoryOf (L : Layout) (s : Sched) (p : Proc) : Nat :=
  if (s.pcb p).pageDirectory = 0 then 4096 * L.kpd else (s.pcb p).pageDirectory

/-- After a tick the directory of the current process is loaded. -/
def DirectoryLoaded (L : Layout) (st : SchedRun) : SchedOp → Prop
  | .tick d esp => ∀ st', schedStep L st (.tick d esp) = some st' →
      ∃ p, st'.sched.current = some p ∧ st'.kernel.mach.cr3 = st'.sched.directoryOf L p
  | _ => True

/-- The idle process is first in line behind the current one: it heads the lowest queue, the other
queues are empty, and neither a sleeper that is due nor the interrupted process will be put on one
of those. -/
def Sched.IdleNext (s : Sched) : Prop :=
  (s.queues .low).head = some .idle ∧ (∀ q, q ≠ .low → (s.queues q).head = none) ∧
    (∀ p, s.OnList s.sleepList p → s.due p = true → (s.pcb p).priority = .low) ∧
    ∀ p, s.current = some p → (s.pcb p).state = .running → (s.pcb p).priority = .low

/-- When the idle process is first in line, the kernel's directory is loaded already. -/
def KernelLoadedForIdle (L : Layout) (st : SchedRun) : SchedOp → Prop
  | .tick _ _ => st.sched.IdleNext → st.kernel.mach.cr3 = 4096 * L.kpd
  | _ => True

/-! ## 3. One call -/

theorem interrupted_eq_nil {q : Priority} : s.interrupted q = [] ↔
    ∀ p, s.current = some p → (s.pcb p).state = .running → (s.pcb p).priority ≠ q := by
  cases hc : s.current with
  | none => simp [Sched.interrupted, hc]
  | some p => simp [Sched.interrupted, hc]

/-- A queue above the lowest is empty when the tick chooses. -/
theorem queued_eq_nil (h : SchedInv s running ls) (q : Priority) :
    s.queued ls (.ready q) = [] ↔ (s.queues q).head = none ∧
      (∀ p, s.OnList s.sleepList p → s.due p = true → (s.pcb p).priority ≠ q) ∧
      ∀ p, s.current = some p → (s.pcb p).state = .running → (s.pcb p).priority ≠ q := by
  rw [queued_ready, List.append_eq_nil_iff, List.append_eq_nil_iff, interrupted_eq_nil,
    h.placed.ready_head,
    List.head?_eq_none_iff, List.filter_eq_nil_iff, and_assoc]
  refine and_congr_right fun _ => and_congr_left fun _ => forall_congr' fun p => ?_
  rw [List.mem_filter, ← h.placed.onList_iff (k := .sleep) (by simp) p]
  simp only [and_imp, decide_eq_true_eq]
  exact Iff.rfl

/-- **When a tick gives the CPU to the idle process.** -/
theorem idle_chosen_iff (h : SchedInv s running ls) (hc : s.current ≠ some .idle) :
    [Priority.realtime, .high, .normal, .low].findSome?
      (fun q => (s.queued ls (.ready q)).head?) = some .idle ↔ s.IdleNext := by
  have hidle : .idle ∈ ls (.ready .low) := h.idle.resolve_left (fun hi => hc hi.1)
  have hlow : (s.queued ls (.ready .low)).head? = (s.queues .low).head := by
    obtain ⟨x, xs, hxs⟩ := List.exists_cons_of_ne_nil (List.ne_nil_of_mem hidle)
    rw [queued_ready, h.placed.ready_head, hxs]
    rfl
  -- the idle process is on no other queue
  have hnot : ∀ q, q ≠ .low → (s.queued ls (.ready q)).head? ≠ some .idle := by
    intro q hq hfirst
    have hmem := List.mem_of_mem_head? hfirst
    rw [queued_ready, List.mem_append, List.mem_append, List.mem_filter, List.mem_filter] at hmem
    rcases hmem with (hmem | ⟨⟨hmem, -⟩, -⟩) | hmem
    · exact h.placed.exclusive.not_mem hidle (by simpa using hq) hmem
    · exact h.placed.exclusive.not_mem hidle (by simp) hmem
    · simp only [Sched.interrupted, List.mem_filter, Option.mem_toList] at hmem
      exact hc hmem.1
  rw [findSome_low hnot, hlow, Sched.IdleNext]
  refine and_congr_right fun _ => ?_
  simp only [List.head?_eq_none_iff, queued_eq_nil h]
  constructor
  · intro hq
    refine ⟨fun q hne => (hq q hne).1, fun p hp hdue => ?_, fun p hp hst => ?_⟩
    · by_contra hne
      exact (hq _ hne).2.1 p hp hdue rfl
    · by_contra hne
      exact (hq _ hne).2.2 p hp hst rfl
  · rintro ⟨hhead, hsleep, hcur⟩ q hne
    refine ⟨hhead q hne, fun p hp hdue heq => hne ?_, fun p hp hst heq => hne ?_⟩
    · rw [← heq, hsleep p hp hdue]
    · rw [← heq, hcur p hp hst]

/-- Between two calls: somebody is current and its directory is loaded; every process in use has a
directory of its own, but for the idle one. -/
structure DirInv (L : Layout) (st : SchedRun) (ls : Lists) : Prop where
  sched : SchedInv st.sched st.running ls
  loaded : ∃ p, st.sched.current = some p ∧ st.kernel.mach.cr3 = st.sched.directoryOf L p
  own : ∀ p, p ≠ .idle → p ∉ ls .free → (st.sched.pcb p).pageDirectory ≠ 0
  idle : (st.sched.pcb .idle).pageDirectory = 0

/-- A call that changes neither CR3 nor a directory. -/
theorem DirInv.keep (h : DirInv L st ls) {ls' : Lists} (h' : SchedInv st'.sched st'.running ls')
    (hcur : st'.sched.current = st.sched.current)
    (hcr3 : st'.kernel.mach.cr3 = st.kernel.mach.cr3) (hfree : ls' .free = ls .free)
    (hdir : ∀ x, (st'.sched.pcb x).pageDirectory = (st.sched.pcb x).pageDirectory) :
    DirInv L st' ls' := by
  obtain ⟨p, hp, hload⟩ := h.loaded
  refine ⟨h', ⟨p, hcur.trans hp, ?_⟩, fun x hx hx' => ?_, (hdir _).trans h.idle⟩
  · rw [hcr3, hload, Sched.directoryOf, Sched.directoryOf, hdir]
  · rw [hdir]
    exact h.own x hx (hfree ▸ hx')

theorem dirInv_created (h : DirInv L st ls) {r : Option Proc × Kernel} {name : List UInt8}
    {entry arg : Nat} {prio : Priority}
    (hrun : schedulerCreateProcess L st.kernel name entry arg prio = some r) :
    ∃ ls', DirInv L (st.created r) ls' := by
  obtain ⟨r, k'⟩ := r
  obtain ⟨ls', h', hcr⟩ := create_lists h.sched hrun
  obtain ⟨hs, hr⟩ := created_sched st (r, k')
  have hmach : (st.created (r, k')).kernel.mach.cr3 = st.kernel.mach.cr3 := by
    have hk : (st.created (r, k')).kernel = k' := by cases r <;> rfl
    rw [hk]
    exact create_cr3 hrun
  have hdir : ∀ x, x ∉ ls .free →
      (k'.sched.pcb x).pageDirectory = (st.sched.pcb x).pageDirectory := fun x hx =>
    field_of_body (hcr.body x hx) Pcb.pageDirectory (fun _ => rfl)
  obtain ⟨p, hp, hload⟩ := h.loaded
  refine ⟨ls', ?_, ⟨p, ?_, ?_⟩, fun x hx hx' => ?_, ?_⟩
  · rw [hs, hr]
    exact h'
  · rw [hs]
    exact hcr.current.trans hp
  · rw [hmach, hs, hload, Sched.directoryOf, Sched.directoryOf,
      hdir p (h.sched.not_mem hp (by simp))]
  · rw [hs]
    by_cases hold : x ∈ ls .free
    · exact hcr.directory x (hcr.taken x hold hx')
    · rw [hdir x hold]
      exact h.own x hx hold
  · rw [hs, hdir _ h.sched.idle_not_free]
    exact h.idle

/-- The directory of the chosen process is loaded, or it is the idle process and the kernel's is loaded
already. -/
theorem DirInv.chosen_loaded (h : DirInv L st ls) {curr : Proc}
    (hfirst : [Priority.realtime, .high, .normal, .low].findSome?
      (fun q => (st.sched.queued ls (.ready q)).head?) = some curr)
    (hown : curr ≠ .idle → (st.sched.pcb curr).pageDirectory ≠ 0) :
    ((if st.sched.current = some curr ∨ (st.sched.pcb curr).pageDirectory = 0
        then st.kernel.mach.cr3 else (st.sched.pcb curr).pageDirectory) =
      (if (st.sched.pcb curr).pageDirectory = 0 then 4096 * L.kpd
        else (st.sched.pcb curr).pageDirectory)) ↔
      (st.sched.IdleNext → st.kernel.mach.cr3 = 4096 * L.kpd) := by
  obtain ⟨p, hp, hload⟩ := h.loaded
  by_cases hpi : p = .idle
  · -- the idle process was current: it is not on a queue
    have hnext : ¬ st.sched.IdleNext := fun hn => by
      have hmem := List.mem_of_mem_head? ((h.sched.placed.ready_head .low).symm.trans hn.1)
      exact h.sched.not_mem (hpi ▸ hp) (by simp) hmem
    have hkpd : st.kernel.mach.cr3 = 4096 * L.kpd := by
      rw [hload, hpi, Sched.directoryOf, if_pos h.idle]
    refine iff_of_true ?_ (fun hn => absurd hn hnext)
    by_cases hci : curr = .idle
    · rw [hci, if_pos (Or.inr h.idle), if_pos h.idle, hkpd]
    · rw [if_neg (hown hci), if_neg]
      rintro (hsame | hz)
      · exact hci (by rw [← hpi]; exact Option.some.inj (hsame.symm.trans hp))
      · exact hown hci hz
  · have hchosen := idle_chosen_iff h.sched (fun hi => hpi (Option.some.inj (hp.symm.trans hi)))
    rw [hfirst, Option.some.injEq] at hchosen
    rw [← hchosen]
    by_cases hci : curr = .idle
    · rw [hci, if_pos (Or.inr h.idle), if_pos h.idle]
      simp
    · refine iff_of_true ?_ (fun hi => absurd hi hci)
      rw [if_neg (hown hci)]
      split
      · rename_i hor
        have hsame := Option.some.inj (hp.symm.trans (hor.resolve_right (hown hci)))
        rw [hload, hsame, Sched.directoryOf, if_neg (hown hci)]
      · rfl

/-- **A tick** loads the directory of the process it chooses, unless that is the idle process and
the kernel's directory is not loaded already. -/
theorem dirInv_tick (h : DirInv L st ls) {d esp : Nat} (hst : schedStep L st (.tick d esp) = some st') :
    ((∃ p, st'.sched.current = some p ∧ st'.kernel.mach.cr3 = st'.sched.directoryOf L p) ↔
        (st.sched.IdleNext → st.kernel.mach.cr3 = 4096 * L.kpd)) ∧
      ((st.sched.IdleNext → st.kernel.mach.cr3 = 4096 * L.kpd) → ∃ ls', DirInv L st' ls') := by
  obtain ⟨⟨sw, k'⟩, hrun, rfl⟩ := Option.map_eq_some_iff.mp hst
  obtain ⟨curr, q, xs, hxs, hfirst, h', hcur, hsw, hfields, -, hcr3, -⟩ := tick_kernel h.sched hrun
  have hdir := fun x => (hfields x).1
  obtain ⟨hs, hr⟩ := ticked_running st esp hcur (fun hn => h.sched.running_of_current (hsw.mp hn))
  have hk : (st.ticked esp (sw, k')).kernel = k' := by cases sw <;> rfl
  -- the chosen process is current, so it is not free
  have hown : curr ≠ .idle → (st.sched.pcb curr).pageDirectory ≠ 0 := fun hne => by
    have hnot := h'.not_mem hcur (k := .free) (by simp)
    rw [Function.update_of_ne (by simp), take_other (by simp) (by simp), Sched.queued,
      requeue_free] at hnot
    exact h.own curr hne hnot
  have hloaded : k'.mach.cr3 = k'.sched.directoryOf L curr ↔
      (st.sched.IdleNext → st.kernel.mach.cr3 = 4096 * L.kpd) := by
    rw [Sched.directoryOf, hdir, hcr3]
    exact h.chosen_loaded hfirst hown
  refine ⟨?_, fun hcond => ?_⟩
  · rw [← hloaded, hs, hk]
    constructor
    · rintro ⟨p', hp', hl⟩
      obtain rfl := Option.some.inj (hcur.symm.trans hp')
      exact hl
    · exact fun hl => ⟨curr, hcur, hl⟩
  have hload' : (st.ticked esp (sw, k')).kernel.mach.cr3 =
      (st.ticked esp (sw, k')).sched.directoryOf L curr := by
    rw [hs, hk]
    exact hloaded.mpr hcond
  rw [← hs, ← hr] at h'
  refine ⟨_, h', ⟨curr, hs ▸ hcur, hload'⟩, fun x hx hx' => ?_, ?_⟩
  · rw [Function.update_of_ne (by simp), take_other (by simp) (by simp), Sched.queued,
      requeue_free] at hx'
    rw [hs, hdir]
    exact h.own x hx hx'
  · rw [hs, hdir]
    exact h.idle

theorem directoryLoaded_iff (h : DirInv L st ls) (op : SchedOp) :
    DirectoryLoaded L st op ↔ KernelLoadedForIdle L st op := by
  cases op with
  | tick d esp =>
    obtain ⟨p, hp, -⟩ := h.loaded
    have hrun : p = st.running := h.sched.running_of_current hp
    obtain ⟨sw, k', -, -, htick, -⟩ := tick_current h.sched (hrun ▸ hp) d esp
    have hst : schedStep L st (.tick d esp) = some (st.ticked esp (sw, k')) := by
      simp only [schedStep, htick, Option.map_some]
    refine Iff.trans ?_ (dirInv_tick h hst).1
    constructor
    · exact fun hl => hl _ hst
    · rintro hl st' hst'
      obtain rfl := Option.some.inj (hst.symm.trans hst')
      exact hl
  | _ => exact Iff.rfl

/-- **A call that is no yield keeps the right directory loaded**, if no tick gives the CPU to the
idle process while another directory than the kernel's is loaded. -/
theorem dirInv_step (h : DirInv L st ls) {op : SchedOp} (hop : op ≠ .yield)
    (hcond : KernelLoadedForIdle L st op) (hst : schedStep L st op = some st') :
    ∃ ls', DirInv L st' ls' := by
  cases op with
  | create name entry arg priority =>
    obtain ⟨r, hrun, rfl⟩ := Option.map_eq_some_iff.mp hst
    exact dirInv_created h hrun
  | fork parent =>
    obtain ⟨r, hrun, rfl⟩ := Option.map_eq_some_iff.mp hst
    exact dirInv_created h hrun
  | tick d esp => exact (dirInv_tick h hst).2 hcond
  | timer =>
    obtain rfl := Option.some.inj hst
    exact ⟨ls, h.keep (timerTick_lists h.sched) rfl rfl rfl (fun _ => rfl)⟩
  | yield => exact absurd rfl hop
  | sleep ms =>
    obtain rfl := Option.some.inj hst
    exact ⟨ls, h.keep (sleep_lists h.sched ms) (sleep_current _ ms) rfl rfl
      (sleep_field Pcb.pageDirectory (fun _ _ _ => rfl) _ ms)⟩
  | entryReturn =>
    obtain ⟨i, hrun, rfl⟩ := entryReturn_eq_some hst
    have hinv := h.sched
    rw [hrun] at hinv
    have hfix := fixed_modify (s := st.sched) (p := .pool i) (·.withState .terminated) (fun _ => rfl)
    refine ⟨ls, h.keep ?_ rfl rfl rfl (hfix.field Pcb.pageDirectory (fun _ => rfl))⟩
    simp only [SchedRun.withSched, hrun]
    exact entryReturned_lists hinv

/-! ## 4. Every history -/

theorem dirInv_boot {m₀ : Machine} (hinit : vmmInit L m₀ = some m) :
    DirInv L (bootRun m) initLists := by
  have hcr3 : m.cr3 = 4096 * L.kpd := by
    simp only [vmmInit, Option.bind_eq_bind] at hinit
    obtain ⟨_, -, hinit⟩ := Option.bind_eq_some_iff.mp hinit
    obtain ⟨_, -, hinit⟩ := Option.bind_eq_some_iff.mp hinit
    obtain ⟨_, -, hinit⟩ := Option.bind_eq_some_iff.mp hinit
    obtain ⟨_, -, hinit⟩ := Option.bind_eq_some_iff.mp hinit
    obtain ⟨_, -, hinit⟩ := Option.bind_eq_some_iff.mp hinit
    obtain rfl := Option.some.inj hinit
    rfl
  refine ⟨schedulerInit_lists rfl, ⟨.idle, rfl, ?_⟩, fun p hp hfree => ?_, rfl⟩
  · simp only [bootRun, hcr3]
    rfl
  · cases p with
    | idle => exact absurd rfl hp
    | pool i => exact absurd (pool_mem_initLists i) hfree

/-- If the idle process is current and one process is ready, above the lowest priority, a tick gives
that one the CPU, and the idle process is the only one ready. -/
theorem tick_only (h : SchedInv k.sched .idle ls) (hc : k.sched.current = some .idle)
    (hsleep : ls .sleep = []) {p : Proc} {prio : Priority} (hprio : prio ≠ .low)
    (hready : ∀ q, ls (.ready q) = if prio = q then [p] else []) (d esp : Nat) :
    ∃ sw k' ls', schedulerTick k d esp = some (sw, k') ∧ SchedInv k'.sched p ls' ∧
      k'.sched.current = some p ∧
      ((k.sched.pcb p).pageDirectory ≠ 0 → k'.mach.cr3 = (k.sched.pcb p).pageDirectory) ∧
      ls' .sleep = [] ∧ ∀ q, ls' (.ready q) = if q = .low then [.idle] else [] := by
  have hqueued : ∀ q, k.sched.queued ls (.ready q) =
      (if prio = q then [p] else []) ++ if q = .low then [.idle] else [] := by
    intro q
    rw [queued_ready_of_idle h hc hsleep, hready]
  obtain ⟨sw, k', -, -, htick, -⟩ := tick_current h hc d esp
  obtain ⟨curr, q, xs, hxs, hfirst, h', hcur, -, -, -, hcr3, -⟩ := tick_kernel h htick
  rw [hqueued] at hxs
  simp only [hqueued] at hfirst
  obtain rfl : curr = p := by cases prio <;> simp_all
  have hpi : curr ≠ .idle := by
    rintro rfl
    exact h.not_mem hc (k := .ready prio) (by simp) (by simp [hready])
  obtain ⟨rfl, rfl⟩ : prio = q ∧ xs = [] := by
    by_cases hq : prio = q
    · subst hq
      simpa [hprio] using hxs
    · by_cases hl : q = .low
      · subst hl
        simp [hprio, Ne.symm hpi] at hxs
      · simp [hq, hl] at hxs
  refine ⟨sw, k', _, htick, h', hcur, fun hd => ?_, ?_, fun q => ?_⟩
  · rw [hcr3, if_neg]
    rintro (hsame | hz)
    · exact hpi (Option.some.inj (hsame.symm.trans hc))
    · exact hd hz
  · rw [Function.update_of_ne (by simp), take_other (by simp) (by simp), queued_sleep]
    simp [hc, h.idle_running hc, hsleep]
  · rw [Function.update_of_ne (by simp)]
    by_cases hq : q = prio
    · subst hq
      rw [take_same (by simp), if_neg hprio]
    · rw [take_other (by simp) (by simpa using hq), hqueued, if_neg (Ne.symm hq), List.nil_append]

/-- With nobody asleep, nobody else ready and the current process not running on, the idle process
is next. -/
theorem idleNext_of_only (h : SchedInv s running ls) (hsleep : ls .sleep = [])
    (hready : ∀ q, ls (.ready q) = if q = .low then [.idle] else [])
    (hst : ∀ p, s.current = some p → (s.pcb p).state ≠ .running) : s.IdleNext := by
  have hhead := h.placed.ready_head
  refine ⟨by rw [hhead, hready]; rfl, fun q hq => by rw [hhead, hready, if_neg hq]; rfl,
    fun p hp => ?_, fun p hp hrun => absurd hrun (hst p hp)⟩
  have hmem := (h.placed.onList_iff (k := .sleep) (by simp) p).mp hp
  rw [hsleep] at hmem
  exact absurd hmem List.not_mem_nil

end JarvOs.Process
