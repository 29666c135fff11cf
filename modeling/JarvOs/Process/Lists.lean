/-
# Where the scheduler keeps its processes

At any moment a process is in at most one PLACE: the free list, one of the ready queues, the sleep
list, or in somebody's hand (`held`: it is the current process, or a local variable of a call that
has taken it off one list and not yet put it on another).  `Placed s ls` says that the pointers of
`s` spell out the lists `ls`.

Every list operation of the scheduler moves one process between two places.  `Placed.move` is that
move, proved once; what is left for each operation is what it does to the list it takes from and to
the list it puts on.
-/
import JarvOs.Process.Scheduler
import JarvOs.Lib.Chain

namespace JarvOs.Process

open JarvOs.Lib

/-! ## 1. Places -/

/-- Where a process can be. -/
inductive Place
  | free
  | ready (q : Priority)
  | sleep
  | held
deriving DecidableEq, Repr

/-- The processes at each place, in order. -/
abbrev Lists := Place → List Proc

namespace Sched

/-- The link field. -/
def next (s : Sched) (p : Proc) : Option Proc := (s.pcb p).next

/-- The pointer to the list of a place. -/
def head (s : Sched) : Place → Option Proc
  | .free => s.freeList
  | .ready q => (s.queues q).head
  | .sleep => s.sleepList
  | .held => none

/-- `p` is on the list that starts at `a`. -/
def OnList (s : Sched) (a : Option Proc) (p : Proc) : Prop := ∃ l, Chain s.next a l ∧ p ∈ l

end Sched

/-- The lists of `s` are `ls`. -/
structure Placed (s : Sched) (ls : Lists) : Prop where
  links : ∀ i, i ≠ .held → Chain s.next (s.head i) (ls i)
  tail : ∀ q, (s.queues q).tail = (ls (.ready q)).getLast?
  exclusive : Exclusive ls
  priority : ∀ {q p}, p ∈ ls (.ready q) → (s.pcb p).priority = q
  asleep : ∀ {p}, p ∈ ls .sleep → (s.pcb p).state = .sleeping

variable {s s' : Sched} {ls : Lists} {p t : Proc} {hs xs ys : List Proc}

theorem Placed.onList_iff (h : Placed s ls) {k : Place} (hk : k ≠ .held) (p : Proc) :
    s.OnList (s.head k) p ↔ p ∈ ls k := by
  constructor
  · rintro ⟨l, hl, hp⟩
    rwa [← hl.unique (h.links k hk)]
  · exact fun hp => ⟨_, h.links k hk, hp⟩

theorem Placed.ready_head (h : Placed s ls) (q : Priority) :
    (s.queues q).head = (ls (.ready q)).head? :=
  Chain.head (h.links (.ready q) (by simp))

/-! ## 2. Assignments -/

section Fields

variable (s) (p) (f : Pcb → Pcb) (n : Option Proc) (st : ProcessState) (q : Priority) (v : Queue)

@[simp] theorem modify_pcb : (s.modify p f).pcb = Function.update s.pcb p (f (s.pcb p)) := rfl

@[simp] theorem modify_head : (s.modify p f).head = s.head := by
  funext i
  cases i <;> rfl

@[simp] theorem modify_queues : (s.modify p f).queues = s.queues := rfl

@[simp] theorem modify_current : (s.modify p f).current = s.current := rfl

@[simp] theorem modify_tickCount : (s.modify p f).tickCount = s.tickCount := rfl

@[simp] theorem setCurrent_pcb : (s.setCurrent n).pcb = s.pcb := rfl

@[simp] theorem setCurrent_head : (s.setCurrent n).head = s.head := by
  funext i
  cases i <;> rfl

@[simp] theorem setCurrent_current : (s.setCurrent n).current = n := rfl

@[simp] theorem setQueue_queues : (s.setQueue q v).queues = Function.update s.queues q v := rfl

@[simp] theorem setQueue_next : (s.setQueue q v).next = s.next := rfl

@[simp] theorem setQueue_pcb : (s.setQueue q v).pcb = s.pcb := rfl

@[simp] theorem setNext_next : (s.setNext p n).next = Function.update s.next p n := by
  funext x
  by_cases hx : x = p
  · subst hx
    simp [Sched.next, Sched.setNext]
  · simp [Sched.next, Sched.setNext, hx]

end Fields

/-! ## 3. Moving a process -/

/-- A PCB without its link. -/
def Pcb.body (c : Pcb) : Pcb := { c with next := none }

theorem body_withState (c : Pcb) (st : ProcessState) :
    (c.withState st).body = c.body.withState st := rfl

theorem setState_pcb (s : Sched) (p : Proc) (st : ProcessState) :
    (s.setState p st).pcb = Function.update s.pcb p ((s.pcb p).withState st) := rfl

theorem setState_next (s : Sched) (p : Proc) (st : ProcessState) :
    (s.setState p st).next = s.next := by
  funext x
  rcases eq_or_ne x p with rfl | hx
  · simp [Sched.next, Sched.setState, Pcb.withState]
  · simp [Sched.next, Sched.setState, hx]

/-- `s'` is `s` with other lists: only links and list heads differ. -/
structure Relinked (s s' : Sched) : Prop where
  body : ∀ x, (s'.pcb x).body = (s.pcb x).body
  current : s'.current = s.current
  tickCount : s'.tickCount = s.tickCount
  nextPid : s'.nextPid = s.nextPid

theorem field_of_body {β : Type} {c c' : Pcb} (h : c'.body = c.body) (f : Pcb → β)
    (hf : ∀ c, f c.body = f c) : f c' = f c := by
  rw [← hf, h, hf]

theorem Relinked.field {β : Type} (h : Relinked s s') (f : Pcb → β) (hf : ∀ c, f c.body = f c)
    (x : Proc) : f (s'.pcb x) = f (s.pcb x) := field_of_body (h.body x) f hf

theorem Relinked.priority (h : Relinked s s') (x : Proc) :
    (s'.pcb x).priority = (s.pcb x).priority := h.field Pcb.priority (fun _ => rfl) x

theorem Relinked.state (h : Relinked s s') (x : Proc) : (s'.pcb x).state = (s.pcb x).state :=
  h.field Pcb.state (fun _ => rfl) x

theorem Relinked.stackPtr (h : Relinked s s') (x : Proc) :
    (s'.pcb x).stackPtr = (s.pcb x).stackPtr := h.field Pcb.stackPtr (fun _ => rfl) x

theorem Relinked.trans {s'' : Sched} (h : Relinked s s') (h' : Relinked s' s'') :
    Relinked s s'' :=
  ⟨fun x => (h'.body x).trans (h.body x), h'.current.trans h.current,
    h'.tickCount.trans h.tickCount, h'.nextPid.trans h.nextPid⟩

theorem relinked_setNext (s : Sched) (p : Proc) (n : Option Proc) : Relinked s (s.setNext p n) := by
  refine ⟨fun x => ?_, rfl, rfl, rfl⟩
  by_cases hx : x = p
  · subst hx
    simp [Sched.setNext, Pcb.body]
  · simp [Sched.setNext, hx]

theorem relinked_enqueue (s : Sched) (p : Proc) : Relinked s (s.enqueueProcess p) := by
  unfold Sched.enqueueProcess
  simp only
  split
  · exact ⟨(relinked_setNext s p none).body, rfl, rfl, rfl⟩
  · rename_i t _
    exact (relinked_setNext s t (some p)).trans ⟨(relinked_setNext _ p none).body, rfl, rfl, rfl⟩

/-- **One process moves** from place `i` to place `j`, and the links of no other place change. -/
theorem Placed.move (h : Placed s ls) (hr : Relinked s s') {i j : Place} (hij : i ≠ j)
    (hi : (ls i).Perm (p :: xs)) (hsub : xs.Sublist (ls i)) (hj : ys.Perm (p :: ls j))
    (hoff : ∀ k, k ≠ i → k ≠ j → k ≠ .held →
      s'.head k = s.head k ∧ ∀ x ∈ ls k, s'.next x = s.next x)
    (hli : i ≠ .held → Chain s'.next (s'.head i) xs)
    (hlj : j ≠ .held → Chain s'.next (s'.head j) ys)
    (htail : ∀ q, (s'.queues q).tail =
      (Function.update (Function.update ls i xs) j ys (.ready q)).getLast?)
    (hready : ∀ q, j = .ready q → (s.pcb p).priority = q)
    (hsleep : j = .sleep → (s.pcb p).state = .sleeping) :
    Placed s' (Function.update (Function.update ls i xs) j ys) := by
  -- a process at a place afterwards was there before, or is the one that moved
  have hmem : ∀ {k x}, x ∈ Function.update (Function.update ls i xs) j ys k →
      x ∈ ls k ∨ (x = p ∧ k = j) := fun {k x} hx => by
    by_cases hkj : k = j
    · subst hkj
      rw [Function.update_self, hj.mem_iff, List.mem_cons] at hx
      exact hx.elim (fun h => Or.inr ⟨h, rfl⟩) Or.inl
    · rw [Function.update_of_ne hkj] at hx
      by_cases hki : k = i
      · subst hki
        rw [Function.update_self] at hx
        exact Or.inl (hsub.subset hx)
      · rw [Function.update_of_ne hki] at hx
        exact Or.inl hx
  refine ⟨fun k hk => ?_, htail, h.exclusive.move hij hi hsub hj, fun {q x} hx => ?_,
    fun {x} hx => ?_⟩
  · by_cases hkj : k = j
    · subst hkj
      rw [Function.update_self]
      exact hlj hk
    · rw [Function.update_of_ne hkj]
      by_cases hki : k = i
      · subst hki
        rw [Function.update_self]
        exact hli hk
      · obtain ⟨hhead, hnext⟩ := hoff k hki hkj hk
        rw [Function.update_of_ne hki, hhead]
        exact (h.links k hk).congr hnext
  · rw [hr.priority]
    rcases hmem hx with hx | ⟨rfl, hq⟩
    · exact h.priority hx
    · exact hready q hq.symm
  · rw [hr.state]
    rcases hmem hx with hx | ⟨rfl, hs⟩
    · exact h.asleep hx
    · exact hsleep hs.symm

/-- The lists after process `p` is taken off place `i`, which keeps `xs`. -/
def Lists.take (ls : Lists) (i : Place) (p : Proc) (xs : List Proc) : Lists :=
  Function.update (Function.update ls i xs) .held (p :: ls .held)

/-- The lists after a held process, of which `hs` stay held, is put on place `j`, now `ys`. -/
def Lists.put (ls : Lists) (hs : List Proc) (j : Place) (ys : List Proc) : Lists :=
  Function.update (Function.update ls .held hs) j ys

@[simp] theorem take_held (i : Place) : ls.take i p xs .held = p :: ls .held := Function.update_self _ _ _

theorem take_same {i : Place} (hi : i ≠ .held) : ls.take i p xs i = xs := by
  rw [Lists.take, Function.update_of_ne hi, Function.update_self]

theorem take_other {i k : Place} (hk : k ≠ .held) (hki : k ≠ i) : ls.take i p xs k = ls k := by
  rw [Lists.take, Function.update_of_ne hk, Function.update_of_ne hki]

@[simp] theorem put_same (j : Place) : ls.put hs j ys j = ys := Function.update_self _ _ _

theorem put_held {j : Place} (hj : j ≠ .held) : ls.put hs j ys .held = hs := by
  rw [Lists.put, Function.update_of_ne hj.symm, Function.update_self]

theorem put_other {j k : Place} (hk : k ≠ .held) (hkj : k ≠ j) : ls.put hs j ys k = ls k := by
  rw [Lists.put, Function.update_of_ne hkj, Function.update_of_ne hk]

/-! ## 4. The list operations -/

theorem Placed.not_mem_of_held (h : Placed s ls) (hheld : ls .held = p :: hs) {k : Place}
    (hk : k ≠ .held) : p ∉ ls k :=
  h.exclusive.not_mem (i := .held) (by rw [hheld]; exact List.mem_cons_self) hk

/-- **Taking the first process** of a list and clearing its link. -/
theorem Placed.pop (h : Placed s ls) (hr : Relinked s s') {i : Place} (hi : i ≠ .held)
    (hls : ls i = p :: xs) (hnext : s'.next = Function.update s.next p none)
    (hhead : s'.head = Function.update s.head i (s.next p))
    (htail : ∀ q, (s'.queues q).tail = (ls.take i p xs (.ready q)).getLast?) :
    Placed s' (ls.take i p xs) := by
  have hp : p ∈ ls i := by
    rw [hls]
    exact List.mem_cons_self
  have hlink := h.links i hi
  have hnd := h.exclusive.nodup i
  rw [hls] at hlink hnd
  refine h.move (i := i) (j := .held) hr hi (by rw [hls])
    (by rw [hls]; exact List.sublist_cons_self _ _) (List.Perm.refl _)
    (fun k hki _ _ => ⟨?_, fun x hx => ?_⟩) (fun _ => ?_) (fun hne => absurd rfl hne) htail
    (fun q hq => absurd hq (by simp)) (fun hq => absurd hq (by simp))
  · rw [hhead, Function.update_of_ne hki]
  · rw [hnext, Function.update_of_ne]
    rintro rfl
    exact hki (h.exclusive.apart hx hp)
  · rw [hnext, hhead, Function.update_self]
    exact hlink.2.update_off (List.nodup_cons.mp hnd).1 none

/-- **Putting a held process first** on a list. -/
theorem Placed.push (h : Placed s ls) (hr : Relinked s s') {j : Place} (hj : j ≠ .held)
    (hheld : ls .held = p :: hs) (hnext : s'.next = Function.update s.next p (s.head j))
    (hhead : s'.head = Function.update s.head j (some p)) (hqueues : s'.queues = s.queues)
    (hready : ∀ q, j ≠ .ready q) (hsleep : j = .sleep → (s.pcb p).state = .sleeping) :
    Placed s' (ls.put hs j (p :: ls j)) := by
  refine h.move (i := .held) (j := j) hr hj.symm (by rw [hheld])
    (by rw [hheld]; exact List.sublist_cons_self _ _) (List.Perm.refl _)
    (fun k _ hkj hk => ⟨?_, fun x hx => ?_⟩) (fun hne => absurd rfl hne) (fun _ => ?_) (fun q => ?_)
    (fun q hq => absurd hq (hready q)) hsleep
  · rw [hhead, Function.update_of_ne hkj]
  · rw [hnext, Function.update_of_ne]
    rintro rfl
    exact h.not_mem_of_held hheld hk hx
  · rw [hnext, hhead, Function.update_self]
    exact (h.links j hj).push (h.not_mem_of_held hheld hj)
  · rw [hqueues, Function.update_of_ne (hready q).symm, Function.update_of_ne (by simp)]
    exact h.tail q

theorem head_setNext (s : Sched) (p : Proc) (n : Option Proc) : (s.setNext p n).head = s.head :=
  modify_head s p _

/-- **`allocate_process`** takes the first free PCB. -/
theorem allocateProcess_placed (h : Placed s ls) :
    (s.allocateProcess = (none, s) ∧ ls .free = []) ∨
      ∃ p xs s', ls .free = p :: xs ∧ s.allocateProcess = (some p, s') ∧ Relinked s s' ∧
        Placed s' (ls.take .free p xs) := by
  have hhead : s.freeList = (ls .free).head? := (h.links .free (by simp)).head
  cases hfree : ls .free with
  | nil =>
    rw [hfree] at hhead
    exact Or.inl ⟨by rw [Sched.allocateProcess, hhead]; rfl, rfl⟩
  | cons p xs =>
    rw [hfree] at hhead
    have hr : Relinked s ({ s with freeList := s.next p }.setNext p none) :=
      ⟨(relinked_setNext s p none).body, rfl, rfl, rfl⟩
    refine Or.inr ⟨p, xs, _, rfl, ?_, hr, h.pop hr (by simp) hfree (setNext_next _ _ _) ?_ ?_⟩
    · rw [Sched.allocateProcess, hhead]
      rfl
    · rw [head_setNext]
      funext k
      cases k <;> rfl
    · intro q
      rw [take_other (by simp) (by simp)]
      exact h.tail q

/-- **`release_process`** puts a PCB first on the free list. -/
theorem releaseProcess_placed (h : Placed s ls) (hheld : ls .held = p :: hs) :
    Relinked s (s.releaseProcess p) ∧
      Placed (s.releaseProcess p) (ls.put hs .free (p :: ls .free)) := by
  have hr : Relinked s (s.releaseProcess p) := ⟨(relinked_setNext s p _).body, rfl, rfl, rfl⟩
  refine ⟨hr, h.push hr (by simp) hheld (setNext_next _ _ _) ?_ rfl (by simp) (by simp)⟩
  funext k
  cases k <;> rfl

/-- **`enqueue_sleep`** puts a sleeping process first on the sleep list. -/
theorem enqueueSleep_placed (h : Placed s ls) (hheld : ls .held = p :: hs)
    (hst : (s.pcb p).state = .sleeping) :
    Relinked s (s.enqueueSleep p) ∧
      Placed (s.enqueueSleep p) (ls.put hs .sleep (p :: ls .sleep)) := by
  have hr : Relinked s (s.enqueueSleep p) := ⟨(relinked_setNext s p _).body, rfl, rfl, rfl⟩
  refine ⟨hr, h.push hr (by simp) hheld (setNext_next _ _ _) ?_ rfl (by simp) (fun _ => hst)⟩
  funext k
  cases k <;> rfl

/-- **`dequeue_process`** takes the first process of a ready queue. -/
theorem dequeueProcess_placed (h : Placed s ls) {q : Priority} (hls : ls (.ready q) = p :: xs) :
    ∃ s', s.dequeueProcess q = (some p, s') ∧ Relinked s s' ∧
      Placed s' (ls.take (.ready q) p xs) := by
  have hlink := h.links (.ready q) (by simp)
  have hhead : (s.queues q).head = some p := by
    have := hlink.head
    rwa [hls] at this
  rw [hls] at hlink
  have hxs : s.next p = xs.head? := Chain.head hlink.2
  refine ⟨_, by rw [Sched.dequeueProcess, hhead], ?_⟩
  have hr : Relinked s ((s.setQueue q ⟨(s.pcb p).next,
      if (s.pcb p).next = none then none else (s.queues q).tail⟩).setNext p none) :=
    ⟨(relinked_setNext s p none).body, rfl, rfl, rfl⟩
  refine ⟨hr, h.pop hr (by simp) hls (setNext_next _ _ _) ?_ (fun q' => ?_)⟩
  · rw [head_setNext]
    funext k
    cases k with
    | ready q' =>
      by_cases hq : q' = q
      · subst hq
        simp [Sched.head, Sched.next]
      · simp [Sched.head, hq]
    | _ => rfl
  · by_cases hq : q' = q
    · subst hq
      have htail := h.tail q'
      rw [hls] at htail
      rw [take_same (by simp), Sched.setNext, modify_queues, setQueue_queues, Function.update_self]
      simp only
      rw [show (s.pcb p).next = xs.head? from hxs, htail]
      cases xs with
      | nil => rfl
      | cons x xs => simp
    · rw [take_other (by simp) (by simp [hq]), Sched.setNext, modify_queues, setQueue_queues,
        Function.update_of_ne hq]
      exact h.tail q'

/-- A held process becomes the last of a queue, if only members of this queue and the process itself
are relinked. -/
theorem Placed.append (h : Placed s ls) (hheld : ls .held = p :: hs) {q : Priority}
    (hq : (s.pcb p).priority = q) (hr : Relinked s s')
    (hhead : ∀ k, k ≠ .ready q → s'.head k = s.head k)
    (hnext : ∀ x, x ∉ ls (.ready q) → x ≠ p → s'.next x = s.next x)
    (hchain : Chain s'.next (s'.head (.ready q)) (ls (.ready q) ++ [p]))
    (htails : ∀ q', (s'.queues q').tail = if q' = q then some p else (s.queues q').tail) :
    Placed s' (ls.put hs (.ready q) (ls (.ready q) ++ [p])) := by
  refine h.move (i := .held) (j := .ready q) hr (by simp) (by rw [hheld])
    (by rw [hheld]; exact List.sublist_cons_self _ _) (List.perm_append_singleton _ _)
    (fun k _ hkq hk => ⟨hhead k hkq, fun x hx => hnext x ?_ ?_⟩) (fun hne => absurd rfl hne)
    (fun _ => hchain) (fun q' => ?_) (fun q' hq' => ?_) (fun hs => absurd hs (by simp))
  · exact h.exclusive.not_mem hx hkq.symm
  · rintro rfl
    exact h.not_mem_of_held hheld hk hx
  · rw [htails q']
    by_cases hqq : q' = q
    · subst hqq
      rw [if_pos rfl, Function.update_self, List.getLast?_concat]
    · rw [if_neg hqq, Function.update_of_ne (by simp [hqq]), Function.update_of_ne (by simp)]
      exact h.tail q'
  · rw [hq]
    exact Place.ready.inj hq'

/-- **`enqueue_process`** puts a held process last on the queue of its priority. -/
theorem enqueueProcess_placed (h : Placed s ls) (hheld : ls .held = p :: hs) {q : Priority}
    (hq : (s.pcb p).priority = q) :
    Relinked s (s.enqueueProcess p) ∧
      Placed (s.enqueueProcess p) (ls.put hs (.ready q) (ls (.ready q) ++ [p])) := by
  have hr := relinked_enqueue s p
  refine ⟨hr, ?_⟩
  have htail := h.tail q
  have hlink := h.links (.ready q) (by simp)
  have hnot := h.not_mem_of_held hheld (show Place.ready q ≠ .held by simp)
  unfold Sched.enqueueProcess at hr ⊢
  simp only [hq] at hr ⊢
  cases hlast : (s.queues q).tail with
  | none =>
    have hnil : ls (.ready q) = [] := List.getLast?_eq_none_iff.mp (htail ▸ hlast)
    rw [hlast] at hr
    refine h.append hheld hq hr (fun k hk => ?_) (fun x _ hx => ?_) ?_ (fun q' => ?_)
    · rw [head_setNext]
      cases k with
      | ready q' => simp [Sched.head, show q' ≠ q by simpa using hk]
      | _ => rfl
    · rw [setNext_next, Function.update_of_ne hx, setQueue_next]
    · rw [hnil, setNext_next, head_setNext]
      exact ⟨by simp [Sched.head], Function.update_self _ _ _⟩
    · by_cases hqq : q' = q
      · subst hqq
        simp [Sched.setNext]
      · simp [Sched.setNext, hqq]
  | some t =>
    have ht : (ls (.ready q)).getLast? = some t := htail ▸ hlast
    have htm : t ∈ ls (.ready q) := List.mem_of_getLast? ht
    rw [hlast] at hr
    refine h.append hheld hq hr (fun k hk => ?_) (fun x hx hxp => ?_) ?_ (fun q' => ?_)
    · rw [head_setNext]
      cases k with
      | ready q' => simp [Sched.head, Sched.setNext, show q' ≠ q by simpa using hk]
      | _ => rfl
    · rw [setNext_next, Function.update_of_ne hxp, setQueue_next, setNext_next,
        Function.update_of_ne (fun heq : x = t => hx (heq ▸ htm))]
    · rw [setNext_next, setQueue_next, setNext_next, head_setNext]
      have hhead : ((s.setNext t (some p)).setQueue q ⟨(s.queues q).head, some p⟩).head (.ready q) =
          s.head (.ready q) := by simp [Sched.head]
      rw [hhead]
      exact hlink.snoc (h.exclusive.nodup _) ht hnot
    · by_cases hqq : q' = q
      · subst hqq
        simp [Sched.setNext]
      · simp [Sched.setNext, hqq]

/-- Assigning to fields of a held process. -/
theorem Placed.modify_held (h : Placed s ls) (hp : ∀ k, k ≠ .held → p ∉ ls k) (f : Pcb → Pcb) :
    Placed (s.modify p f) ls := by
  have hpcb : ∀ {k x}, k ≠ .held → x ∈ ls k → (s.modify p f).pcb x = s.pcb x := fun {k x} hk hx => by
    rw [modify_pcb, Function.update_of_ne]
    rintro rfl
    exact hp k hk hx
  refine ⟨fun k hk => ?_, h.tail, h.exclusive, fun {q x} hx => ?_, fun {x} hx => ?_⟩
  · rw [modify_head]
    exact (h.links k hk).congr (fun x hx => congrArg Pcb.next (hpcb hk hx))
  · rw [hpcb (by simp) hx]
    exact h.priority hx
  · rw [hpcb (by simp) hx]
    exact h.asleep hx

/-- Assigning to fields no list depends on. -/
theorem Placed.modify_any (h : Placed s ls) (f : Pcb → Pcb) (hnext : ∀ c, (f c).next = c.next)
    (hprio : ∀ c, (f c).priority = c.priority)
    (hstate : p ∈ ls .sleep → (f (s.pcb p)).state = (s.pcb p).state) : Placed (s.modify p f) ls := by
  have hfield : ∀ {β : Type} (g : Pcb → β), g (f (s.pcb p)) = g (s.pcb p) →
      ∀ x, g ((s.modify p f).pcb x) = g (s.pcb x) := fun g hg x => by
    by_cases hx : x = p
    · subst hx
      rw [modify_pcb, Function.update_self, hg]
    · rw [modify_pcb, Function.update_of_ne hx]
  refine ⟨fun k hk => ?_, h.tail, h.exclusive, fun {q x} hx => ?_, fun {x} hx => ?_⟩
  · rw [modify_head]
    exact (h.links k hk).congr (fun x _ => hfield Pcb.next (hnext _) x)
  · rw [hfield Pcb.priority (hprio _)]
    exact h.priority hx
  · by_cases hxp : x = p
    · subst hxp
      rw [modify_pcb, Function.update_self, hstate hx]
      exact h.asleep hx
    · rw [modify_pcb, Function.update_of_ne hxp]
      exact h.asleep hx

/-- The lists do not depend on the rest of the scheduler's data. -/
theorem Placed.congr (h : Placed s ls) (hpcb : s'.pcb = s.pcb) (hhead : s'.head = s.head)
    (hqueues : s'.queues = s.queues) : Placed s' ls := by
  have hnext : s'.next = s.next := by
    funext x
    rw [Sched.next, Sched.next, hpcb]
  refine ⟨fun k hk => ?_, fun q => ?_, h.exclusive, ?_, ?_⟩
  · rw [hnext, hhead]
    exact h.links k hk
  · rw [hqueues]
    exact h.tail q
  · rw [hpcb]
    exact h.priority
  · rw [hpcb]
    exact h.asleep

theorem Placed.setCurrent (h : Placed s ls) (c : Option Proc) : Placed (s.setCurrent c) ls :=
  h.congr rfl (setCurrent_head s c) rfl

/-- Letting go of held processes. -/
theorem Placed.drop (h : Placed s ls) (hsub : hs.Sublist (ls .held)) :
    Placed s (Function.update ls .held hs) := by
  have hoff : ∀ {k}, k ≠ .held → Function.update ls .held hs k = ls k := fun hk =>
    Function.update_of_ne hk _ _
  refine ⟨fun k hk => ?_, fun q => ?_, h.exclusive.shrink hsub, fun {q x} hx => ?_, fun {x} hx => ?_⟩
  · rw [hoff hk]
    exact h.links k hk
  · rw [hoff (by simp)]
    exact h.tail q
  · rw [hoff (by simp)] at hx
    exact h.priority hx
  · rw [hoff (by simp)] at hx
    exact h.asleep hx

end JarvOs.Process
