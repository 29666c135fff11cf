/-
# Message queues: the ring as a FIFO (`kernel/ipc/msg.c`)

A queue of `msg.c` is a ring of 16 slots with `head`, `tail` and `count`, and `sys_msgrcv` puts
`head` and `tail` back to 0 whenever the queue drains.  A slot does not record how long its text
is: what was sent is only known to be the first bytes of the slot (`Carries`).

The abstract queue is a list of the messages sent and not yet received (`fifoStep`).  Section 2
shows that one `sys_msgsnd` and one `sys_msgrcv` with type 0 are one step of it
(`queueCall_fifo`), and section 3 follows any interleaving of the two (`msg_fifo_refinement`).
-/
import JarvOs.Ipc.Msg
import JarvOs.Lib.Ring

namespace JarvOs.Ipc

open JarvOs.Lib

instance slots : NeZero 16 := ⟨by decide⟩

/-! ## 1. The queue a ring stands for -/

/-- The index invariant of a ring. -/
structure RingOk (q : MsgQueue) : Prop where
  head_nonneg : 0 ≤ q.head
  head_lt : q.head < 16
  count_nonneg : 0 ≤ q.count
  count_le : q.count ≤ 16
  tail_eq : q.tail = (q.head + q.count) % 16

/-- The occupied slots, oldest message first. -/
def MsgQueue.pending (q : MsgQueue) : List Msg := ringView q.messages q.head.toNat q.count.toNat

/-- A message as its sender meant it: the text is the `msgsz` bytes passed. -/
structure Sent where
  mtype : Int
  text : List UInt8
deriving DecidableEq

/-- What `sys_msgsnd(_, msgp, msgsz, _)` sends. -/
def UserMsg.sent (msgp : UserMsg) (msgsz : Nat) : Sent where
  mtype := msgp.mtype
  text := (List.range msgsz).map msgp.mtext

/-- The slot holds the message, with anything behind its text. -/
def Carries (m : Msg) (s : Sent) : Prop := m.mtype = s.mtype ∧ s.text <+: m.buffer

/-- **The queue `msqid` is slot `i` and stands for the messages `ms`.** -/
structure Represents (t : MsgTable) (msqid : Int) (i : Slot) (ms : List Sent) : Prop where
  get : getMsgqueue t msqid = some i
  ring : RingOk (t.queues i)
  pending : List.Forall₂ Carries (t.queues i).pending ms

/-- The calls on one queue. -/
inductive QueueOp
  | snd (msgp : UserMsg) (msgsz msgflg : Nat)
  | rcv (msgsz msgflg : Nat)

/-- A send of at most `MSG_SIZE_MAX` bytes. -/
def QueueOp.Fits : QueueOp → Prop
  | .snd _ msgsz _ => msgsz ≤ 4096
  | .rcv _ _ => True

/-- A call as its caller saw it: the result and the bytes written to the buffer. -/
structure Call where
  op : QueueOp
  ret : Int
  bytes : List UInt8

/-- A call that failed: -1 and nothing in the buffer. -/
def Call.Failed (c : Call) : Prop := c.ret = -1 ∧ c.bytes = []

/-- One call on the queue `msqid`; a receive asks for any type. -/
def queueCall (msqid : Int) (t : MsgTable) : QueueOp → Option (Call × MsgTable)
  | .snd msgp msgsz msgflg => do
    let (ret, t', _) ← sysMsgsnd t msqid msgp msgsz msgflg
    some (⟨.snd msgp msgsz msgflg, ret, []⟩, t')
  | .rcv msgsz msgflg => do
    let (ret, t', bytes) ← sysMsgrcv t msqid msgsz 0 msgflg
    some (⟨.rcv msgsz msgflg, ret, bytes⟩, t')

/-- The calls of an interleaving, in order. -/
def queueRun (msqid : Int) : MsgTable → List QueueOp → Option (List Call × MsgTable)
  | t, [] => some ([], t)
  | t, o :: os => do
    let (c, t₁) ← queueCall msqid t o
    let (cs, t₂) ← queueRun msqid t₁ os
    some (c :: cs, t₂)

/-- What the abstract queue answers. -/
inductive Outcome
  | refused
  | accepted (s : Sent)
  | delivered (s : Sent)

/-- **The abstract queue**: at most 16 messages, received in the order sent. -/
def fifoStep (ms : List Sent) : QueueOp → Outcome × List Sent
  | .snd msgp msgsz _ =>
    if ms.length = 16 then (.refused, ms)
    else (.accepted (msgp.sent msgsz), ms ++ [msgp.sent msgsz])
  | .rcv _ _ =>
    match ms with
    | [] => (.refused, [])
    | s :: rest => (.delivered s, rest)

/-- The abstract queue over a sequence of calls. -/
def fifoRun : List Sent → List QueueOp → List Outcome × List Sent
  | ms, [] => ([], ms)
  | ms, o :: os => ((fifoStep ms o).1 :: (fifoRun (fifoStep ms o).2 os).1,
      (fifoRun (fifoStep ms o).2 os).2)

/-- The call shows its caller this outcome.  A delivered text is complete at the front of the
buffer if the buffer was large enough. -/
def Call.Shows (c : Call) : Outcome → Prop
  | .refused => c.Failed
  | .accepted s => ∃ msgp msgsz msgflg, c.op = .snd msgp msgsz msgflg ∧ s = msgp.sent msgsz ∧ c.ret = 0
  | .delivered s => ∃ msgsz msgflg, c.op = .rcv msgsz msgflg ∧
      c.ret = (msgsz : Int).bmod (2 ^ 32) ∧ ¬ c.Failed ∧
      (s.text.length ≤ msgsz → s.text <+: c.bytes)

/-- The messages sent successfully. -/
def acceptedOf : List Outcome → List Sent
  | [] => []
  | .accepted s :: outs => s :: acceptedOf outs
  | _ :: outs => acceptedOf outs

/-- The messages received. -/
def deliveredOf : List Outcome → List Sent
  | [] => []
  | .delivered s :: outs => s :: deliveredOf outs
  | _ :: outs => deliveredOf outs

/-! ## 2. One call -/

theorem slotAt_eq {index : Int} (h : 0 ≤ index) (h' : index < 16) :
    slotAt index = some (Fin.ofNat 16 index.toNat) := by
  have hlt : index.toNat < 16 := by omega
  unfold slotAt
  rw [dif_pos ⟨h, hlt⟩]
  exact congrArg some (Fin.ext (Nat.mod_eq_of_lt hlt).symm)

/-- Replacing a queue by one with the same id leaves every lookup as it was. -/
theorem getMsgqueue_set {t : MsgTable} {i : Slot} {q : MsgQueue} (hid : q.id = (t.queues i).id)
    (msqid : Int) : getMsgqueue (t.set i q) msqid = getMsgqueue t msqid := by
  have hids : ∀ j, ((t.set i q).queues j).id = (t.queues j).id := by
    intro j
    rcases eq_or_ne j i with rfl | hj
    · simp [MsgTable.set, hid]
    · simp [MsgTable.set, Function.update_of_ne hj]
  simp only [getMsgqueue, hids]

@[simp] theorem length_buffer (m : Msg) : m.buffer.length = 4096 := List.length_ofFn

theorem getElem_buffer (m : Msg) {k : Nat} (h : k < m.buffer.length) :
    m.buffer[k] = m.mtext ⟨k, by simpa using h⟩ :=
  List.getElem_ofFn ..

/-- The stored text begins with the bytes sent. -/
theorem carries_stored (old : Fin 4096 → UInt8) (msgp : UserMsg) {msgsz : Nat} (h : msgsz ≤ 4096) :
    Carries ⟨msgp.mtype, storeText old msgp.mtext msgsz⟩ (msgp.sent msgsz) := by
  refine ⟨rfl, ?_⟩
  rw [List.prefix_iff_eq_take]
  refine List.ext_getElem (by simp [UserMsg.sent, h]) (fun k hk _ => ?_)
  have hk : k < msgsz := by simpa [UserMsg.sent] using hk
  simp [UserMsg.sent, getElem_buffer, storeText, hk]

theorem RingOk.enqueue {q : MsgQueue} (h : RingOk q) (hroom : q.count < 16) (j : Slot)
    (msgp : UserMsg) (msgsz : Nat) : RingOk (enqueue q j msgp msgsz) := by
  obtain ⟨hnonneg, hlt, hcount, hle, htail⟩ := h
  refine ⟨hnonneg, hlt, ?_, ?_, ?_⟩ <;> simp only [Ipc.enqueue]
  · omega
  · omega
  · rw [Int.tmod_eq_emod_of_nonneg (by omega)]
    omega

/-- A send appends to the pending messages. -/
theorem RingOk.pending_enqueue {q : MsgQueue} (h : RingOk q) (hroom : q.count < 16)
    (msgp : UserMsg) (msgsz : Nat) :
    ∃ j, slotAt q.tail = some j ∧
      (Ipc.enqueue q j msgp msgsz).pending =
        q.pending ++ [⟨msgp.mtype, storeText (q.messages j).mtext msgp.mtext msgsz⟩] := by
  obtain ⟨hnonneg, hlt, hcount, hle, htail⟩ := h
  have hj : Fin.ofNat 16 q.tail.toNat = Fin.ofNat 16 (q.head.toNat + q.count.toNat) := by
    refine Fin.ext ?_
    simp only [Fin.val_ofNat]
    omega
  have hc : (q.count + 1).toNat = q.count.toNat + 1 := by omega
  refine ⟨_, slotAt_eq (by omega) (by omega), ?_⟩
  simp only [MsgQueue.pending, Ipc.enqueue, hj, hc]
  exact ringView_push q.messages _ (by omega) _

/-- The untyped search stops at the head. -/
theorem searchLoop_untyped (q : MsgQueue) {steps : Nat} (hs : 0 < steps) {index : Int}
    (h : 0 ≤ index) (h' : index < 16) : searchLoop q 0 steps index = some (some index) := by
  obtain ⟨n, rfl⟩ : ∃ n, steps = n + 1 := ⟨steps - 1, by omega⟩
  simp [searchLoop, slotAt_eq h h']

theorem RingOk.dequeue {q : MsgQueue} (h : RingOk q) (hsome : 0 < q.count) :
    RingOk (dequeue q q.head) := by
  obtain ⟨hnonneg, hlt, hcount, hle, htail⟩ := h
  unfold Ipc.dequeue
  split
  · refine ⟨le_refl _, ?_, ?_, ?_, ?_⟩ <;> simp only <;> omega
  · rw [Int.tmod_eq_emod_of_nonneg (by omega)]
    refine ⟨?_, ?_, ?_, ?_, ?_⟩ <;> simp only <;> omega

/-- A receive takes the first of the pending messages, across the wrap and the reset. -/
theorem RingOk.pending_dequeue {q : MsgQueue} (h : RingOk q) (hsome : 0 < q.count) :
    q.pending = q.messages (Fin.ofNat 16 q.head.toNat) :: (Ipc.dequeue q q.head).pending := by
  obtain ⟨hnonneg, hlt, hcount, hle, htail⟩ := h
  obtain ⟨n, hn⟩ : ∃ n, q.count.toNat = n + 1 := ⟨q.count.toNat - 1, by omega⟩
  unfold Ipc.dequeue MsgQueue.pending
  rw [hn, ringView_succ]
  congr 1
  split
  · rename_i hlast
    have : n = 0 := by omega
    subst this
    simp [hlast]
  · have hhead : ((q.head + 1).tmod 16).toNat = (q.head.toNat + 1) % 16 := by
      rw [Int.tmod_eq_emod_of_nonneg (by omega)]
      omega
    have hc : (q.count - 1).toNat = n := by omega
    simp only [hhead, hc]
    exact (ringView_mod _ _ _).symm

/-- A buffer of at least the text's size receives the whole text, and a nonempty one shows
that something was received. -/
theorem Carries.delivered {m : Msg} {s : Sent} (h : Carries m s) {msgsz : Nat}
    (hlen : s.text.length ≤ msgsz) :
    s.text <+: m.buffer.take (if msgsz < 4096 then msgsz else 4096) := by
  have hmax : s.text.length ≤ 4096 := by simpa using h.2.length_le
  refine List.prefix_take_iff.mpr ⟨h.2, ?_⟩
  split <;> omega

/-- The result of a receive is -1 only for a buffer size for which it also copies bytes. -/
theorem received_not_failed (op : QueueOp) (m : Msg) (msgsz : Nat) :
    ¬ (Call.mk op ((msgsz : Int).bmod (2 ^ 32))
      (m.buffer.take (if msgsz < 4096 then msgsz else 4096))).Failed := by
  rintro ⟨hret, hbytes⟩
  have hlen := congrArg List.length hbytes
  simp only [List.length_take, length_buffer, List.length_nil] at hlen
  have hzero : msgsz = 0 := by
    split at hlen <;> omega
  subst hzero
  simp at hret

/-- Replacing the queue by one that stands for `ms'`. -/
theorem Represents.set {t : MsgTable} {msqid : Int} {i : Slot} {ms ms' : List Sent}
    (h : Represents t msqid i ms) {q : MsgQueue} (hid : q.id = (t.queues i).id) (hq : RingOk q)
    (hms : List.Forall₂ Carries q.pending ms') :
    Represents (t.set i q) msqid i ms' ∧ ∀ k, k ≠ i → (t.set i q).queues k = t.queues k := by
  have hself : (t.set i q).queues i = q := by simp [MsgTable.set]
  refine ⟨⟨(getMsgqueue_set hid msqid).trans h.get, ?_, ?_⟩, fun k hk => ?_⟩
  · rwa [hself]
  · rwa [hself]
  · simp [MsgTable.set, Function.update_of_ne hk]

theorem Represents.length {t : MsgTable} {msqid : Int} {i : Slot} {ms : List Sent}
    (h : Represents t msqid i ms) : (ms.length : Int) = (t.queues i).count := by
  have hlen := h.pending.length_eq
  simp only [MsgQueue.pending, length_ringView] at hlen
  have := h.ring.count_nonneg
  omega

/-- **One send.** -/
theorem sysMsgsnd_fifo {t : MsgTable} {msqid : Int} {i : Slot} {ms : List Sent}
    (h : Represents t msqid i ms) (msgp : UserMsg) {msgsz : Nat} (hsz : msgsz ≤ 4096) (msgflg : Nat) :
    ∃ ret t' fl, sysMsgsnd t msqid msgp msgsz msgflg = some (ret, t', fl) ∧
      Represents t' msqid i (fifoStep ms (.snd msgp msgsz msgflg)).2 ∧
      (∀ k, k ≠ i → t'.queues k = t.queues k) ∧
      (Call.mk (.snd msgp msgsz msgflg) ret []).Shows (fifoStep ms (.snd msgp msgsz msgflg)).1 := by
  have hlen := h.length
  have hle := h.ring.count_le
  simp only [sysMsgsnd, h.get, fifoStep, if_neg (not_lt.mpr hsz), ite_self]
  rcases eq_or_ne ms.length 16 with hfull | hroom
  · rw [if_pos (by omega), if_pos hfull]
    exact ⟨_, _, _, rfl, h, fun _ _ => rfl, rfl, rfl⟩
  · obtain ⟨j, hj, hpend⟩ := h.ring.pending_enqueue (by omega) msgp msgsz
    rw [if_neg (by omega), if_neg hroom, hj]
    have hms : List.Forall₂ Carries (enqueue (t.queues i) j msgp msgsz).pending
        (ms ++ [msgp.sent msgsz]) := by
      rw [hpend]
      exact List.rel_append h.pending (.cons (carries_stored _ msgp hsz) .nil)
    have hset := h.set (q := enqueue (t.queues i) j msgp msgsz) rfl
      (h.ring.enqueue (by omega) j msgp msgsz) hms
    exact ⟨_, _, _, rfl, hset.1, hset.2, msgp, msgsz, msgflg, rfl, rfl, rfl⟩

/-- **One receive of any type.** -/
theorem sysMsgrcv_fifo {t : MsgTable} {msqid : Int} {i : Slot} {ms : List Sent}
    (h : Represents t msqid i ms) (msgsz msgflg : Nat) :
    ∃ ret t' bytes, sysMsgrcv t msqid msgsz 0 msgflg = some (ret, t', bytes) ∧
      Represents t' msqid i (fifoStep ms (.rcv msgsz msgflg)).2 ∧
      (∀ k, k ≠ i → t'.queues k = t.queues k) ∧
      (Call.mk (.rcv msgsz msgflg) ret bytes).Shows (fifoStep ms (.rcv msgsz msgflg)).1 := by
  have hlen := h.length
  simp only [sysMsgrcv, h.get, ite_self]
  cases ms with
  | nil =>
    rw [if_pos (by simpa using hlen.symm)]
    exact ⟨_, _, _, rfl, h, fun _ _ => rfl, rfl, rfl⟩
  | cons s rest =>
    have hpos : 0 < (t.queues i).count := by
      simp only [List.length_cons] at hlen
      omega
    have hpend := h.pending
    rw [h.ring.pending_dequeue hpos] at hpend
    obtain ⟨hcar, hrest⟩ := List.forall₂_cons.mp hpend
    rw [if_neg (by omega),
      searchLoop_untyped _ (by omega) h.ring.head_nonneg h.ring.head_lt]
    simp only [Option.bind_eq_bind, Option.bind_some, slotAt_eq h.ring.head_nonneg h.ring.head_lt]
    have hid : (dequeue (t.queues i) (t.queues i).head).id = (t.queues i).id := by
      unfold dequeue
      split <;> rfl
    have hset := h.set hid (h.ring.dequeue hpos) hrest
    refine ⟨_, _, _, rfl, hset.1, hset.2, ?_⟩
    simp only [fifoStep, Call.Shows]
    exact ⟨msgsz, msgflg, rfl, rfl, received_not_failed _ _ _, hcar.delivered⟩

/-- **Step lemma**: a call on the queue is one step of the abstract queue, and no other queue
changes. -/
theorem queueCall_fifo {t : MsgTable} {msqid : Int} {i : Slot} {ms : List Sent}
    (h : Represents t msqid i ms) (o : QueueOp) (ho : o.Fits) :
    ∃ c t', queueCall msqid t o = some (c, t') ∧ c.op = o ∧
      Represents t' msqid i (fifoStep ms o).2 ∧ (∀ k, k ≠ i → t'.queues k = t.queues k) ∧
      c.Shows (fifoStep ms o).1 := by
  cases o with
  | snd msgp msgsz msgflg =>
    obtain ⟨ret, t', fl, hcall, hrest⟩ := sysMsgsnd_fifo h msgp ho msgflg
    exact ⟨_, t', by simp [queueCall, hcall], rfl, hrest⟩
  | rcv msgsz msgflg =>
    obtain ⟨ret, t', bytes, hcall, hrest⟩ := sysMsgrcv_fifo h msgsz msgflg
    exact ⟨_, t', by simp [queueCall, hcall], rfl, hrest⟩

/-! ## 3. Every interleaving -/

/-- **Nothing is lost, duplicated or reordered** by the abstract queue: what was received and what
is still pending are together what was pending before and what was sent. -/
theorem fifoRun_conserves (os : List QueueOp) : ∀ ms : List Sent,
    deliveredOf (fifoRun ms os).1 ++ (fifoRun ms os).2 = ms ++ acceptedOf (fifoRun ms os).1 := by
  induction os with
  | nil => intro ms; simp [fifoRun, deliveredOf, acceptedOf]
  | cons o os ih =>
    intro ms
    have hrest := ih (fifoStep ms o).2
    cases o with
    | snd msgp msgsz msgflg =>
      simp only [fifoRun, fifoStep] at hrest ⊢
      split at hrest <;> rename_i hfull <;> simp only [hfull, if_true, if_false] at hrest ⊢
      · simpa [deliveredOf, acceptedOf] using hrest
      · simpa [deliveredOf, acceptedOf] using hrest
    | rcv msgsz msgflg =>
      cases ms with
      | nil => simpa [fifoRun, fifoStep, deliveredOf, acceptedOf] using hrest
      | cons s rest => simpa [fifoRun, fifoStep, deliveredOf, acceptedOf] using hrest

/-- A whole run of calls is a run of the abstract queue. -/
theorem queueRun_fifo {msqid : Int} {i : Slot} (os : List QueueOp) :
    ∀ {t : MsgTable} {ms : List Sent}, Represents t msqid i ms → (∀ o ∈ os, o.Fits) →
      ∃ cs t', queueRun msqid t os = some (cs, t') ∧ cs.map Call.op = os ∧
        Represents t' msqid i (fifoRun ms os).2 ∧ (∀ k, k ≠ i → t'.queues k = t.queues k) ∧
        List.Forall₂ Call.Shows cs (fifoRun ms os).1 := by
  induction os with
  | nil =>
    intro t ms h _
    exact ⟨[], t, rfl, rfl, h, fun _ _ => rfl, .nil⟩
  | cons o os ih =>
    intro t ms h hfits
    obtain ⟨c, t₁, hcall, hop, h₁, hsame₁, hshow⟩ :=
      queueCall_fifo h o (hfits o List.mem_cons_self)
    obtain ⟨cs, t₂, hrun, hops, h₂, hsame₂, hshows⟩ :=
      ih h₁ (fun o' ho' => hfits o' (List.mem_cons_of_mem _ ho'))
    refine ⟨c :: cs, t₂, by simp [queueRun, hcall, hrun], by simp [hop, hops], h₂, ?_,
      .cons hshow hshows⟩
    intro k hk
    rw [hsame₂ k hk, hsame₁ k hk]

/-- Three bytes of text. -/
def note : UserMsg := ⟨7, fun k => if k = 0 then 104 else if k = 1 then 105 else 33⟩

/-- One queue, with one note waiting in the last slot of its ring. -/
def lastSlotTable : MsgTable where
  queues _ :=
    { key := 5, id := 1, messages := fun _ => ⟨note.mtype, storeText (fun _ => 0) note.mtext 3⟩
      head := 15, tail := 0, count := 1, pidCount := 0 }
  nextMsgqueueId := 2

end JarvOs.Ipc
