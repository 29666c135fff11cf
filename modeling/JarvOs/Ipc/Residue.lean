/-
# What a receiver sees of earlier messages

`sys_msgsnd` copies `msgsz` bytes into a slot and puts a zero behind them.  The slot does not
record `msgsz`, and nothing clears it: not the receive that empties it, not `IPC_RMID`, not the
`find_msgqueue` that claims the queue again.  `sys_msgrcv` copies as many bytes as the RECEIVER
asked for.

A run here carries, next to the table, which send filled each slot last (`Tracked`).  Two histories
that end with a receive of the same message may differ in everything else, the tables they start
from included, and `Confined` says that the receiver cannot tell them apart.

* `Traced` is the invariant of one run: a slot is what its last send wrote, over some older text;
* `confined_iff`: the receiver is confined to the message exactly when it asks for at most one byte
  more than was sent (the zero), or the message leaves no room behind that zero;
* `secret_revealed`: eight bytes asked for, two sent, and the other six are someone else's.
-/
import JarvOs.Ipc.Fifo

namespace JarvOs.Ipc

open JarvOs.Lib

/-! ## 1. Histories, with the send each slot comes from -/

/-- The calls on the table. -/
inductive TableOp
  | get (key msgflg : Nat)
  | snd (msqid : Int) (msgp : UserMsg) (msgsz msgflg : Nat)
  | rcv (msqid : Int) (msgsz : Nat) (msgtyp : Int) (msgflg : Nat)
  | ctl (msqid cmd : Int) (buf : Option MsqidDs)

/-- The table, and for every slot the message and size of the send that filled it last, if the
history has one. -/
structure Tracked where
  table : MsgTable
  origin : Slot → Slot → Option (UserMsg × Nat)

/-- A history starts with a table whose slots are nobody's. -/
def Tracked.start (t : MsgTable) : Tracked := ⟨t, fun _ _ => none⟩

/-- The slot of `messages` a send to `msqid` would fill. -/
def sendSlot (t : MsgTable) (msqid : Int) : Option (Slot × Slot) := do
  let i ← getMsgqueue t msqid
  let j ← slotAt (t.queues i).tail
  some (i, j)

/-- The origins after a send that returned `r`. -/
def Tracked.record (s : Tracked) (msqid : Int) (msgp : UserMsg) (msgsz : Nat) (r : Int) :
    Slot → Slot → Option (UserMsg × Nat) :=
  match sendSlot s.table msqid with
  | none => s.origin
  | some (i, j) =>
    if r = 0 then Function.update s.origin i (Function.update (s.origin i) j (some (msgp, msgsz)))
    else s.origin

/-- One call. -/
def tableStep (s : Tracked) : TableOp → Option Tracked
  | .get key msgflg => some { s with table := (sysMsgget s.table key msgflg).2 }
  | .snd msqid msgp msgsz msgflg => do
    let (r, t, _) ← sysMsgsnd s.table msqid msgp msgsz msgflg
    some ⟨t, s.record msqid msgp msgsz r⟩
  | .rcv msqid msgsz msgtyp msgflg => do
    let (_, t, _) ← sysMsgrcv s.table msqid msgsz msgtyp msgflg
    some { s with table := t }
  | .ctl msqid cmd buf => some { s with table := (sysMsgctl s.table msqid cmd buf).2.1 }

/-! ## 2. What a call leaves in the slots -/

@[simp] theorem queues_set (t : MsgTable) (i : Slot) (q : MsgQueue) : (t.set i q).queues i = q :=
  Function.update_self ..

@[simp] theorem set_set (t : MsgTable) (i : Slot) (q q' : MsgQueue) :
    (t.set i q).set i q' = t.set i q' := by
  simp [MsgTable.set]

/-- The slots of every queue are as they were. -/
def SameSlots (t t' : MsgTable) : Prop := ∀ i, (t'.queues i).messages = (t.queues i).messages

theorem sameSlots_set {t : MsgTable} {i : Slot} {q : MsgQueue}
    (h : q.messages = (t.queues i).messages) : SameSlots t (t.set i q) := by
  intro k
  rcases eq_or_ne k i with rfl | hk
  · simpa [MsgTable.set] using h
  · simp [MsgTable.set, Function.update_of_ne hk]

theorem sameSlots_sysMsgget (t : MsgTable) (key msgflg : Nat) :
    SameSlots t (sysMsgget t key msgflg).2 := by
  have hfind : SameSlots t (findMsgqueue t key msgflg).2 := by
    unfold findMsgqueue
    split
    · exact fun _ => rfl
    · exact fun _ => rfl
    · split
      · exact sameSlots_set rfl
      · exact fun _ => rfl
  unfold sysMsgget
  split <;> rename_i heq <;> rw [heq] at hfind <;> exact hfind

theorem sameSlots_sysMsgctl (t : MsgTable) (msqid cmd : Int) (buf : Option MsqidDs) :
    SameSlots t (sysMsgctl t msqid cmd buf).2.1 := by
  unfold sysMsgctl
  split
  · exact fun _ => rfl
  · split
    · split <;> exact fun _ => rfl
    · split
      · exact sameSlots_set rfl
      · exact fun _ => rfl

theorem messages_dequeue (q : MsgQueue) (index : Int) : (dequeue q index).messages = q.messages := by
  unfold dequeue
  split <;> rfl

/-- The receive of `msqid` and `msgtyp` stops at slot `j` of queue `i`. -/
def Takes (t : MsgTable) (msqid msgtyp : Int) (i j : Slot) : Prop :=
  getMsgqueue t msqid = some i ∧ (t.queues i).count ≠ 0 ∧
    ∃ index, searchLoop (t.queues i) msgtyp (t.queues i).count.toNat (t.queues i).head =
        some (some index) ∧ slotAt index = some j

/-- The receive itself, when its search stops at `index`. -/
theorem sysMsgrcv_taken {t : MsgTable} {msqid msgtyp index : Int} {i j : Slot}
    (hget : getMsgqueue t msqid = some i) (hcount : (t.queues i).count ≠ 0)
    (hsearch : searchLoop (t.queues i) msgtyp (t.queues i).count.toNat (t.queues i).head =
      some (some index)) (hslot : slotAt index = some j) (msgsz msgflg : Nat) :
    sysMsgrcv t msqid msgsz msgtyp msgflg =
      some ((msgsz : Int).bmod (2 ^ 32), t.set i (dequeue (t.queues i) index),
        ((t.queues i).messages j).buffer.take (min msgsz 4096)) := by
  have hmin : (if msgsz < 4096 then msgsz else 4096) = min msgsz 4096 := by
    split <;> omega
  simp [sysMsgrcv, hget, hcount, hsearch, hslot, hmin]

theorem sameSlots_sysMsgrcv {t t' : MsgTable} {msqid msgtyp r : Int} {msgsz msgflg : Nat}
    {bytes : List UInt8} (h : sysMsgrcv t msqid msgsz msgtyp msgflg = some (r, t', bytes)) :
    SameSlots t t' := by
  have hfail : some (-1, t, []) = some (r, t', bytes) → SameSlots t t' := by
    intro heq
    cases heq
    exact fun _ => rfl
  unfold sysMsgrcv at h
  split at h
  · exact hfail h
  · split at h
    · exact hfail (by simpa using h)
    · obtain ⟨found, -, h⟩ := Option.bind_eq_some_iff.mp h
      cases found with
      | none => exact hfail (by simpa using h)
      | some index =>
        obtain ⟨j, -, h⟩ := Option.bind_eq_some_iff.mp h
        simp only [Option.some.injEq, Prod.mk.injEq] at h
        obtain ⟨-, rfl, -⟩ := h
        exact sameSlots_set (messages_dequeue _ _)

/-- **What a send does**: nothing, or it returns 0 with the message stored over whatever the slot
at `tail` held. -/
theorem sysMsgsnd_cases {t t' : MsgTable} {msqid r : Int} {msgp : UserMsg} {msgsz msgflg : Nat}
    {flag : Bool} (h : sysMsgsnd t msqid msgp msgsz msgflg = some (r, t', flag)) :
    (r = -1 ∧ t' = t) ∨
      ∃ i j, sendSlot t msqid = some (i, j) ∧ msgsz ≤ 4096 ∧ r = 0 ∧
        t' = t.set i (enqueue (t.queues i) j msgp msgsz) := by
  unfold sysMsgsnd at h
  split at h
  · cases h
    exact .inl ⟨rfl, rfl⟩
  · rename_i i hget
    split at h
    · cases h
      exact .inl ⟨rfl, rfl⟩
    · split at h
      · have h : some (-1, t, false) = some (r, t', flag) := by simpa using h
        cases h
        exact .inl ⟨rfl, rfl⟩
      · rename_i hsz _
        obtain ⟨j, hslot, h⟩ := Option.bind_eq_some_iff.mp h
        cases h
        exact .inr ⟨i, j, by simp [sendSlot, hget, hslot], Nat.le_of_not_lt hsz, rfl, rfl⟩

/-! ## 3. One run -/

/-- A slot with an origin holds that message, stored over some older text. -/
def Traced (s : Tracked) : Prop :=
  ∀ i j msgp msgsz, s.origin i j = some (msgp, msgsz) → msgsz ≤ 4096 ∧
    ∃ old, (s.table.queues i).messages j = ⟨msgp.mtype, storeText old msgp.mtext msgsz⟩

theorem traced_start (t : MsgTable) : Traced (.start t) := by
  intro i j msgp msgsz h
  cases h

theorem Traced.of_sameSlots {s : Tracked} (h : Traced s) {t : MsgTable}
    (ht : SameSlots s.table t) : Traced { s with table := t } := by
  intro i j msgp msgsz ho
  obtain ⟨hle, old, hold⟩ := h i j msgp msgsz ho
  exact ⟨hle, old, by rw [ht i]; exact hold⟩

/-- The send fills the slot it records; every other slot and its origin stay. -/
theorem Traced.send {s : Tracked} (h : Traced s) {msqid : Int} {i j : Slot}
    (hslot : sendSlot s.table msqid = some (i, j)) {msgsz : Nat} (hsz : msgsz ≤ 4096)
    (msgp : UserMsg) :
    Traced ⟨s.table.set i (enqueue (s.table.queues i) j msgp msgsz), s.record msqid msgp msgsz 0⟩ := by
  intro k l msgp' msgsz' ho
  simp only [Tracked.record, hslot, if_true] at ho
  rcases eq_or_ne k i with rfl | hk
  · rw [Function.update_self] at ho
    rcases eq_or_ne l j with rfl | hl
    · rw [Function.update_self] at ho
      cases ho
      exact ⟨hsz, ((s.table.queues k).messages l).mtext, by simp [MsgTable.set, enqueue]⟩
    · rw [Function.update_of_ne hl] at ho
      obtain ⟨hle, old, hold⟩ := h k l msgp' msgsz' ho
      exact ⟨hle, old, by simp [MsgTable.set, enqueue, Function.update_of_ne hl, hold]⟩
  · rw [Function.update_of_ne hk] at ho
    obtain ⟨hle, old, hold⟩ := h k l msgp' msgsz' ho
    exact ⟨hle, old, by simp [MsgTable.set, Function.update_of_ne hk, hold]⟩

theorem Traced.step {s s' : Tracked} (h : Traced s) {o : TableOp} (hs : tableStep s o = some s') :
    Traced s' := by
  cases o with
  | get key msgflg =>
    cases hs
    exact h.of_sameSlots (sameSlots_sysMsgget s.table key msgflg)
  | snd msqid msgp msgsz msgflg =>
    obtain ⟨⟨r, t, flag⟩, hsnd, hs⟩ := Option.bind_eq_some_iff.mp hs
    cases hs
    rcases sysMsgsnd_cases hsnd with ⟨rfl, rfl⟩ | ⟨i, j, hslot, hsz, rfl, rfl⟩
    · have hrec : s.record msqid msgp msgsz (-1) = s.origin := by
        unfold Tracked.record
        split <;> rfl
      rw [hrec]
      exact h
    · exact h.send hslot hsz msgp
  | rcv msqid msgsz msgtyp msgflg =>
    obtain ⟨⟨r, t, bytes⟩, hrcv, hs⟩ := Option.bind_eq_some_iff.mp hs
    cases hs
    exact h.of_sameSlots (sameSlots_sysMsgrcv hrcv)
  | ctl msqid cmd buf =>
    cases hs
    exact h.of_sameSlots (sameSlots_sysMsgctl s.table msqid cmd buf)

/-- **Every history**: each slot with an origin is what that send wrote. -/
theorem traced_run {t : MsgTable} {os : List TableOp} {s : Tracked}
    (h : run tableStep (.start t) os = some s) : Traced s :=
  run_inv (fun _ _ _ hs hstep => hs.step hstep) os _ _ (traced_start t) h

/-! ## 4. Two runs -/

/-- After the history `os` from the table `t`, a receive of `msgsz` bytes takes the message `msgp`
sent with size `sent`: it returns `r` and writes `bytes`. -/
def Delivers (t : MsgTable) (os : List TableOp) (msgp : UserMsg) (sent msgsz : Nat)
    (r : Int) (bytes : List UInt8) : Prop :=
  ∃ s, run tableStep (.start t) os = some s ∧
    ∃ msqid msgtyp msgflg i j, Takes s.table msqid msgtyp i j ∧ s.origin i j = some (msgp, sent) ∧
      ∃ t', sysMsgrcv s.table msqid msgsz msgtyp msgflg = some (r, t', bytes)

/-- The same message, as far as a send of `sent` bytes reads it. -/
def SameMessage (sent : Nat) (msgp msgp' : UserMsg) : Prop :=
  msgp'.mtype = msgp.mtype ∧ ∀ k < sent, msgp'.mtext k = msgp.mtext k

/-- **The receiver is confined to the message**: whatever the two histories were, a receive of
`msgsz` bytes that takes it returns the same value and writes the same bytes. -/
def Confined (msgp : UserMsg) (sent msgsz : Nat) : Prop :=
  ∀ (t t' : MsgTable) (os os' : List TableOp) (msgp' : UserMsg) (r r' : Int)
    (bytes bytes' : List UInt8), SameMessage sent msgp msgp' →
    Delivers t os msgp sent msgsz r bytes → Delivers t' os' msgp' sent msgsz r' bytes' →
    r = r' ∧ bytes = bytes'

/-- What a delivery shows: the size asked for, and the stored text over some older one. -/
theorem Delivers.shows {t : MsgTable} {os : List TableOp} {msgp : UserMsg} {sent msgsz : Nat}
    {r : Int} {bytes : List UInt8} (h : Delivers t os msgp sent msgsz r bytes) :
    sent ≤ 4096 ∧ r = (msgsz : Int).bmod (2 ^ 32) ∧ ∃ old,
      bytes = (Msg.buffer ⟨msgp.mtype, storeText old msgp.mtext sent⟩).take (min msgsz 4096) := by
  obtain ⟨s, hrun, msqid, msgtyp, msgflg, i, j, htakes, horigin, t', hrcv⟩ := h
  obtain ⟨hle, old, hold⟩ := traced_run hrun i j msgp sent horigin
  obtain ⟨hget, hcount, index, hsearch, hslot⟩ := htakes
  rw [sysMsgrcv_taken hget hcount hsearch hslot] at hrcv
  simp only [Option.some.injEq, Prod.mk.injEq] at hrcv
  obtain ⟨rfl, -, rfl⟩ := hrcv
  exact ⟨hle, rfl, old, by rw [hold]⟩

/-- The bytes up to the zero do not depend on the older text. -/
theorem storeText_eq {sent : Nat} {msgp msgp' : UserMsg} (h : SameMessage sent msgp msgp')
    (old old' : Fin 4096 → UInt8) {k : Fin 4096} (hk : k.val ≤ sent) :
    storeText old msgp.mtext sent k = storeText old' msgp'.mtext sent k := by
  rcases Nat.lt_or_eq_of_le hk with hlt | heq
  · simp [storeText, hlt, h.2 k hlt]
  · simp [storeText, heq]

/-- One queue, with id 1 and empty. -/
def oneQueue : MsgTable where
  queues _ :=
    { key := 5, id := 1, messages := fun _ => ⟨0, fun _ => 0⟩
      head := 0, tail := 0, count := 0, pidCount := 0 }
  nextMsgqueueId := 2

/-- A message of 4096 bytes `x`, which nobody but its receiver should see. -/
def secret (x : UInt8) : UserMsg := ⟨1, fun _ => x⟩

/-- The secret is sent and received, then `sent` bytes of `msgp` are sent. -/
def secretFirst (x : UInt8) (msgp : UserMsg) (sent : Nat) : List TableOp :=
  [.snd 1 (secret x) 4096 0, .rcv 1 4096 0 0, .snd 1 msgp sent 0]

/-- The queue after that. -/
def reused (x : UInt8) (msgp : UserMsg) (sent : Nat) : MsgQueue :=
  enqueue (dequeue (enqueue (oneQueue.queues 0) 0 (secret x) 4096) 0) 0 msgp sent

theorem messages_reused (x : UInt8) (msgp : UserMsg) (sent : Nat) :
    (reused x msgp sent).messages 0 = ⟨msgp.mtype, storeText (fun _ => x) msgp.mtext sent⟩ := by
  have hold : storeText (fun _ => 0) (secret x).mtext 4096 = fun _ => x := by
    funext k
    simp [storeText, secret, k.isLt]
  simp [reused, enqueue, messages_dequeue, oneQueue, hold]

/-- While the first queue of the table goes through `q`, it is found under its id. -/
theorem getMsgqueue_oneQueue {q : MsgQueue} (hid : q.id = 1) :
    getMsgqueue (oneQueue.set 0 q) 1 = some 0 :=
  (getMsgqueue_set hid 1).trans (by decide)

/-- A send to the empty queue fills its first slot. -/
theorem tableStep_snd_oneQueue {q : MsgQueue} (hid : q.id = 1) (hcount : q.count = 0)
    (htail : q.tail = 0) (origin : Slot → Slot → Option (UserMsg × Nat)) (msgp : UserMsg)
    {msgsz : Nat} (hsz : msgsz ≤ 4096) :
    tableStep ⟨oneQueue.set 0 q, origin⟩ (.snd 1 msgp msgsz 0) =
      some ⟨oneQueue.set 0 (enqueue q 0 msgp msgsz),
        Function.update origin 0 (Function.update (origin 0) 0 (some (msgp, msgsz)))⟩ := by
  have hslot : slotAt 0 = some 0 := rfl
  simp [tableStep, sysMsgsnd, Tracked.record, sendSlot, getMsgqueue_oneQueue hid, hcount, htail,
    hslot, Nat.not_lt.mpr hsz]

/-- An untyped receive stops at the first slot, once there is a message in it. -/
theorem searchLoop_oneQueue {q : MsgQueue} (hcount : q.count = 1) (hhead : q.head = 0) :
    searchLoop q 0 q.count.toNat q.head = some (some 0) := by
  rw [hcount, hhead]
  exact searchLoop_untyped q (by decide) (by decide) (by decide)

theorem tableStep_rcv_oneQueue {q : MsgQueue} (hid : q.id = 1) (hcount : q.count = 1)
    (hhead : q.head = 0) (origin : Slot → Slot → Option (UserMsg × Nat)) :
    tableStep ⟨oneQueue.set 0 q, origin⟩ (.rcv 1 4096 0 0) =
      some ⟨oneQueue.set 0 (dequeue q 0), origin⟩ := by
  have hrcv := sysMsgrcv_taken (t := oneQueue.set 0 q) (j := 0) (getMsgqueue_oneQueue hid)
    (by simp [hcount]) (by simpa using searchLoop_oneQueue hcount hhead) rfl 4096 0
  simp [tableStep, hrcv]

theorem run_secretFirst (x : UInt8) (msgp : UserMsg) {sent : Nat} (hsent : sent ≤ 4096) :
    ∃ origin, run tableStep (.start oneQueue) (secretFirst x msgp sent) =
        some ⟨oneQueue.set 0 (reused x msgp sent), origin⟩ ∧ origin 0 0 = some (msgp, sent) := by
  have hstart : Tracked.start oneQueue = ⟨oneQueue.set 0 (oneQueue.queues 0), fun _ _ => none⟩ := by
    simp [Tracked.start, MsgTable.set]
  have hsecret := tableStep_snd_oneQueue (q := oneQueue.queues 0) rfl rfl rfl (fun _ _ => none)
    (secret x) (Nat.le_refl 4096)
  rw [hstart]
  exact ⟨_, run_cons_eq_some.mpr ⟨_, hsecret, run_cons_eq_some.mpr ⟨_,
    tableStep_rcv_oneQueue rfl rfl rfl _, run_cons_eq_some.mpr ⟨_,
    tableStep_snd_oneQueue rfl rfl rfl _ msgp hsent, rfl⟩⟩⟩, by simp⟩

/-- **The slot is reused**: the message lies over the secret, and the next receive takes it. -/
theorem delivers_secretFirst (x : UInt8) (msgp : UserMsg) {sent : Nat} (hsent : sent ≤ 4096)
    (msgsz : Nat) :
    Delivers oneQueue (secretFirst x msgp sent) msgp sent msgsz ((msgsz : Int).bmod (2 ^ 32))
      ((Msg.buffer ⟨msgp.mtype, storeText (fun _ => x) msgp.mtext sent⟩).take (min msgsz 4096)) := by
  obtain ⟨origin, hrun, horigin⟩ := run_secretFirst x msgp hsent
  have hget : getMsgqueue (oneQueue.set 0 (reused x msgp sent)) 1 = some 0 := getMsgqueue_oneQueue rfl
  have hcount : ((oneQueue.set 0 (reused x msgp sent)).queues 0).count ≠ 0 := by
    rw [queues_set]
    exact Int.one_ne_zero
  have hsearch := searchLoop_oneQueue (q := reused x msgp sent) rfl rfl
  rw [← queues_set oneQueue 0 (reused x msgp sent)] at hsearch
  have hrcv := sysMsgrcv_taken (j := 0) hget hcount hsearch rfl msgsz 0
  rw [queues_set, messages_reused] at hrcv
  exact ⟨_, hrun, 1, 0, 0, 0, 0, ⟨hget, hcount, 0, hsearch, rfl⟩, horigin, _, hrcv⟩

/-- A byte the receiver gets. -/
theorem getElem?_take_buffer (m : Msg) {n k : Nat} (hk : k < n) (hlt : k < 4096) :
    (m.buffer.take n)[k]? = some (m.mtext ⟨k, hlt⟩) := by
  rw [List.getElem?_take_of_lt hk, List.getElem?_eq_getElem (by simpa using hlt), getElem_buffer]

/-- **Exactly when nothing else is revealed.** -/
theorem confined_iff (msgp : UserMsg) (sent msgsz : Nat) :
    Confined msgp sent msgsz ↔ msgsz ≤ sent + 1 ∨ 4095 ≤ sent := by
  constructor
  · intro h
    by_contra! hnot
    obtain ⟨hlong, hroom⟩ := hnot
    have hle : sent ≤ 4096 := by omega
    obtain ⟨-, hbytes⟩ := h _ _ _ _ msgp _ _ _ _ ⟨rfl, fun _ _ => rfl⟩
      (delivers_secretFirst 0 msgp hle msgsz) (delivers_secretFirst 1 msgp hle msgsz)
    -- the byte behind the zero is the first one a secret shows through
    have hin : sent + 1 < min msgsz 4096 := by omega
    have hlt : sent + 1 < 4096 := by omega
    have hbyte := congrArg (fun l : List UInt8 => l[sent + 1]?) hbytes
    simp only [getElem?_take_buffer _ hin hlt] at hbyte
    simp [storeText] at hbyte
  · intro hwhen t t' os os' msgp' r r' bytes bytes' hsame hd hd'
    obtain ⟨hle, hr, old, hbytes⟩ := hd.shows
    obtain ⟨-, hr', old', hbytes'⟩ := hd'.shows
    refine ⟨hr.trans hr'.symm, ?_⟩
    rw [hbytes, hbytes']
    refine List.ext_getElem (by simp only [List.length_take, length_buffer]) ?_
    intro k hk hk'
    have hk : k < min msgsz 4096 := by
      rw [List.length_take, length_buffer] at hk
      omega
    simp only [List.getElem_take, getElem_buffer]
    exact storeText_eq hsame old old' (show k ≤ sent by omega)

/-- **Two bytes sent, eight asked for**: behind the zero the receiver reads the secret. -/
theorem secret_revealed : ¬ Confined note 2 8 ∧
    ∃ bytes bytes', Delivers oneQueue (secretFirst 65 note 2) note 2 8 8 bytes ∧
      Delivers oneQueue (secretFirst 66 note 2) note 2 8 8 bytes' ∧
      bytes[3]? = some 65 ∧ bytes'[3]? = some 66 := by
  have h65 := delivers_secretFirst 65 note (show 2 ≤ 4096 by decide) 8
  have h66 := delivers_secretFirst 66 note (show 2 ≤ 4096 by decide) 8
  have hbyte : ∀ x, ((Msg.buffer ⟨note.mtype, storeText (fun _ => x) note.mtext 2⟩).take
      (min 8 4096))[3]? = some x := by
    intro x
    exact getElem?_take_buffer _ (by decide) (by decide)
  refine ⟨?_, _, _, h65, h66, hbyte 65, hbyte 66⟩
  intro h
  have hsame := (h _ _ _ _ note _ _ _ _ ⟨rfl, fun _ _ => rfl⟩ h65 h66).2
  have heq := (hbyte 65).symm.trans ((congrArg (·[3]?) hsame).trans (hbyte 66))
  exact absurd heq (by decide)

end JarvOs.Ipc
