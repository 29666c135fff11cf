/-
# Message queues (`kernel/ipc/msg.c`)

All calls of `msg.c` are here; what the ring of a queue does is in `Ipc.Fifo` and `Ipc.Typed`, and this
module goes on to creation and lookup.

The 16-slot table of `msg.c` uses `id == 0` for "this slot is free".  Two functions can take a
slot: `alloc_msgqueue`, which gives it the next id, and `find_msgqueue`, which `sys_msgget` calls
and which fills in the key and leaves `id` at 0.  Nothing calls the first one.

So no queue ever gets an id.  Section 3 states the lookup law `sys_msgget` is there for
(`LookupLaw`) and proves that a history from `msg_init` obeys it exactly when it never asks for a
queue to be created (`lookup_law_iff_no_create`): the first `IPC_CREAT` call returns 0, which no
other call accepts as a queue.
-/
import JarvOs.Lib.Trace

namespace JarvOs.Ipc

/-! ## 1. The table -/

/-- `MSGQUEUE_MAX` slots, each with room for as many messages. -/
abbrev Slot := Fin 16

/-- `struct msg` -/
structure Msg where
  mtype : Int
  mtext : Fin 4096 → UInt8

/-- The text buffer of a slot, byte by byte. -/
def Msg.buffer (m : Msg) : List UInt8 := List.ofFn m.mtext

/-- `struct msg_queue`, without the unused `pid_list`. -/
structure MsgQueue where
  key : Nat
  id : Int
  messages : Slot → Msg
  head : Int
  tail : Int
  count : Int
  pidCount : Int

/-- `msgqueues` and `next_msgqueue_id` -/
structure MsgTable where
  queues : Slot → MsgQueue
  nextMsgqueueId : Int

/-- `msgqueues[i] = q` -/
def MsgTable.set (t : MsgTable) (i : Slot) (q : MsgQueue) : MsgTable :=
  { t with queues := Function.update t.queues i q }

/-- `IPC_CREAT`, octal 1000. -/
def ipcCreat : Nat := 0o1000

/-- `IPC_NOWAIT`, octal 4000. -/
def ipcNowait : Nat := 0o4000

def ipcRmid : Int := 0

def ipcSet : Int := 1

def ipcStat : Int := 2

/-- `msgflg & IPC_CREAT` -/
def Creates (msgflg : Nat) : Prop := msgflg &&& ipcCreat ≠ 0

instance (msgflg : Nat) : Decidable (Creates msgflg) := by unfold Creates; infer_instance

/-! ## 2. The functions -/

/-- `msg_init`: every slot free and empty; the message texts are left as they are. -/
def msgInit (t : MsgTable) : MsgTable where
  queues i := { t.queues i with id := 0, key := 0, head := 0, tail := 0, count := 0, pidCount := 0 }
  nextMsgqueueId := 1

/-- The loop of `alloc_msgqueue` over the remaining slots. -/
def allocLoop (t : MsgTable) : List Slot → Option Slot × MsgTable
  | [] => (none, t)
  | i :: is =>
    if (t.queues i).id = 0 then
      (some i, { t.set i { t.queues i with id := t.nextMsgqueueId } with
        nextMsgqueueId := t.nextMsgqueueId + 1 })
    else allocLoop t is

/-- `alloc_msgqueue`, which no function of the kernel calls. -/
def allocMsgqueue (t : MsgTable) : Option Slot × MsgTable := allocLoop t (List.finRange 16)

/-- `get_msgqueue`: the first slot with that id. -/
def getMsgqueue (t : MsgTable) (msqid : Int) : Option Slot :=
  if msqid ≤ 0 then none else (List.finRange 16).find? (fun i => (t.queues i).id = msqid)

/-- What the loop of `find_msgqueue` ends with: a queue with the key, or the first free slot seen
on the way (if any). -/
inductive FindResult
  | found (i : Slot)
  | absent (empty : Option Slot)

/-- The loop of `find_msgqueue` over the remaining slots. -/
def findLoop (t : MsgTable) (key : Nat) : List Slot → Option Slot → FindResult
  | [], empty => .absent empty
  | i :: is, empty =>
    if (t.queues i).id = 0 then findLoop t key is (if empty = none then some i else empty)
    else if (t.queues i).key = key then .found i
    else findLoop t key is empty

/-- `find_msgqueue`: it claims the free slot but gives it no id. -/
def findMsgqueue (t : MsgTable) (key msgflg : Nat) : Option Slot × MsgTable :=
  match findLoop t key (List.finRange 16) none with
  | .found i => (some i, t)
  | .absent none => (none, t)
  | .absent (some i) =>
    if Creates msgflg then
      (some i, t.set i { t.queues i with key := key, head := 0, tail := 0, count := 0, pidCount := 0 })
    else (none, t)

/-- `sys_msgget` -/
def sysMsgget (t : MsgTable) (key msgflg : Nat) : Int × MsgTable :=
  match findMsgqueue t key msgflg with
  | (none, t') => (-1, t')
  | (some i, t') => ((t'.queues i).id, t')

/-- `struct ipc_perm`, the fields `sys_msgctl` writes. -/
structure IpcPerm where
  uid : Nat
  gid : Nat
  cuid : Nat
  cgid : Nat
  mode : Nat
  seq : Nat

/-- `struct msqid_ds`, the fields `sys_msgctl` writes. -/
structure MsqidDs where
  msgPerm : IpcPerm
  msgStime : Int
  msgRtime : Int
  msgCtime : Int
  msgQnum : Int
  msgQbytes : Int

/-- `sys_msgctl`: the result, the table and what `*buf` holds afterwards. -/
def sysMsgctl (t : MsgTable) (msqid cmd : Int) (buf : Option MsqidDs) :
    Int × MsgTable × Option MsqidDs :=
  match getMsgqueue t msqid with
  | none => (-1, t, buf)
  | some i =>
    if cmd = ipcStat then
      match buf with
      | none => (-1, t, none)
      | some _ => (0, t, some
        { msgPerm := { uid := 0, gid := 0, cuid := 0, cgid := 0, mode := 0o666, seq := 0 },
          msgStime := 0, msgRtime := 0, msgCtime := 0,
          msgQnum := (t.queues i).count, msgQbytes := 16 * 4096 })
    else if cmd = ipcRmid then
      (0, t.set i { t.queues i with id := 0, key := 0, head := 0, tail := 0, count := 0, pidCount := 0 },
        buf)
    else (-1, t, buf)

/-- A message in the caller's memory: `mtype`, and the bytes from `mtext` on. -/
structure UserMsg where
  mtype : Int
  mtext : Nat → UInt8

/-- `messages[index]` exists only for an index in range. -/
def slotAt (index : Int) : Option Slot :=
  if h : 0 ≤ index ∧ index.toNat < 16 then some ⟨index.toNat, h.2⟩ else none

/-- `memcpy(mtext, src, msgsz)` and the terminator behind it, if it fits. -/
def storeText (mtext : Fin 4096 → UInt8) (src : Nat → UInt8) (msgsz : Nat) : Fin 4096 → UInt8 :=
  fun k => if k.val < msgsz then src k else if k.val = msgsz then 0 else mtext k

/-- The part of `sys_msgsnd` behind its checks: fill the slot at `tail`, advance. -/
def enqueue (q : MsgQueue) (j : Slot) (msgp : UserMsg) (msgsz : Nat) : MsgQueue :=
  { q with
    messages := Function.update q.messages j
      { mtype := msgp.mtype, mtext := storeText (q.messages j).mtext msgp.mtext msgsz }
    tail := (q.tail + 1).tmod 16
    count := q.count + 1 }

/-- `sys_msgsnd`: the result, the table and the interrupt flag.  Interrupts are off from the
first instruction on, and `sti` stands on the path to `return 0` only.  `none` is an access
outside of `messages`. -/
def sysMsgsnd (t : MsgTable) (msqid : Int) (msgp : UserMsg) (msgsz msgflg : Nat) :
    Option (Int × MsgTable × Bool) :=
  match getMsgqueue t msqid with
  | none => some (-1, t, false)
  | some i =>
    if 4096 < msgsz then some (-1, t, false)
    else if 16 ≤ (t.queues i).count then
      if msgflg &&& ipcNowait ≠ 0 then some (-1, t, false) else some (-1, t, false)
    else do
      let j ← slotAt (t.queues i).tail
      some (0, t.set i (enqueue (t.queues i) j msgp msgsz), true)

/-- The search loop of `sys_msgrcv` with `steps` rounds left: the index it stops at, or `none`
inside when no message has the type. -/
def searchLoop (q : MsgQueue) (msgtyp : Int) : Nat → Int → Option (Option Int)
  | 0, _ => some none
  | steps + 1, index => do
    let j ← slotAt index
    if msgtyp = 0 ∨ (q.messages j).mtype = msgtyp then some (some index)
    else searchLoop q msgtyp steps ((index + 1).tmod 16)

/-- The update of `sys_msgrcv` after the message at `index` was copied out. -/
def dequeue (q : MsgQueue) (index : Int) : MsgQueue :=
  if q.count - 1 = 0 then { q with count := q.count - 1, head := 0, tail := 0 }
  else { q with count := q.count - 1, head := (index + 1).tmod 16 }

/-- `sys_msgrcv`: the result, the table and the bytes copied to the caller's buffer.  The result
is `msgsz` converted to `int`, whatever was copied. -/
def sysMsgrcv (t : MsgTable) (msqid : Int) (msgsz : Nat) (msgtyp : Int) (msgflg : Nat) :
    Option (Int × MsgTable × List UInt8) :=
  match getMsgqueue t msqid with
  | none => some (-1, t, [])
  | some i =>
    if (t.queues i).count = 0 then
      if msgflg &&& ipcNowait ≠ 0 then some (-1, t, []) else some (-1, t, [])
    else do
      match ← searchLoop (t.queues i) msgtyp (t.queues i).count.toNat (t.queues i).head with
      | none => if msgflg &&& ipcNowait ≠ 0 then some (-1, t, []) else some (-1, t, [])
      | some index =>
        let j ← slotAt index
        let copyLen := if msgsz < 4096 then msgsz else 4096
        some ((msgsz : Int).bmod (2 ^ 32), t.set i (dequeue (t.queues i) index),
          ((t.queues i).messages j).buffer.take copyLen)

/-! ## 3. The lookup law -/

/-- The calls of a history. -/
inductive MsgOp
  | get (key msgflg : Nat)
  | ctl (msqid cmd : Int) (buf : Option MsqidDs)

/-- One call: its result and the table after it. -/
def msgCall (t : MsgTable) : MsgOp → Int × MsgTable
  | .get key msgflg => sysMsgget t key msgflg
  | .ctl msqid cmd buf => ((sysMsgctl t msqid cmd buf).1, (sysMsgctl t msqid cmd buf).2.1)

/-- A call as its caller saw it. -/
structure Event where
  op : MsgOp
  ret : Int
  post : MsgTable

/-- The events of a history. -/
def events : MsgTable → List MsgOp → List Event
  | _, [] => []
  | t, o :: os => ⟨o, (msgCall t o).1, (msgCall t o).2⟩ :: events (msgCall t o).2 os

/-- A successful creation returns a positive id under which the key is found. -/
def CreateFinds (es : List Event) : Prop :=
  ∀ e ∈ es, ∀ key msgflg, e.op = .get key msgflg → Creates msgflg → e.ret ≠ -1 →
    0 < e.ret ∧ ∃ i, getMsgqueue e.post e.ret = some i ∧ (e.post.queues i).key = key

/-- While the queue is not removed, every later call with its key returns its id. -/
def GetStable (es : List Event) : Prop :=
  ∀ (pre mid post : List Event) (e e' : Event) (key msgflg msgflg' : Nat),
    es = pre ++ e :: (mid ++ e' :: post) →
    e.op = .get key msgflg → Creates msgflg → e.ret ≠ -1 →
    (∀ m ∈ mid, ∀ buf, m.op = .ctl e.ret ipcRmid buf → m.ret ≠ 0) →
    e'.op = .get key msgflg' → e'.ret = e.ret

/-- Two queues obtained with different keys, the first not removed when the second is obtained,
have different ids. -/
def KeysSeparate (es : List Event) : Prop :=
  ∀ (pre mid post : List Event) (e e' : Event) (key key' msgflg msgflg' : Nat),
    es = pre ++ e :: (mid ++ e' :: post) →
    e.op = .get key msgflg → e.ret ≠ -1 → e'.op = .get key' msgflg' → e'.ret ≠ -1 → key ≠ key' →
    (∀ m ∈ mid, ∀ buf, m.op = .ctl e.ret ipcRmid buf → m.ret ≠ 0) → e'.ret ≠ e.ret

/-- **The lookup law** of a history. -/
def LookupLaw (es : List Event) : Prop := CreateFinds es ∧ GetStable es ∧ KeysSeparate es

/-! ## 4. No queue ever has an id -/

/-- The state every history from `msg_init` stays in: all slots count as free. -/
def NoIds (t : MsgTable) : Prop := ∀ i, (t.queues i).id = 0

theorem noIds_msgInit (t : MsgTable) : NoIds (msgInit t) := fun _ => rfl

theorem noIds_set {t : MsgTable} (h : NoIds t) (i : Slot) {q : MsgQueue} (hq : q.id = 0) :
    NoIds (t.set i q) := by
  intro j
  by_cases hj : j = i
  · subst hj; simp [MsgTable.set, hq]
  · simp [MsgTable.set, Function.update_of_ne hj, h j]

/-- No id is ever found. -/
theorem getMsgqueue_noIds {t : MsgTable} (h : NoIds t) (msqid : Int) : getMsgqueue t msqid = none := by
  unfold getMsgqueue
  split
  · rfl
  · rename_i hpos
    rw [List.find?_eq_none]
    intro i _
    simp only [h i, decide_eq_true_eq]
    omega

/-- The search passes every slot and remembers the first one. -/
theorem findLoop_noIds {t : MsgTable} (h : NoIds t) (key : Nat) : ∀ (is : List Slot) (e : Slot),
    findLoop t key is (some e) = .absent (some e)
  | [], _ => rfl
  | i :: is, e => by
    simp only [findLoop, h i, if_true]
    exact findLoop_noIds h key is e

/-- `find_msgqueue` hands out slot 0 if it may create, and nothing otherwise. -/
theorem findMsgqueue_noIds {t : MsgTable} (h : NoIds t) (key msgflg : Nat) :
    findMsgqueue t key msgflg =
      if Creates msgflg then
        (some 0, t.set 0 { t.queues 0 with key := key, head := 0, tail := 0, count := 0, pidCount := 0 })
      else (none, t) := by
  have hloop : findLoop t key (List.finRange 16) none = .absent (some 0) := by
    rw [List.finRange_succ]
    simp only [findLoop, h 0, if_true]
    exact findLoop_noIds h key _ _
  unfold findMsgqueue
  rw [hloop]

/-- **What every call does**: `sys_msgget` returns 0 when asked to create and -1 otherwise,
`sys_msgctl` always fails, and still no slot has an id. -/
theorem msgCall_noIds {t : MsgTable} (h : NoIds t) (o : MsgOp) :
    NoIds (msgCall t o).2 ∧
      ((∃ key msgflg, o = .get key msgflg ∧ Creates msgflg) → (msgCall t o).1 = 0) ∧
      (¬ (∃ key msgflg, o = .get key msgflg ∧ Creates msgflg) → (msgCall t o).1 = -1) := by
  cases o with
  | get key msgflg =>
    simp only [msgCall, sysMsgget, findMsgqueue_noIds h]
    by_cases hc : Creates msgflg
    · simp only [hc, if_true]
      refine ⟨noIds_set h 0 (h 0), fun _ => ?_, fun hn => absurd ⟨key, msgflg, rfl, hc⟩ hn⟩
      simp [MsgTable.set, h 0]
    · simp only [hc, if_false]
      refine ⟨h, ?_, fun _ => trivial⟩
      rintro ⟨key', msgflg', he, hc'⟩
      cases he
      exact absurd hc' hc
  | ctl msqid cmd buf =>
    simp only [msgCall, sysMsgctl, getMsgqueue_noIds h]
    refine ⟨h, ?_, fun _ => trivial⟩
    rintro ⟨key, msgflg, he, -⟩
    cases he

/-- An event of such a history came from a call of it, on a table without ids. -/
theorem events_noIds : ∀ (os : List MsgOp) (t : MsgTable), NoIds t → ∀ e ∈ events t os,
    e.op ∈ os ∧ NoIds e.post ∧
      ((∃ key msgflg, e.op = .get key msgflg ∧ Creates msgflg) → e.ret = 0) ∧
      (¬ (∃ key msgflg, e.op = .get key msgflg ∧ Creates msgflg) → e.ret = -1)
  | [], _, _, e, he => absurd he (by simp [events])
  | o :: os, t, h, e, he => by
    obtain ⟨hpost, hret⟩ := msgCall_noIds h o
    rcases List.mem_cons.mp he with rfl | he
    · exact ⟨List.mem_cons_self, hpost, hret⟩
    · obtain ⟨hmem, hrest⟩ := events_noIds os _ hpost e he
      exact ⟨List.mem_cons_of_mem _ hmem, hrest⟩

/-- Every call of a history has its event. -/
theorem exists_event {os : List MsgOp} {o : MsgOp} (ho : o ∈ os) (t : MsgTable) :
    ∃ e ∈ events t os, e.op = o := by
  induction os generalizing t with
  | nil => exact absurd ho (by simp)
  | cons o' os ih =>
    rcases List.mem_cons.mp ho with rfl | ho
    · exact ⟨_, List.mem_cons_self, rfl⟩
    · obtain ⟨e, he, heo⟩ := ih ho (msgCall t o').2
      exact ⟨e, List.mem_cons_of_mem _ he, heo⟩

/-- **Exactly when the lookup law holds**: over every history after `msg_init`, if and only if no
call asks for a queue to be created. -/
theorem lookup_law_iff_no_create (t : MsgTable) (os : List MsgOp) :
    LookupLaw (events (msgInit t) os) ↔
      ∀ key msgflg, MsgOp.get key msgflg ∈ os → ¬ Creates msgflg := by
  have hev := events_noIds os (msgInit t) (noIds_msgInit t)
  constructor
  · rintro ⟨hfinds, -, -⟩ key msgflg hmem hc
    obtain ⟨e, he, heo⟩ := exists_event hmem (msgInit t)
    have hret : e.ret = 0 := (hev e he).2.2.1 ⟨key, msgflg, heo, hc⟩
    have hpos := (hfinds e he key msgflg heo hc (by omega)).1
    omega
  · intro hnone
    -- without a creation every call fails, and the law speaks of successful calls only
    have hfail : ∀ e ∈ events (msgInit t) os, e.ret = -1 := by
      intro e he
      obtain ⟨hmem, -, -, hret⟩ := hev e he
      refine hret ?_
      rintro ⟨key, msgflg, heo, hc⟩
      exact hnone key msgflg (heo ▸ hmem) hc
    have hfst : ∀ {pre mid post : List Event} {e e' : Event},
        events (msgInit t) os = pre ++ e :: (mid ++ e' :: post) → e.ret = -1 := fun h =>
      hfail _ (by rw [h]; simp)
    refine ⟨?_, ?_, ?_⟩
    · intro e he key msgflg _ _ hne
      exact absurd (hfail e he) hne
    · intro pre mid post e e' key msgflg msgflg' h _ _ hne
      exact absurd (hfst h) hne
    · intro pre mid post e e' key key' msgflg msgflg' h _ hne
      exact absurd (hfst h) hne

/-- A single `sys_msgget(5, IPC_CREAT)` after `msg_init` breaks the law: it returns 0. -/
theorem msgget_create_returns_zero :
    ∃ t : MsgTable, (sysMsgget (msgInit t) 5 ipcCreat).1 = 0 ∧
      ¬ LookupLaw (events (msgInit t) [.get 5 ipcCreat]) := by
  have hc : Creates ipcCreat := by decide
  refine ⟨⟨fun _ => ⟨0, 0, fun _ => ⟨0, fun _ => 0⟩, 0, 0, 0, 0⟩, 1⟩, ?_, ?_⟩
  · exact (msgCall_noIds (noIds_msgInit _) (.get 5 ipcCreat)).2.1 ⟨5, ipcCreat, rfl, hc⟩
  · rintro ⟨hfinds, -⟩
    have hret := (msgCall_noIds (noIds_msgInit ⟨fun _ => ⟨0, 0, fun _ => ⟨0, fun _ => 0⟩, 0, 0, 0, 0⟩, 1⟩)
      (.get 5 ipcCreat)).2.1 ⟨5, ipcCreat, rfl, hc⟩
    have hpos := (hfinds _ List.mem_cons_self 5 ipcCreat rfl hc (by rw [hret]; decide)).1
    rw [hret] at hpos
    exact absurd hpos (by decide)

end JarvOs.Ipc
