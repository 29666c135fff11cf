/-
# What a call that fails leaves behind

A caller of `sys_msgsnd`, `sys_msgrcv` or `sys_msgctl` that gets -1 should find the queues and IF as
they were, and IF should be as it was after a call that succeeds, too.  `sys_msgctl` is such a call.
The other two are not:

* `sys_msgsnd` executes `cli` FIRST and has `sti` on the path to `return 0` only.  IF afterwards does not
  depend on IF before: a send that fails leaves it clear, a send that succeeds leaves it set.
* `sys_msgrcv` returns `msgsz`.  A receive of 2^32 - 1 bytes takes its message off the queue and then
  returns the number that means failure.

`clean_iff` says exactly which calls leave no trace, over all tables and both values of IF.  A table need
not be one the kernel can reach; a call that would use an index outside of `messages` does not return.
-/
import JarvOs.Ipc.Residue

namespace JarvOs.Ipc

open JarvOs.Lib

/-! ## 1. Calls and the interrupt flag -/

/-- The calls on an existing queue. -/
inductive IpcOp
  | snd (msqid : Int) (msgp : UserMsg) (msgsz msgflg : Nat)
  | rcv (msqid : Int) (msgsz : Nat) (msgtyp : Int) (msgflg : Nat)
  | ctl (msqid cmd : Int) (buf : Option MsqidDs)

/-- What a caller finds when a call has returned. -/
structure Returned where
  ret : Int
  table : MsgTable
  ifl : Bool

/-- A call made with IF at `ifl`.  `sys_msgsnd` sets the flag itself, the other two do not touch it. -/
def ipcCall (t : MsgTable) (ifl : Bool) : IpcOp → Option Returned
  | .snd msqid msgp msgsz msgflg =>
    (sysMsgsnd t msqid msgp msgsz msgflg).map (fun r => ⟨r.1, r.2.1, r.2.2⟩)
  | .rcv msqid msgsz msgtyp msgflg =>
    (sysMsgrcv t msqid msgsz msgtyp msgflg).map (fun r => ⟨r.1, r.2.1, ifl⟩)
  | .ctl msqid cmd buf =>
    let r := sysMsgctl t msqid cmd buf
    some ⟨r.1, r.2.1, ifl⟩

/-- **The call leaves no trace it should not**: if it returns -1, the queues and IF are as before, and
otherwise IF is. -/
def Clean (t : MsgTable) (ifl : Bool) (op : IpcOp) : Prop :=
  ∀ r, ipcCall t ifl op = some r →
    (r.ret = -1 → r.table = t ∧ r.ifl = ifl) ∧ (r.ret ≠ -1 → r.ifl = ifl)

/-! ## 2. Sends -/

section Send

variable {t : MsgTable} {msqid : Int} {msgsz : Nat}

/-- There is no such queue, the message is too long, or the queue is full. -/
def Refuses (t : MsgTable) (msqid : Int) (msgsz : Nat) : Prop :=
  ∀ i, getMsgqueue t msqid = some i → 4096 < msgsz ∨ 16 ≤ (t.queues i).count

/-- There is a queue with room, and the message fits. -/
def Accepts (t : MsgTable) (msqid : Int) (msgsz : Nat) : Prop :=
  ∃ i j, sendSlot t msqid = some (i, j) ∧ msgsz ≤ 4096 ∧ (t.queues i).count < 16

/-- A refused send returns behind its `cli`. -/
theorem sysMsgsnd_refused (h : Refuses t msqid msgsz) (msgp : UserMsg) (msgflg : Nat) :
    sysMsgsnd t msqid msgp msgsz msgflg = some (-1, t, false) := by
  unfold sysMsgsnd
  cases hget : getMsgqueue t msqid with
  | none => rfl
  | some i =>
    rcases h i hget with hbig | hfull
    · simp only [if_pos hbig]
    · simp only [if_pos hfull, ite_self]

theorem sysMsgsnd_accepted (h : Accepts t msqid msgsz) (msgp : UserMsg) (msgflg : Nat) :
    ∃ t', sysMsgsnd t msqid msgp msgsz msgflg = some (0, t', true) := by
  obtain ⟨i, j, hslot, hsz, hroom⟩ := h
  obtain ⟨i', hget, hslot⟩ := Option.bind_eq_some_iff.mp hslot
  obtain ⟨j', htail, heq⟩ := Option.bind_eq_some_iff.mp hslot
  obtain ⟨rfl, rfl⟩ := Prod.mk.inj (Option.some.inj heq)
  refine ⟨t.set i' (enqueue (t.queues i') j' msgp msgsz), ?_⟩
  simp only [sysMsgsnd, hget, if_neg (Nat.not_lt.mpr hsz), if_neg (Int.not_le.mpr hroom), htail,
    Option.bind_eq_bind, Option.bind_some]

/-- A send that returns was refused or accepted. -/
theorem refuses_or_accepts {msgp : UserMsg} {msgflg : Nat} {r : Int × MsgTable × Bool}
    (h : sysMsgsnd t msqid msgp msgsz msgflg = some r) :
    Refuses t msqid msgsz ∨ Accepts t msqid msgsz := by
  by_cases hr : Refuses t msqid msgsz
  · exact Or.inl hr
  · right
    simp only [Refuses, not_forall, not_or, Nat.not_lt, Int.not_le] at hr
    obtain ⟨i, hget, hsz, hroom⟩ := hr
    simp only [sysMsgsnd, hget, if_neg (Nat.not_lt.mpr hsz), if_neg (Int.not_le.mpr hroom)] at h
    obtain ⟨j, htail, -⟩ := Option.bind_eq_some_iff.mp h
    exact ⟨i, j, by simp [sendSlot, hget, htail], hsz, hroom⟩

/-- **A send is clean** exactly when IF is as the send leaves it: clear if it is refused, set if it is
accepted. -/
theorem clean_snd_iff (ifl : Bool) (msgp : UserMsg) (msgflg : Nat) :
    Clean t ifl (.snd msqid msgp msgsz msgflg) ↔
      (Refuses t msqid msgsz → ifl = false) ∧ (Accepts t msqid msgsz → ifl = true) := by
  constructor
  · intro hclean
    refine ⟨fun href => ?_, fun hacc => ?_⟩
    · obtain ⟨hfail, -⟩ := hclean ⟨-1, t, false⟩ (by
        rw [ipcCall, sysMsgsnd_refused href msgp msgflg, Option.map_some])
      exact (hfail rfl).2.symm
    · obtain ⟨t', hsnd⟩ := sysMsgsnd_accepted hacc msgp msgflg
      obtain ⟨-, hok⟩ := hclean ⟨0, t', true⟩ (by rw [ipcCall, hsnd, Option.map_some])
      exact (hok (show (0 : Int) ≠ -1 by decide)).symm
  · rintro ⟨href, hacc⟩ r hr
    obtain ⟨x, hsnd, rfl⟩ := Option.map_eq_some_iff.mp hr
    rcases refuses_or_accepts hsnd with h | h
    · rw [sysMsgsnd_refused h] at hsnd
      obtain rfl := Option.some.inj hsnd
      exact ⟨fun _ => ⟨rfl, (href h).symm⟩, fun _ => (href h).symm⟩
    · obtain ⟨t', heq⟩ := sysMsgsnd_accepted h msgp msgflg
      rw [heq] at hsnd
      obtain rfl := Option.some.inj hsnd
      exact ⟨fun hret => absurd hret (show (0 : Int) ≠ -1 by decide), fun _ => (hacc h).symm⟩

end Send

/-! ## 3. Receives -/

section Receive

variable {t : MsgTable} {msqid msgtyp : Int}

/-- A receive takes a message, or returns -1 with everything as it was. -/
theorem sysMsgrcv_cases {msgsz msgflg : Nat} {r : Int × MsgTable × List UInt8}
    (h : sysMsgrcv t msqid msgsz msgtyp msgflg = some r) :
    (∃ i j, Takes t msqid msgtyp i j) ∨ r = (-1, t, []) := by
  unfold sysMsgrcv at h
  cases hget : getMsgqueue t msqid with
  | none =>
    rw [hget] at h
    exact Or.inr (Option.some.inj h).symm
  | some i =>
    simp only [hget] at h
    by_cases hcount : (t.queues i).count = 0
    · rw [if_pos hcount, ite_self] at h
      exact Or.inr (Option.some.inj h).symm
    · rw [if_neg hcount] at h
      obtain ⟨found, hsearch, h⟩ := Option.bind_eq_some_iff.mp h
      cases found with
      | none =>
        simp only [ite_self, Option.some.injEq] at h
        exact Or.inr h.symm
      | some index =>
        obtain ⟨j, hslot, -⟩ := Option.bind_eq_some_iff.mp h
        exact Or.inl ⟨i, j, hget, hcount, index, hsearch, hslot⟩

/-- A queue a message was taken from is not the queue it was. -/
theorem set_dequeue_ne (t : MsgTable) (i : Slot) (index : Int) :
    t.set i (dequeue (t.queues i) index) ≠ t := by
  intro heq
  have hcount := congrArg (fun t => (t.queues i).count) heq
  simp only [queues_set, dequeue] at hcount
  split at hcount
  · simp only at hcount
    omega
  · simp only at hcount
    omega

/-- `msgsz` converted to `int` is -1 for one size only. -/
theorem bmod_eq_neg_one (msgsz : Nat) :
    (msgsz : Int).bmod (2 ^ 32) = -1 ↔ msgsz % 2 ^ 32 = 0xFFFFFFFF := by
  rw [Int.bmod_def]
  split <;> omega

/-- **A receive is clean** unless it takes a message and was asked for 2^32 - 1 bytes. -/
theorem clean_rcv_iff (ifl : Bool) (msgsz msgflg : Nat) :
    Clean t ifl (.rcv msqid msgsz msgtyp msgflg) ↔
      (msgsz % 2 ^ 32 = 0xFFFFFFFF → ∀ i j, ¬ Takes t msqid msgtyp i j) := by
  constructor
  · rintro hclean hsz i j ⟨hget, hcount, index, hsearch, hslot⟩
    have hrcv := sysMsgrcv_taken hget hcount hsearch hslot msgsz msgflg
    obtain ⟨hfail, -⟩ := hclean
      ⟨(msgsz : Int).bmod (2 ^ 32), t.set i (dequeue (t.queues i) index), ifl⟩ (by
        rw [ipcCall, hrcv, Option.map_some])
    simp only [bmod_eq_neg_one, hsz, forall_const] at hfail
    exact set_dequeue_ne t i index hfail.1
  · intro hnone r hr
    obtain ⟨x, hrcv, rfl⟩ := Option.map_eq_some_iff.mp hr
    rcases sysMsgrcv_cases hrcv with ⟨i, j, htakes⟩ | rfl
    · obtain ⟨hget, hcount, index, hsearch, hslot⟩ := id htakes
      rw [sysMsgrcv_taken hget hcount hsearch hslot] at hrcv
      obtain rfl := Option.some.inj hrcv
      refine ⟨fun hret => ?_, fun _ => rfl⟩
      simp only at hret
      exact absurd htakes (hnone ((bmod_eq_neg_one msgsz).mp hret) i j)
    · exact ⟨fun _ => ⟨rfl, rfl⟩, fun _ => rfl⟩

end Receive

/-! ## 4. All calls -/

/-- `sys_msgctl` changes the table only where it returns 0. -/
theorem clean_ctl (t : MsgTable) (ifl : Bool) (msqid cmd : Int) (buf : Option MsqidDs) :
    Clean t ifl (.ctl msqid cmd buf) := by
  have hfail : (sysMsgctl t msqid cmd buf).1 = -1 → (sysMsgctl t msqid cmd buf).2.1 = t := by
    unfold sysMsgctl
    split
    · exact fun _ => rfl
    · split
      · split <;> exact fun _ => rfl
      · split
        · exact fun hret => absurd hret (show (0 : Int) ≠ -1 by decide)
        · exact fun _ => rfl
  intro r hr
  obtain rfl := Option.some.inj hr
  exact ⟨fun hret => ⟨hfail hret, rfl⟩, fun _ => rfl⟩

/-- When a call leaves no trace it should not. -/
def LeavesNoTrace (t : MsgTable) (ifl : Bool) : IpcOp → Prop
  | .snd msqid _ msgsz _ =>
    (Refuses t msqid msgsz → ifl = false) ∧ (Accepts t msqid msgsz → ifl = true)
  | .rcv msqid msgsz msgtyp _ =>
    msgsz % 2 ^ 32 = 0xFFFFFFFF → ∀ i j, ¬ Takes t msqid msgtyp i j
  | .ctl .. => True

/-- **Exactly which calls are clean**, for every table, every value of IF and all arguments: every
`sys_msgctl`; a `sys_msgrcv` unless it takes a message into 2^32 - 1 bytes; a `sys_msgsnd` that is refused
with IF clear or accepted with IF set. -/
theorem clean_iff (t : MsgTable) (ifl : Bool) (op : IpcOp) : Clean t ifl op ↔ LeavesNoTrace t ifl op := by
  cases op with
  | snd msqid msgp msgsz msgflg => exact clean_snd_iff ifl msgp msgflg
  | rcv msqid msgsz msgtyp msgflg => exact clean_rcv_iff ifl msgsz msgflg
  | ctl msqid cmd buf => exact iff_of_true (clean_ctl t ifl msqid cmd buf) trivial

/-- **A send to a queue that does not exist turns interrupts off**, and a send that succeeds turns them
on. -/
theorem send_changes_flag :
    (ipcCall oneQueue true (.snd 9 (secret 65) 2 0)).map (fun r => (r.ret, r.ifl)) =
        some (-1, false) ∧
      ¬ Clean oneQueue true (.snd 9 (secret 65) 2 0) ∧
      (ipcCall oneQueue false (.snd 1 (secret 65) 2 0)).map (fun r => (r.ret, r.ifl)) =
        some (0, true) ∧
      ¬ Clean oneQueue false (.snd 1 (secret 65) 2 0) := by
  have href : Refuses oneQueue 9 2 := by
    have hnone : getMsgqueue oneQueue 9 = none := by decide
    intro i hget
    exact absurd (hnone.symm.trans hget) (by simp)
  have hacc : Accepts oneQueue 1 2 := ⟨0, 0, by decide, by decide, by decide⟩
  refine ⟨by decide, fun h => ?_, by decide, fun h => ?_⟩
  · exact absurd ((clean_snd_iff _ _ _).mp h).1 (by simp [href])
  · exact absurd ((clean_snd_iff _ _ _).mp h).2 (by simp [hacc])

/-- The table of `oneQueue` with a message in it. -/
def oneMessage : MsgTable := oneQueue.set 0 (enqueue (oneQueue.queues 0) 0 (secret 65) 2)

/-- The receive that returns -1 and has taken the message. -/
example : (ipcCall oneMessage true (.rcv 1 0xFFFFFFFF 0 0)).map
    (fun r => (r.ret, (oneMessage.queues 0).count, (r.table.queues 0).count)) = some (-1, 1, 0) := by
  decide

end JarvOs.Ipc
