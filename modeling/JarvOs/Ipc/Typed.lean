/-
# Message queues: receiving by type (`kernel/ipc/msg.c`)

`sys_msgrcv` with a type walks the ring from `head` on, takes the first message of that type, and then
sets `head` to the slot BEHIND it while `count` goes down by one.  If the message was the oldest one
this is a FIFO receive.  If it was not, every message it was found behind is skipped, and `count` says
there are still as many messages as before: the ring is no longer in order, and its last messages are
slots nobody has written to.  `typed_receive_iff` says so exactly.
-/
import JarvOs.Ipc.Fifo

namespace JarvOs.Ipc

open JarvOs.Lib

variable {t : MsgTable} {q : MsgQueue} {msqid msgtyp : Int} {i : Slot} {msgsz msgflg : Nat}

/-! ## 1. The search -/

/-- The next index of the search. -/
theorem next_index {index : Int} (h : 0 ≤ index) (h' : index < 16) :
    0 ≤ (index + 1).tmod 16 ∧ (index + 1).tmod 16 < 16 ∧
      ((index + 1).tmod 16).toNat = (index.toNat + 1) % 16 := by
  rw [Int.tmod_eq_emod_of_nonneg (by omega)]
  omega

/-- One round of the search. -/
theorem searchLoop_succ {index : Int} (h : 0 ≤ index) (h' : index < 16) (n : Nat) :
    searchLoop q msgtyp (n + 1) index =
      if msgtyp = 0 ∨ (q.messages (Fin.ofNat 16 index.toNat)).mtype = msgtyp then some (some index)
      else searchLoop q msgtyp n ((index + 1).tmod 16) := by
  rw [searchLoop, slotAt_eq h h']
  rfl

/-- **The search finds the first message of the type**, as many slots behind its start as there are
messages before it. -/
theorem searchLoop_found (htyp : msgtyp ≠ 0) {m : Msg} {post : List Msg} (hm : m.mtype = msgtyp) :
    ∀ (pre : List Msg) {steps : Nat} {index : Int}, 0 ≤ index → index < 16 →
      ringView q.messages index.toNat steps = pre ++ m :: post →
      (∀ x ∈ pre, x.mtype ≠ msgtyp) → ∃ found, searchLoop q msgtyp steps index = some (some found) ∧
        found = (index + pre.length) % 16 ∧ q.messages (Fin.ofNat 16 found.toNat) = m := by
  intro pre
  induction pre with
  | nil =>
    intro steps index h h' hview _
    cases steps with
    | zero => simp at hview
    | succ n =>
      rw [ringView_succ, List.nil_append] at hview
      obtain ⟨rfl, -⟩ := List.cons.inj hview
      refine ⟨index, ?_, ?_, rfl⟩
      · rw [searchLoop_succ h h', if_pos (Or.inr hm)]
      · simp only [List.length_nil]
        omega
  | cons x pre ih =>
    intro steps index h h' hview hpre
    cases steps with
    | zero => simp at hview
    | succ n =>
      rw [ringView_succ, List.cons_append] at hview
      obtain ⟨rfl, hrest⟩ := List.cons.inj hview
      obtain ⟨hnext, hnext', htoNat⟩ := next_index h h'
      obtain ⟨found, hloop, hfound, hmsg⟩ := ih hnext hnext'
        (by rw [htoNat, ringView_mod]; exact hrest) (fun y hy => hpre y (List.mem_cons_of_mem _ hy))
      refine ⟨found, ?_, ?_, hmsg⟩
      · rw [searchLoop_succ h h', if_neg (not_or.mpr ⟨htyp, hpre _ List.mem_cons_self⟩), hloop]
      · rw [hfound, List.length_cons, Int.tmod_eq_emod_of_nonneg (by omega)]
        push_cast
        omega

theorem searchLoop_absent (htyp : msgtyp ≠ 0) : ∀ (steps : Nat) {index : Int}, 0 ≤ index →
    index < 16 → (∀ x ∈ ringView q.messages index.toNat steps, x.mtype ≠ msgtyp) →
      searchLoop q msgtyp steps index = some none := by
  intro steps
  induction steps with
  | zero => intro _ _ _ _; rfl
  | succ n ih =>
    intro index h h' hview
    rw [ringView_succ] at hview
    obtain ⟨hnext, hnext', htoNat⟩ := next_index h h'
    rw [searchLoop_succ h h', if_neg (not_or.mpr ⟨htyp, hview _ List.mem_cons_self⟩)]
    refine ih hnext hnext' ?_
    rw [htoNat, ringView_mod]
    exact fun y hy => hview y (List.mem_cons_of_mem _ hy)

/-! ## 2. The call -/

/-- What a receive by type is for: it takes the first message of that type and leaves the others in
their order, in a ring that is in order. -/
def TakesFirst (t : MsgTable) (msqid : Int) (i : Slot) (msgsz : Nat) (msgtyp : Int) (msgflg : Nat) :
    Prop :=
  ∀ pre m post, (t.queues i).pending = pre ++ m :: post → (∀ x ∈ pre, x.mtype ≠ msgtyp) →
    m.mtype = msgtyp →
    ∃ t', sysMsgrcv t msqid msgsz msgtyp msgflg = some ((msgsz : Int).bmod (2 ^ 32), t',
        m.buffer.take (if msgsz < 4096 then msgsz else 4096)) ∧
      getMsgqueue t' msqid = some i ∧ RingOk (t'.queues i) ∧ (t'.queues i).pending = pre ++ post ∧
      ∀ k, k ≠ i → t'.queues k = t.queues k

/-- And if there is none, it fails and changes nothing. -/
def TypedReceive (t : MsgTable) (msqid : Int) (i : Slot) (msgsz : Nat) (msgtyp : Int)
    (msgflg : Nat) : Prop :=
  TakesFirst t msqid i msgsz msgtyp msgflg ∧
    ((∀ x ∈ (t.queues i).pending, x.mtype ≠ msgtyp) →
      sysMsgrcv t msqid msgsz msgtyp msgflg = some (-1, t, []))

/-- **A receive by type**: the queue loses its first message of the type, and `head` is set behind
it. -/
theorem sysMsgrcv_found (hget : getMsgqueue t msqid = some i) (hring : RingOk (t.queues i))
    (htyp : msgtyp ≠ 0) {pre post : List Msg} {m : Msg}
    (hpend : (t.queues i).pending = pre ++ m :: post) (hpre : ∀ x ∈ pre, x.mtype ≠ msgtyp)
    (hm : m.mtype = msgtyp) (msgsz msgflg : Nat) :
    sysMsgrcv t msqid msgsz msgtyp msgflg = some ((msgsz : Int).bmod (2 ^ 32),
      t.set i (dequeue (t.queues i) (((t.queues i).head + pre.length) % 16)),
      m.buffer.take (if msgsz < 4096 then msgsz else 4096)) := by
  have hsome : (t.queues i).count ≠ 0 := by
    intro h0
    simp [MsgQueue.pending, h0] at hpend
  obtain ⟨found, hloop, rfl, hmsg⟩ := searchLoop_found htyp hm pre hring.head_nonneg hring.head_lt
    hpend hpre
  have hslot : slotAt (((t.queues i).head + pre.length) % 16) = _ := slotAt_eq (by omega) (by omega)
  simp only [sysMsgrcv, hget, if_neg hsome, hloop, Option.bind_eq_bind, Option.bind_some, hslot, hmsg]

theorem sysMsgrcv_absent (hget : getMsgqueue t msqid = some i) (hring : RingOk (t.queues i))
    (htyp : msgtyp ≠ 0) (hnone : ∀ x ∈ (t.queues i).pending, x.mtype ≠ msgtyp) :
    sysMsgrcv t msqid msgsz msgtyp msgflg = some (-1, t, []) := by
  have hloop := searchLoop_absent htyp _ hring.head_nonneg hring.head_lt hnone
  simp only [sysMsgrcv, hget, hloop, ite_self, Option.bind_eq_bind, Option.bind_some]

/-- The oldest message is taken as by a FIFO receive. -/
theorem takesFirst_oldest (hget : getMsgqueue t msqid = some i) (hring : RingOk (t.queues i))
    (htyp : msgtyp ≠ 0) {m : Msg} {rest : List Msg} (hpend : (t.queues i).pending = m :: rest)
    (hm : m.mtype = msgtyp) : TakesFirst t msqid i msgsz msgtyp msgflg := by
  intro pre m' post hsplit hpre hm'
  -- the first message of the type is the first message
  have hnil : pre = [] := by
    cases pre with
    | nil => rfl
    | cons x pre =>
      rw [hpend, List.cons_append] at hsplit
      obtain ⟨rfl, -⟩ := List.cons.inj hsplit
      exact absurd hm (hpre _ List.mem_cons_self)
  subst hnil
  have hpos : 0 < (t.queues i).count := by
    by_contra h0
    rw [MsgQueue.pending, show (t.queues i).count.toNat = 0 by omega] at hpend
    simp at hpend
  have hhead : ((t.queues i).head + ([] : List Msg).length) % 16 = (t.queues i).head := by
    have h := hring.head_nonneg
    have h' := hring.head_lt
    simp only [List.length_nil]
    omega
  have hcall := sysMsgrcv_found hget hring htyp hsplit hpre hm' msgsz msgflg
  rw [hhead] at hcall
  have hid : (dequeue (t.queues i) (t.queues i).head).id = (t.queues i).id := by
    unfold dequeue
    split <;> rfl
  have hself : ∀ q', (t.set i q').queues i = q' := fun q' => by simp [MsgTable.set]
  refine ⟨_, hcall, (getMsgqueue_set hid msqid).trans hget, ?_, ?_, ?_⟩
  · rw [hself]
    exact hring.dequeue hpos
  · rw [hself]
    rw [hring.pending_dequeue hpos] at hsplit
    exact (List.cons.inj hsplit).2
  · intro k hk
    simp [MsgTable.set, Function.update_of_ne hk]

/-- **Behind another message the ring breaks**: `head` jumps over it, and `tail` is no longer `count`
slots ahead. -/
theorem dequeue_behind_not_ringOk (hring : RingOk q) {k : Nat} (hk : 0 < k)
    (hlt : (k : Int) < q.count) : ¬ RingOk (dequeue q ((q.head + k) % 16)) := by
  obtain ⟨hnonneg, hhead, hcount, hle, htail⟩ := hring
  rintro ⟨-, -, -, -, htail'⟩
  rw [dequeue, if_neg (by omega), Int.tmod_eq_emod_of_nonneg (by omega)] at htail'
  simp only at htail'
  omega

/-- **When a receive by type is right.**  On a queue in order that is not empty, `sys_msgrcv` with a
type does what it is for if and only if no message has the type or the OLDEST message has it. -/
theorem typed_receive_iff (hget : getMsgqueue t msqid = some i) (hring : RingOk (t.queues i))
    (hcount : 1 ≤ (t.queues i).count) (htyp : 0 < msgtyp) :
    TypedReceive t msqid i msgsz msgtyp msgflg ↔
      (∀ x ∈ (t.queues i).pending, x.mtype ≠ msgtyp) ∨
        ∃ m rest, (t.queues i).pending = m :: rest ∧ m.mtype = msgtyp := by
  have hne : msgtyp ≠ 0 := by omega
  constructor
  · rintro ⟨htakes, -⟩
    rcases em (∃ m ∈ (t.queues i).pending, m.mtype = msgtyp) with ⟨m₀, hm₀, hm₀'⟩ | hnone
    · refine Or.inr ?_
      -- cut the queue at the first message of the type
      have hsome : ((t.queues i).pending.find? (fun m => m.mtype = msgtyp)).isSome :=
        List.find?_isSome.mpr ⟨m₀, hm₀, by simpa using hm₀'⟩
      obtain ⟨m, hfind⟩ := Option.isSome_iff_exists.mp hsome
      obtain ⟨hm, pre, post, hpend, hpre⟩ := List.find?_eq_some_iff_append.mp hfind
      have hm' : m.mtype = msgtyp := by simpa using hm
      have hpre' : ∀ x ∈ pre, x.mtype ≠ msgtyp := fun x hx => by simpa using hpre x hx
      obtain ⟨t', hcall, -, hring', -, -⟩ := htakes pre m post hpend hpre' hm'
      rw [sysMsgrcv_found hget hring hne hpend hpre' hm'] at hcall
      obtain rfl := (Prod.mk.inj (Prod.mk.inj (Option.some.inj hcall)).2).1
      cases pre with
      | nil => exact ⟨m, post, hpend, hm'⟩
      | cons x pre =>
        have hlen := congrArg List.length hpend
        simp only [MsgQueue.pending, length_ringView, List.length_append, List.length_cons] at hlen
        refine absurd hring' ?_
        simp only [MsgTable.set, Function.update_self]
        exact dequeue_behind_not_ringOk hring (by simp) (by simp only [List.length_cons]; omega)
    · exact Or.inl (fun x hx hxt => hnone ⟨x, hx, hxt⟩)
  · rintro (hnone | ⟨m, rest, hpend, hm⟩)
    · refine ⟨?_, fun h => sysMsgrcv_absent hget hring hne h⟩
      intro pre m post hsplit _ hm
      exact absurd hm (hnone m (by rw [hsplit]; simp))
    · exact ⟨takesFirst_oldest hget hring hne hpend hm,
        fun h => sysMsgrcv_absent hget hring hne h⟩

theorem typed_receive_iff_last_slot : TypedReceive lastSlotTable 1 0 8 7 0 :=
  (typed_receive_iff (by decide) (by constructor <;> decide) (by decide) (by decide)).mpr
    (Or.inr ⟨_, [], rfl, rfl⟩)

/-- One queue, with messages of type 1 and type 2 in its first slots and nothing in the others. -/
def twoTypes : MsgTable where
  queues _ :=
    { key := 5, id := 1, messages := fun j => ⟨if j = 0 then 1 else if j = 1 then 2 else 0, fun _ => 0⟩
      head := 0, tail := 2, count := 2, pidCount := 0 }
  nextMsgqueueId := 2

/-- **A receive of type 2 loses the message of type 1**, and leaves a slot that was never sent to as the
queue's one message. -/
theorem typed_receive_loses_message : RingOk (twoTypes.queues 0) ∧
    (twoTypes.queues 0).pending.map Msg.mtype = [1, 2] ∧
    ∃ t' bytes, sysMsgrcv twoTypes 1 8 2 0 = some (8, t', bytes) ∧
      (t'.queues 0).pending.map Msg.mtype = [0] ∧ ¬ RingOk (t'.queues 0) := by
  refine ⟨by constructor <;> decide, by decide, _, _, rfl, by decide, ?_⟩
  rintro ⟨-, -, -, -, htail⟩
  exact absurd htail (by decide)

end JarvOs.Ipc
