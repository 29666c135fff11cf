/-
# The keyboard mailbox (`kernel/drivers/keyboard.c`, `irq1_handler` in `kernel/core/idt.c`)

`irq1_handler` hands a scancode to the driver through two variables: the code and a flag.  The
consumer waits for the flag, reads the code and clears the flag, in that order and with interrupts on.
There is room for ONE code.  An interrupt that finds the flag set overwrites a code nobody has read;
one that comes between the read and the clearing has its own code thrown away with the old flag.

An interrupt runs to its end between two instructions of the consumer (the gate clears IF), so a
history is any interleaving of whole interrupts with single accesses of the consumer.  In a history
whose interrupts all find the flag clear nothing is lost (`scancodes_in_order`).
-/
import JarvOs.Lib.Trace

namespace JarvOs.Drivers.Keyboard

open JarvOs.Lib

/-! ## 1. The code -/

/-- Where the consumer is: outside `hal_keyboard_read_scancode`, in its loop, behind the loop, and
behind the read with the code in hand. -/
inductive Point
  | outside
  | waiting
  | ready
  | holding (scancode : UInt8)
deriving DecidableEq, Repr

/-- `keyboard_scan_code`, `keyboard_key_available_flag` and the consumer, with the codes the interrupts
have delivered so far and those the consumer has got. -/
structure State where
  scanCode : UInt8
  keyAvailableFlag : UInt8
  point : Point
  delivered : List UInt8
  read : List UInt8

/-- What may happen next: an interrupt, or one step of the consumer. -/
inductive Op
  | irq1 (scancode : UInt8)
  | keyAvailable
  | callRead
  | testFlag
  | readCode
  | clearFlag
deriving DecidableEq, Repr

/-- `irq1_handler` -/
def irq1Handler (s : State) (scancode : UInt8) : State :=
  { s with scanCode := scancode, keyAvailableFlag := 1, delivered := s.delivered ++ [scancode] }

/-- `hal_keyboard_key_available` -/
def halKeyboardKeyAvailable (s : State) : Bool := s.keyAvailableFlag != 0

/-- One step; `none` where the consumer is not at that point.  `hal_keyboard_key_available` looks at
the flag and changes nothing. -/
def step (s : State) : Op → Option State
  | .irq1 scancode => some (irq1Handler s scancode)
  | .keyAvailable => if s.point = .outside then some s else none
  | .callRead => if s.point = .outside then some { s with point := .waiting } else none
  | .testFlag =>
    match s.point with
    | .waiting => some { s with point := if halKeyboardKeyAvailable s then .ready else .waiting }
    | _ => none
  | .readCode =>
    match s.point with
    | .ready => some { s with point := .holding s.scanCode }
    | _ => none
  | .clearFlag =>
    match s.point with
    | .holding c => some { s with keyAvailableFlag := 0, point := .outside, read := s.read ++ [c] }
    | _ => none

/-- The variables as they are initialised. -/
def boot : State := ⟨0, 0, .outside, [], []⟩

/-! ## 2. Nothing lost while interrupts find the flag clear -/

/-- An interrupt finds the flag clear. -/
def Quiet (s : State) (o : Op) : Prop := ∀ c, o = .irq1 c → s.keyAvailableFlag = 0

/-- The code in the mailbox, if there is one. -/
def pending (s : State) : List UInt8 := if s.keyAvailableFlag = 0 then [] else [s.scanCode]

/-- What has been delivered is what has been read and then what is in the mailbox; a consumer past its
loop has a full mailbox, and the code it holds is the one there. -/
structure InOrder (s : State) : Prop where
  split : s.delivered = s.read ++ pending s
  ready : s.point = .ready → s.keyAvailableFlag ≠ 0
  holding : ∀ c, s.point = .holding c → s.keyAvailableFlag ≠ 0 ∧ c = s.scanCode

theorem inOrder_boot : InOrder boot where
  split := rfl
  ready := nofun
  holding := nofun

theorem inOrder_irq1 {s : State} (h : InOrder s) (hq : s.keyAvailableFlag = 0) (c : UInt8) :
    InOrder (irq1Handler s c) where
  split := by
    have hnone : s.delivered = s.read := by
      rw [h.split, pending, if_pos hq, List.append_nil]
    rw [irq1Handler, hnone]
    rfl
  ready := fun hp => absurd hq (h.ready hp)
  holding := fun c' hp => absurd hq (h.holding c' hp).1

/-- **One step keeps the order**, if it is not an interrupt into a full mailbox. -/
theorem inOrder_step {s t : State} {o : Op} (h : InOrder s) (hq : Quiet s o)
    (hst : step s o = some t) : InOrder t := by
  cases o with
  | irq1 c =>
    obtain rfl := Option.some.inj hst
    exact inOrder_irq1 h (hq c rfl) c
  | keyAvailable =>
    obtain ⟨-, ⟨⟩⟩ := Option.ite_none_right_eq_some.mp hst
    exact h
  | callRead =>
    obtain ⟨-, ⟨⟩⟩ := Option.ite_none_right_eq_some.mp hst
    exact ⟨h.split, nofun, nofun⟩
  | testFlag =>
    cases hp : s.point with
    | waiting =>
      simp only [step, hp, Option.some.injEq] at hst
      subst hst
      refine ⟨h.split, ?_, ?_⟩
      · intro hready hflag
        simp only [halKeyboardKeyAvailable, show s.keyAvailableFlag = 0 from hflag] at hready
        cases hready
      · intro c hc
        split at hc <;> cases hc
    | _ => simp [step, hp] at hst
  | readCode =>
    cases hp : s.point with
    | ready =>
      simp only [step, hp, Option.some.injEq] at hst
      subst hst
      refine ⟨h.split, nofun, ?_⟩
      rintro c ⟨⟩
      exact ⟨h.ready hp, rfl⟩
    | _ => simp [step, hp] at hst
  | clearFlag =>
    cases hp : s.point with
    | holding c =>
      simp only [step, hp, Option.some.injEq] at hst
      subst hst
      obtain ⟨hflag, rfl⟩ := h.holding c hp
      refine ⟨?_, nofun, nofun⟩
      rw [h.split, pending, if_neg hflag]
      exact (List.append_nil _).symm
    | _ => simp [step, hp] at hst

/-- **No scancode is lost while every interrupt finds the flag clear.**  In every such interleaving the
consumer has read, in order, the first of the codes delivered. -/
theorem scancodes_in_order {os : List Op} {s : State} (hquiet : Along step Quiet boot os)
    (hrun : run step boot os = some s) : s.read <+: s.delivered := by
  have h : InOrder s :=
    hquiet.inv (fun _ _ _ hs hq hst => inOrder_step hs hq hst) inOrder_boot hrun
  rw [h.split]
  exact List.prefix_append _ _

/-- A key pressed, read by the consumer, and released. -/
def pressRelease : List Op := [.irq1 0x1E, .callRead, .testFlag, .readCode, .clearFlag, .irq1 0x9E]

theorem scancodes_in_order_sample : ∃ s, run step boot pressRelease = some s ∧ s.read = [0x1E] ∧
    s.read <+: s.delivered := by
  have hrun : run step boot pressRelease = some ⟨0x9E, 1, .outside, [0x1E, 0x9E], [0x1E]⟩ := rfl
  refine ⟨_, hrun, rfl, scancodes_in_order ?_ hrun⟩
  simp [Along, Quiet, pressRelease, step, boot, irq1Handler, halKeyboardKeyAvailable]

/-- **A code is lost in the mailbox.**  Shift is pressed and released before the consumer looks: it
reads the release and never sees the press. -/
theorem scancode_overwritten : ∃ s,
    run step boot [.irq1 0x2A, .irq1 0xAA, .callRead, .testFlag, .readCode, .clearFlag] = some s ∧
      s.delivered = [0x2A, 0xAA] ∧ s.read = [0xAA] ∧ ¬ s.read <+: s.delivered :=
  ⟨_, rfl, rfl, rfl, by decide⟩

/-- The other window: the release comes between the read and the clearing of the flag, and the next
read waits although two codes were delivered. -/
example : (run step boot [.irq1 0x2A, .callRead, .testFlag, .readCode, .irq1 0xAA, .clearFlag,
    .irq1 0x1E, .callRead, .testFlag, .readCode, .clearFlag]).map (fun s => (s.delivered, s.read)) =
      some ([0x2A, 0xAA, 0x1E], [0x2A, 0x1E]) := by decide

end JarvOs.Drivers.Keyboard
