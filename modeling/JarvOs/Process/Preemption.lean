/-
# Preemption (`isr32`, `irq0_handler`, `scheduler_tick`, `context_switch`)

A timer interrupt may come between any two instructions.  `isr32` saves the registers, `irq0_handler` runs
the scheduler on the same stack, and if that chooses another process `context_switch` leaves all of it
lying there: the process is parked INSIDE its interrupt, and goes on in it, much later, when somebody
else's interrupt switches back.  So what a process finds after `iretd` depends on its stack having been
left alone in between, on the compiler having kept its conventions, and on the frame of `isr32` and the
frame of `context_switch` nesting as they do.

`preemption_transparent`: no process notices.  Whatever state a history of interrupts, switches and new
processes reaches, a process that is interrupted there goes on with EVERY register and flag as it was, and
with its stack as it was from the stack pointer up, be it right away or after any number of switches among
the others.

The compiled code is given by what it does (`Compiled`), under the two things a compiler promises (`Abi`):
a function returns with its stack pointer where its caller expects it, and it writes to its own part of
the stack and to memory that is no stack.  About what comes back from `context_switch` it may assume what
it may assume of any function.  Beside the system stands `saved`, what each process is waiting to be again;
the code never reads it.
-/
import JarvOs.Core.InterruptStubs
import JarvOs.Process.ContextSwitch

namespace JarvOs.Process.Preemption

open JarvOs.Lib JarvOs.Lib.X86 JarvOs.Core JarvOs.Process.Switching

variable {P : Type}

/-! ## 1. Compiled code -/

/-- Memory that is no stack and no `stack_ptr`. -/
def Shared (A : Places P) (x : Word) : Prop :=
  (∀ q, x ∉ A.stack q) ∧ ∀ q, ¬ Within (A.slot q) 4 x

/-- `irq0_handler` with everything it calls: from its first instruction until it returns, or until it
enters `context_switch`; and from the return of that until it returns itself.  `entry` is `isr32`, and
`back` and `switchBack` are the return addresses of the two calls. -/
structure Compiled where
  entry : Word
  back : Word
  switchBack : Word
  run : Cpu → Cpu ⊕ Cpu
  leave : Cpu → Cpu
  depth : Nat

/-- Only the function's own part of the stack and shared memory are written. -/
def Local (A : Places P) (H : Compiled) (c : Cpu) (m m' : Memory) : Prop :=
  ∀ x, m' x ≠ m x → Within (off c.sp (-(H.depth : Int))) H.depth x ∨ Shared A x

/-- The calling convention.  `context_switch` is called with two arguments and itself needs 16 bytes. -/
structure Abi (A : Places P) (H : Compiled) : Prop where
  depth : H.depth < 2 ^ 16
  returns : ∀ {c r : Cpu}, H.run c = .inl r → r.sp = off c.sp 4 ∧ Local A H c c.mem r.mem
  calls : ∀ {c d : Cpu}, H.run c = .inr d → (∃ n : Nat, 12 ≤ n ∧ n + 16 ≤ H.depth ∧
    d.sp = off c.sp (-(n : Int))) ∧ read32 d.mem d.sp = H.switchBack ∧ Local A H c c.mem d.mem
  leaves : ∀ {c d e : Cpu}, H.run c = .inr d → context e = callContext d →
    (∀ k : Int, -(H.depth : Int) ≤ k → k < 4 → e.mem (off c.sp k) = switchedMem d (off c.sp k)) →
    (H.leave e).sp = off c.sp 4 ∧ Local A H c e.mem (H.leave e).mem

/-- The processor as `irq0_handler` is entered. -/
def atHandler (H : Compiled) (c : Processor) : Option Cpu :=
  (exec (c.accept H.entry).cpu irqSave).map (fun d => d.push H.back)

/-- The rest of `isr32`, in the flags the interrupt gate has set. -/
def finish (c : Processor) (d : Cpu) : Option Processor :=
  (exec d Syscall.restoreFrame).map (fun e => Processor.iretd ⟨e, kernelCs, gateFlags c.eflags⟩)

/-! ## 2. The system -/

/-- What a process waits for: to start on a page of its own, or to go on where it was interrupted. -/
inductive Waiting
  | fresh (page : Word)
  | interrupted (c : Processor)

/-- The processor, whose stack it is on, and what the others wait for. -/
structure Sys (P : Type) where
  core : Processor
  running : P
  saved : P → Option Waiting

/-- What happens: the running process works on, until the processor is as given; a timer interrupt that
does not switch; one that switches to `q`; or the running process sets up process `n`. -/
inductive Op (P : Type)
  | work (c : Processor)
  | tick
  | preempt (q : P)
  | create (n : P) (page : Word)

/-- Where `context_switch` returns to: a process that has never run is at `process_entry_trampoline`, any
other in its own `irq0_handler`. -/
def comeBack (H : Compiled) (trampoline : Word) (c : Processor) (e : Cpu) : Option Processor :=
  if e.eip = trampoline then some ⟨e, kernelCs, gateFlags c.eflags⟩ else finish c (H.leave e)

/-- One event. -/
def step [DecidableEq P] (A : Places P) (H : Compiled) (trampoline : Word) (s : Sys P) :
    Op P → Option (Sys P)
  | .work c => some { s with core := c }
  | .tick => do
    match H.run (← atHandler H s.core) with
    | .inl r => (finish s.core r).map (fun c => { s with core := c })
    | .inr _ => none
  | .preempt q => do
    match H.run (← atHandler H s.core) with
    | .inl _ => none
    | .inr d => do
      let e ← exec d Switching.contextSwitch
      let core ← comeBack H trampoline s.core e
      some ⟨core, q,
        Function.update (Function.update s.saved q none) s.running (some (.interrupted s.core))⟩
  | .create n page => some { s with
      core := { s.core with cpu := { s.core.cpu with
        mem := firstFrame s.core.cpu.mem (off page 4096) trampoline (A.slot n) } }
      saved := Function.update s.saved n (some (.fresh page)) }

/-- The bytes below the stack pointer that an interrupt may use. -/
def Below (H : Compiled) (c : Processor) (x : Word) : Prop :=
  Within (off c.cpu.sp (-(64 + H.depth : Int))) (64 + H.depth) x

/-- There is room for an interrupt on the stack of `p`. -/
def Room (A : Places P) (H : Compiled) (p : P) (c : Processor) : Prop :=
  ∀ x, Below H c x → x ∈ A.stack p

/-- A process writes to its own stack and to shared memory.  Interrupts come while IF is set, and the
stack has room for them; the scheduler passes `&self->stack_ptr` and the `stack_ptr` of a process that
waits.  A new process gets a page of the stack that is its own. -/
def Legal (A : Places P) (H : Compiled) (s : Sys P) : Op P → Prop
  | .work c => ∀ x, c.cpu.mem x ≠ s.core.cpu.mem x → x ∈ A.stack s.running ∨ Shared A x
  | .tick => s.core.interruptible = true ∧ Room A H s.running s.core
  | .preempt q => s.core.interruptible = true ∧ Room A H s.running s.core ∧ (s.saved q).isSome ∧
      ∃ c d, atHandler H s.core = some c ∧ H.run c = .inr d ∧
        read32 d.mem (off d.sp 4) = A.slot s.running ∧
        read32 d.mem (off d.sp 8) = read32 d.mem (A.slot q)
  | .create n page => n ≠ s.running ∧ s.saved n = none ∧ ∀ x, Within page 4096 x → x ∈ A.stack n

/-! ## 3. One interrupt -/

variable {A : Places P} {H : Compiled} {c : Processor} {p q : P} {m m' : Memory} {h d e : Cpu}
  {x trampoline : Word}

/-- The handler is entered with the frame complete; only the 64 bytes below the stack pointer are
written. -/
theorem atHandler_exec (H : Compiled) (c : Processor) :
    ∃ h, atHandler H c = some h ∧ h.sp = off c.cpu.sp (-64) ∧ Saved c h.mem ∧
      ∀ x, ¬ Within (off c.cpu.sp (-64)) 64 x → h.mem x = c.cpu.mem x := by
  obtain ⟨d, hd, hsp, hsaved, hmem⟩ := irqSave_exec c H.entry
  have hpush : (d.push H.back).sp = off c.cpu.sp (-64) := by
    simp only [Cpu.sp, Cpu.push_regs, if_true] at hsp ⊢
    rw [hsp, off_off]
    rfl
  have hbelow : ∀ x, ¬ Within (off c.cpu.sp (-64)) 4 x → (d.push H.back).mem x = d.mem x := by
    intro x hx
    rw [Cpu.push_mem, hsp, off_off]
    exact write32_off hx
  refine ⟨d.push H.back, by rw [atHandler, hd, Option.map_some], hpush, ?_, fun x hx => ?_⟩
  · refine hsaved.congr (fun k hlo hhi => hbelow _ ?_)
    rw [within_off]
    omega
  · rw [hbelow x, hmem x]
    all_goals
      intro hw
      obtain ⟨j, rfl⟩ := exists_off c.cpu.sp x
      rw [within_off] at hw hx
      omega

theorem below_off (hdepth : H.depth < 2 ^ 16) {k : Int} (hlo : -(64 + H.depth : Int) ≤ k)
    (hhi : k < 0) : Below H c (off c.cpu.sp k) := by
  rw [Below, within_off]
  omega

/-- What a function leaves alone on a stack. -/
theorem Local.keep (hl : Local A H h m m') (hx : x ∈ A.stack p)
    (hout : ¬ Within (off h.sp (-(H.depth : Int))) H.depth x) : m' x = m x := by
  by_contra hne
  rcases hl x hne with hin | hsh
  · exact hout hin
  · exact hsh.1 p hx

/-- What it writes is on its stack or shared. -/
theorem Local.quiet (hl : Local A H h m m') (hdepth : H.depth < 2 ^ 16)
    (hsp : h.sp = off c.cpu.sp (-64)) (hroom : Room A H p c) (hx : m' x ≠ m x) :
    x ∈ A.stack p ∨ Shared A x := by
  refine (hl x hx).imp (fun hin => hroom x ?_) id
  obtain ⟨j, rfl⟩ := exists_off c.cpu.sp x
  rw [hsp, off_off, within_off] at hin
  rw [Below, within_off]
  omega

/-- The frame of `isr32` outlives the function. -/
theorem Local.saved (hl : Local A H h m m') (hdepth : H.depth < 2 ^ 16)
    (hsp : h.sp = off c.cpu.sp (-64)) (hroom : Room A H p c) (hs : Saved c m) : Saved c m' := by
  refine hs.congr (fun k hlo hhi => hl.keep (hroom _ (below_off hdepth (by omega) hhi)) ?_)
  rw [hsp, off_off, within_off]
  omega

/-- A process that is parked in its interrupt: it has come to `context_switch` at `d`, its stack is as
that has left it, and its `stack_ptr` points there. -/
structure Parked (A : Places P) (H : Compiled) (m : Memory) (q : P) (c : Processor) (h d : Cpu) :
    Prop where
  entry : atHandler H c = some h
  called : H.run h = .inr d
  room : Room A H q c
  arg : read32 d.mem (off d.sp 4) = A.slot q
  ptr : read32 m (A.slot q) = off d.sp (-16)
  stack : ∀ x ∈ A.stack q, m x = switchedMem d x

theorem Parked.congr (hp : Parked A H m q c h d) (hstack : ∀ x ∈ A.stack q, m' x = m x)
    (hslot : ∀ x, Within (A.slot q) 4 x → m' x = m x) : Parked A H m' q c h d where
  entry := hp.entry
  called := hp.called
  room := hp.room
  arg := hp.arg
  ptr := (read32_congr hslot).trans hp.ptr
  stack := fun x hx => (hstack x hx).trans (hp.stack x hx)

section OneInterrupt

variable (hH : Abi A H)

include hH

/-- Frame, return address and arguments of `context_switch` lie on the stack that was interrupted. -/
theorem called_stack (hh : atHandler H c = some h) (hd : H.run h = .inr d) (hroom : Room A H q c)
    {k : Int} (hlo : -16 ≤ k) (hhi : k < 12) : off d.sp k ∈ A.stack q := by
  obtain ⟨h', hh', hsp, -⟩ := atHandler_exec H c
  obtain rfl := Option.some.inj (hh.symm.trans hh')
  obtain ⟨⟨n, hn, hn', hdsp⟩, -⟩ := hH.calls hd
  rw [hdsp, hsp, off_off, off_off]
  exact hroom _ (below_off hH.depth (by omega) (by omega))

theorem savesApart_of_room (hh : atHandler H c = some h) (hd : H.run h = .inr d)
    (hroom : Room A H q c) (harg : read32 d.mem (off d.sp 4) = A.slot q) : SavesApart d := by
  intro x hx hx'
  obtain ⟨k, hk, rfl⟩ := hx'.exists_off
  rw [harg, off_off] at hx
  exact A.slot_stack hx (called_stack hH hh hd hroom (by omega) (by omega))

/-- To `context_switch` a parked process is one that waits to return from it. -/
theorem Parked.suspended (hp : Parked A H m q c h d) : Suspended A m q (callContext d) := by
  have hframe : (callContext d).frame = off d.sp (-16) := by
    rw [Context.frame, callContext, off_off]
    rfl
  have happ := savesApart_of_room hH hp.entry hp.called hp.room hp.arg
  have hown : ∀ x, Within (callContext d).frame 20 x → x ∈ A.stack q := by
    intro x hx
    rw [hframe] at hx
    obtain ⟨k, hk, rfl⟩ := hx.exists_off
    rw [off_off]
    exact called_stack hH hp.entry hp.called hp.room (by omega) (by omega)
  refine ⟨hown, ?_, (framed_caller happ).congr (fun x hx => hp.stack x (hown x hx))⟩
  rw [hframe, hp.ptr]

/-- **A parked process goes on.**  When `context_switch` returns to it, in any memory it has been parked
in, it is where it was interrupted: with all registers, and with its stack from the stack pointer up. -/
theorem Parked.resume (hp : Parked A H m q c h d) (he : context e = callContext d) (hm : e.mem = m)
    (c₁ : Processor) : e.eip = H.switchBack ∧ ∃ c', finish c₁ (H.leave e) = some c' ∧
      SameRegisters c c' ∧ (∀ x, c'.cpu.mem x ≠ m x → x ∈ A.stack q ∨ Shared A x) ∧
      ∀ x ∈ A.stack q, ¬ Below H c x → c'.cpu.mem x = c.cpu.mem x := by
  obtain ⟨h', hh', hsp, hsaved, hmem⟩ := atHandler_exec H c
  obtain rfl := Option.some.inj (hp.entry.symm.trans hh')
  obtain ⟨⟨n, hn, hn', hdsp⟩, hback, hrun⟩ := hH.calls hp.called
  have happ := savesApart_of_room hH hp.entry hp.called hp.room hp.arg
  -- `context_switch` has written below `d`, and the `stack_ptr`, which is on no stack
  have hswitched : ∀ x ∈ A.stack q, ¬ Within (off d.sp (-16)) 28 x → switchedMem d x = d.mem x := by
    intro x hx hout
    refine switchedMem_off hout (fun hslot => ?_)
    rw [hp.arg] at hslot
    exact A.slot_stack hslot hx
  have hlocal : ∀ k : Int, -(H.depth : Int) ≤ k → k < 4 →
      e.mem (off h.sp k) = switchedMem d (off h.sp k) := by
    intro k hlo hhi
    rw [hm]
    refine hp.stack _ (hp.room _ ?_)
    rw [hsp, off_off]
    exact below_off hH.depth (by omega) (by omega)
  obtain ⟨hlsp, hleave⟩ := hH.leaves hp.called he hlocal
  rw [hm] at hleave
  have hkept : Saved c m := by
    refine (hrun.saved hH.depth hsp hp.room hsaved).congr (fun k hlo hhi => ?_)
    have hin := hp.room _ (below_off (c := c) hH.depth (k := k) (by omega) hhi)
    rw [hp.stack _ hin, hswitched _ hin]
    rw [hdsp, hsp, off_off, off_off, within_off]
    have := hH.depth
    omega
  have hlsp' : (H.leave e).sp = off c.cpu.sp (-60) := by
    rw [hlsp, hsp, off_off]
    rfl
  obtain ⟨f, hf, hsame, hfm⟩ := restore_exec hlsp' (hleave.saved hH.depth hsp hp.room hkept)
    kernelCs (gateFlags c₁.eflags)
  refine ⟨?_, _, by rw [finish, hf, Option.map_some], hsame, fun x hx => ?_, fun x hx hout => ?_⟩
  · have heip := congrArg Context.eip he
    exact heip.trans hback
  · rw [hfm] at hx
    exact hleave.quiet hH.depth hsp hp.room hx
  · have hfar : ¬ Within (off h.sp (-(H.depth : Int))) H.depth x ∧ ¬ Within (off d.sp (-16)) 28 x ∧
        ¬ Within (off c.cpu.sp (-64)) 64 x := by
      obtain ⟨j, rfl⟩ := exists_off c.cpu.sp x
      have := hH.depth
      rw [Below, within_off] at hout
      rw [hdsp, hsp, off_off, off_off, off_off, within_off, within_off, within_off]
      omega
    rw [hfm, hleave.keep hx hfar.1, hp.stack x hx, hswitched x hx hfar.2.1, hrun.keep hx hfar.1,
      hmem x hfar.2.2]

end OneInterrupt

/-! ## 4. The invariant -/

/-- What a waiting process waits for is on its stack. -/
inductive Waits (A : Places P) (H : Compiled) (trampoline : Word) (m : Memory) (q : P) : Waiting → Prop
  | fresh {page : Word} : Suspended A m q (startContext trampoline page) →
      Waits A H trampoline m q (.fresh page)
  | interrupted {c : Processor} {h d : Cpu} : Parked A H m q c h d →
      Waits A H trampoline m q (.interrupted c)

theorem Waits.congr {w : Waiting} (hw : Waits A H trampoline m q w)
    (hstack : ∀ x ∈ A.stack q, m' x = m x) (hslot : ∀ x, Within (A.slot q) 4 x → m' x = m x) :
    Waits A H trampoline m' q w := by
  cases hw with
  | fresh hs => exact .fresh (hs.congr (fun x hx => hstack x (hs.own x hx)) hslot)
  | interrupted hp => exact .interrupted (hp.congr hstack hslot)

/-- The running process waits for nothing, and the others for what they should. -/
def Inv (A : Places P) (H : Compiled) (trampoline : Word) (s : Sys P) : Prop :=
  s.saved s.running = none ∧
    ∀ q w, s.saved q = some w → Waits A H trampoline s.core.cpu.mem q w

variable {s t u : Sys P} {w : Waiting}

theorem Inv.ne (hs : Inv A H trampoline s) (hq : s.saved q = some w) : q ≠ s.running := by
  rintro rfl
  exact absurd (hs.1.symm.trans hq) (by simp)

/-- Writes to the stack of another process and to shared memory. -/
theorem Waits.quiet (hw : Waits A H trampoline m q w) (hqp : q ≠ p)
    (hm : ∀ x, m' x ≠ m x → x ∈ A.stack p ∨ Shared A x) : Waits A H trampoline m' q w := by
  refine hw.congr (fun x hx => ?_) (fun x hx => ?_)
  · by_contra hne
    rcases hm x hne with hp | hsh
    · exact A.disjoint hqp hx hp
    · exact hsh.1 q hx
  · by_contra hne
    rcases hm x hne with hp | hsh
    · exact A.slot_stack hx hp
    · exact hsh.2 q hx

/-- **What the running process may write disturbs nobody.** -/
theorem Inv.quiet (hs : Inv A H trampoline s) {core : Processor}
    (hm : ∀ x, core.cpu.mem x ≠ s.core.cpu.mem x → x ∈ A.stack s.running ∨ Shared A x) :
    Inv A H trampoline { s with core := core } :=
  ⟨hs.1, fun q w hq => (hs.2 q w hq).quiet (hs.ne hq) hm⟩

/-- A process is where it waited to be: at its beginning, with interrupts off, or back in the code that
was interrupted. -/
inductive Back (A : Places P) (H : Compiled) (trampoline : Word) (q : P) :
    Waiting → Processor → Prop
  | fresh {page : Word} {c : Processor} : context c.cpu = startContext trampoline page →
      c.interruptible = false → Back A H trampoline q (.fresh page) c
  | interrupted {c c' : Processor} : SameRegisters c c' →
      (∀ x ∈ A.stack q, ¬ Below H c x → c'.cpu.mem x = c.cpu.mem x) →
      Back A H trampoline q (.interrupted c) c'

section Steps

variable (hH : Abi A H)

include hH

/-- Up to where the handler has come, only the own stack and shared memory are written. -/
theorem handler_quiet (hh : atHandler H c = some h) (hroom : Room A H p c)
    (hl : Local A H h h.mem m) (hx : m x ≠ c.cpu.mem x) : x ∈ A.stack p ∨ Shared A x := by
  obtain ⟨h', hh', hsp, -, hmem⟩ := atHandler_exec H c
  obtain rfl := Option.some.inj (hh.symm.trans hh')
  by_cases hch : m x = h.mem x
  · refine Or.inl (hroom x ?_)
    have hin : Within (off c.cpu.sp (-64)) 64 x := by
      by_contra hout
      exact hx (hch.trans (hmem x hout))
    obtain ⟨k, hk, rfl⟩ := hin.exists_off
    rw [off_off]
    exact below_off hH.depth (by omega) (by omega)
  · exact hl.quiet hH.depth hsp hroom hch

/-- A switch to a waiting process: there is a frame to return to, and behind it the process. -/
theorem Waits.comeBack (htr : H.switchBack ≠ trampoline) (hw : Waits A H trampoline m q w) :
    ∃ k, Suspended A m q k ∧ ∀ e c₁, e.mem = m → context e = k →
      ∃ c', comeBack H trampoline c₁ e = some c' ∧ Back A H trampoline q w c' ∧
        ∀ x, c'.cpu.mem x ≠ m x → x ∈ A.stack q ∨ Shared A x := by
  cases hw with
  | fresh hs =>
    refine ⟨_, hs, fun e c₁ hm he => ⟨_, if_pos (congrArg Context.eip he), .fresh he ?_, ?_⟩⟩
    · simp [Processor.interruptible, gateFlags]
    · intro x hx
      exact absurd (congrFun hm x) hx
  | interrupted hp =>
    refine ⟨_, hp.suspended hH, fun e c₁ hm he => ?_⟩
    obtain ⟨heip, c', hc', hsame, hquiet, hstack⟩ := hp.resume hH he hm c₁
    refine ⟨c', ?_, .interrupted hsame hstack, hquiet⟩
    rw [Preemption.comeBack, heip, if_neg htr, hc']

variable [DecidableEq P]

/-- **A timer interrupt that does not switch.** -/
theorem tick_spec (hok : Legal A H s .tick) (hst : step A H trampoline s .tick = some t) :
    t.running = s.running ∧ t.saved = s.saved ∧ SameRegisters s.core t.core ∧
      (∀ x, t.core.cpu.mem x ≠ s.core.cpu.mem x → x ∈ A.stack s.running ∨ Shared A x) ∧
      ∀ x ∈ A.stack s.running, ¬ Below H s.core x → t.core.cpu.mem x = s.core.cpu.mem x := by
  obtain ⟨-, hroom⟩ := hok
  obtain ⟨h, hh, hsp, hsaved, hmem⟩ := atHandler_exec H s.core
  simp only [step, hh, Option.bind_eq_bind, Option.bind_some] at hst
  cases hrun : H.run h with
  | inr d => simp [hrun] at hst
  | inl r =>
    rw [hrun] at hst
    obtain ⟨c', hc', rfl⟩ := Option.map_eq_some_iff.mp hst
    obtain ⟨hrsp, hlocal⟩ := hH.returns hrun
    have hrsp' : r.sp = off s.core.cpu.sp (-60) := by
      rw [hrsp, hsp, off_off]
      rfl
    obtain ⟨f, hf, hsame, hfm⟩ := restore_exec hrsp' (hlocal.saved hH.depth hsp hroom hsaved)
      kernelCs (gateFlags s.core.eflags)
    rw [finish, hf, Option.map_some] at hc'
    obtain rfl := Option.some.inj hc'
    refine ⟨rfl, rfl, hsame, fun x hx => ?_, fun x hx hout => ?_⟩
    · simp only [hfm] at hx
      exact handler_quiet hH hh hroom hlocal hx
    · have hfar : ¬ Within (off h.sp (-(H.depth : Int))) H.depth x ∧
          ¬ Within (off s.core.cpu.sp (-64)) 64 x := by
        obtain ⟨j, rfl⟩ := exists_off s.core.cpu.sp x
        have := hH.depth
        rw [Below, within_off] at hout
        rw [hsp, off_off, within_off, within_off]
        omega
      simp only [hfm]
      rw [hlocal.keep hx hfar.1, hmem x hfar.2]

/-- **A timer interrupt that switches**: the process that was waited for is back, and the one that was
interrupted waits. -/
theorem preempt_spec (htr : H.switchBack ≠ trampoline) (hs : Inv A H trampoline s)
    (hok : Legal A H s (.preempt q)) (hq : s.saved q = some w) :
    ∃ t, step A H trampoline s (.preempt q) = some t ∧ t.running = q ∧
      t.saved = Function.update (Function.update s.saved q none) s.running
        (some (.interrupted s.core)) ∧
      Back A H trampoline q w t.core ∧ Inv A H trampoline t := by
  obtain ⟨-, hroom, -, h, d, hh, hd, harg, hnew⟩ := hok
  obtain ⟨-, -, hlocal⟩ := hH.calls hd
  have happ := savesApart_of_room hH hh hd hroom harg
  -- what `context_switch` writes is on this stack or in this `stack_ptr`
  have hsw : ∀ x, x ∉ A.stack s.running → ¬ Within (A.slot s.running) 4 x →
      switchedMem d x = d.mem x := by
    intro x hstack hslot
    refine switchedMem_off (fun hx => hstack ?_) (by rwa [harg])
    obtain ⟨k, hk, rfl⟩ := hx.exists_off
    rw [off_off]
    exact called_stack hH hh hd hroom (by omega) (by omega)
  have hslots : ∀ r, r ≠ s.running → ∀ x, Within (A.slot r) 4 x → switchedMem d x = d.mem x :=
    fun r hr x hx => hsw x (A.slot_stack hx) (A.slot_slot hr hx)
  have hkeep : ∀ r w', s.saved r = some w' → Waits A H trampoline (switchedMem d) r w' := by
    intro r w' hr
    have hmid := (hs.2 r w' hr).quiet (hs.ne hr) (fun x hx => handler_quiet hH hh hroom hlocal hx)
    exact hmid.congr (fun x hx => hsw x (A.disjoint (hs.ne hr) hx) (fun hx' => A.slot_stack hx' hx))
      (hslots r (hs.ne hr))
  have hparked : Waits A H trampoline (switchedMem d) s.running (.interrupted s.core) := by
    refine .interrupted ⟨hh, hd, hroom, harg, ?_, fun x _ => rfl⟩
    rw [← harg, switchedMem, read32_write32_same]
  obtain ⟨k, hsusp, hcome⟩ := (hkeep q w hq).comeBack hH htr
  have hptr : read32 d.mem (off d.sp 8) = k.frame := by
    rw [hnew, ← hsusp.ptr]
    exact (read32_congr (hslots q (hs.ne hq))).symm
  obtain ⟨e, he, hem, hctx⟩ := contextSwitch_exec happ hptr hsusp.framed
  obtain ⟨c', hc', hback, hquiet⟩ := hcome e s.core hem hctx
  refine ⟨⟨c', q, Function.update (Function.update s.saved q none) s.running
    (some (.interrupted s.core))⟩, ?_, rfl, rfl, hback, ?_, fun r w' hr => ?_⟩
  · simp only [step, hh, Option.bind_eq_bind, Option.bind_some, hd, he, hc']
  · simp only [Function.update_of_ne (hs.ne hq), Function.update_self]
  · simp only [Function.update_apply] at hr
    split at hr
    · rename_i heq
      subst heq
      obtain rfl := Option.some.inj hr
      exact hparked.quiet (hs.ne hq).symm hquiet
    · split at hr
      · exact absurd hr (by simp)
      · rename_i hrq
        exact (hkeep r w' hr).quiet hrq hquiet

omit hH in
theorem inv_create {n : P} {page : Word} (hs : Inv A H trampoline s)
    (hok : Legal A H s (.create n page)) (hst : step A H trampoline s (.create n page) = some t) :
    Inv A H trampoline t := by
  obtain ⟨hn, -, hpage⟩ := hok
  obtain rfl := Option.some.inj hst
  refine ⟨?_, fun r w' hr => ?_⟩
  · simp only [Function.update_of_ne (Ne.symm hn)]
    exact hs.1
  · simp only [Function.update_apply] at hr
    split at hr
    · rename_i heq
      subst heq
      obtain rfl := Option.some.inj hr
      refine .fresh ⟨fun x hx => hpage x (startContext_page hx), read32_write32_same _ _ _,
        framed_start (fun x hx hx' => A.slot_stack hx (hpage x hx'))⟩
    · rename_i hne
      refine (hs.2 r w' hr).congr (fun x hx => firstFrame_off (fun hx' => ?_) (fun hx' => ?_))
        (fun x hx => firstFrame_off (fun hx' => ?_) (fun hx' => ?_))
      · exact A.disjoint hne hx (hpage x hx')
      · exact A.slot_stack hx' hx
      · exact A.slot_stack hx (hpage x hx')
      · exact A.slot_slot hne hx hx'

/-- **One event.** -/
theorem inv_step (htr : H.switchBack ≠ trampoline) (hs : Inv A H trampoline s) {o : Op P}
    (hok : Legal A H s o) (hst : step A H trampoline s o = some t) : Inv A H trampoline t := by
  cases o with
  | work c =>
    obtain rfl := Option.some.inj hst
    exact hs.quiet hok
  | tick =>
    obtain ⟨hrun, hsaved, -, hquiet, -⟩ := tick_spec hH hok hst
    have h := hs.quiet hquiet
    rwa [← hrun, ← hsaved] at h
  | preempt q =>
    obtain ⟨w, hq⟩ := Option.isSome_iff_exists.mp hok.2.2.1
    obtain ⟨t', ht', -, -, -, hinv⟩ := preempt_spec hH htr hs hok hq
    rwa [Option.some.inj (hst.symm.trans ht')]
  | create n page => exact inv_create hs hok hst

end Steps

/-! ## 5. Whole histories -/

/-- The kernel before there is a second process. -/
def boot (c : Processor) (p : P) : Sys P := ⟨c, p, fun _ => none⟩

/-- Legal, and no switch to `p`. -/
def Away (A : Places P) (H : Compiled) (p : P) (s : Sys P) (o : Op P) : Prop :=
  Legal A H s o ∧ o ≠ .preempt p

variable [DecidableEq P]

/-- Nothing but a switch to it changes what a process waits for. -/
theorem saved_step (hH : Abi A H) (htr : H.switchBack ≠ trampoline) (hs : Inv A H trampoline s)
    (hp : s.saved p = some w) {o : Op P} (hok : Away A H p s o)
    (hst : step A H trampoline s o = some t) : t.saved p = some w := by
  obtain ⟨hok, hne⟩ := hok
  cases o with
  | work c =>
    obtain rfl := Option.some.inj hst
    exact hp
  | tick =>
    obtain ⟨-, hsaved, -⟩ := tick_spec hH hok hst
    rw [hsaved, hp]
  | preempt q =>
    obtain ⟨w', hq⟩ := Option.isSome_iff_exists.mp hok.2.2.1
    obtain ⟨t', ht', -, hsaved, -⟩ := preempt_spec hH htr hs hok hq
    obtain rfl := Option.some.inj (hst.symm.trans ht')
    have hpq : p ≠ q := fun h => hne (h ▸ rfl)
    rw [hsaved, Function.update_of_ne (hs.ne hp), Function.update_of_ne hpq, hp]
  | create n page =>
    obtain rfl := Option.some.inj hst
    have hpn : p ≠ n := by
      rintro rfl
      exact absurd (hp.symm.trans hok.2.1) (by simp)
    simp only [Function.update_of_ne hpn]
    exact hp

theorem inv_reach (hH : Abi A H) (htr : H.switchBack ≠ trampoline) {c₀ : Processor} {p₀ : P}
    (h : Reach (step A H trampoline) (Legal A H) (boot c₀ p₀) s) : Inv A H trampoline s :=
  h.inv ⟨rfl, fun q w hq => absurd hq (by simp [boot])⟩
    (fun _ _ _ hs hok hst => inv_step hH htr hs hok hst)

/-- A process that waits is back at the next switch to it. -/
theorem back_of_waits (hH : Abi A H) (htr : H.switchBack ≠ trampoline) (hs : Inv A H trampoline s)
    (hp : s.saved p = some w) (h : Reach (step A H trampoline) (Away A H p) s u)
    (hok : Legal A H u (.preempt p)) : ∃ v, step A H trampoline u (.preempt p) = some v ∧
      v.running = p ∧ Back A H trampoline p w v.core := by
  obtain ⟨hinv, hsaved⟩ := h.inv (I := fun t => Inv A H trampoline t ∧ t.saved p = some w) ⟨hs, hp⟩
    (fun _ _ _ hs hok hst =>
      ⟨inv_step hH htr hs.1 hok.1 hst, saved_step hH htr hs.1 hs.2 hok hst⟩)
  obtain ⟨v, hv, hrun, -, hback, -⟩ := preempt_spec hH htr hinv hok hsaved
  exact ⟨v, hv, hrun, hback⟩

/-- A handler for the two stacks: it switches to the other process if the byte at 0x500 is set. -/
def sampleHandler : Compiled where
  entry := 0x101000
  back := 0x101020
  switchBack := 0x102000
  run c :=
    let self := decide (0x2000 ≤ c.sp.toNat)
    if c.mem 0x500 = 0 then .inl c.ret
    else .inr (((c.push (read32 c.mem (twoStacks.slot (!self)))).push (twoStacks.slot self)).push
      0x102000)
  leave e := (e.drop 8).ret
  depth := 64

theorem sampleHandler_abi : Abi twoStacks sampleHandler where
  depth := by decide
  returns := by
    intro c r hr
    simp only [sampleHandler] at hr
    split at hr
    · obtain rfl := Sum.inl.inj hr
      exact ⟨by simp [Cpu.sp], fun x hx => absurd rfl hx⟩
    · exact absurd hr (by simp)
  calls := by
    intro c d hd
    simp only [sampleHandler] at hd
    split at hd
    · exact absurd hd (by simp)
    · obtain rfl := Sum.inr.inj hd
      refine ⟨⟨12, le_refl 12, by decide, by simp [Cpu.sp]⟩, by simp [Cpu.sp, sampleHandler], ?_⟩
      intro x hx
      refine Or.inl ?_
      by_contra hout
      have hne : ∀ i : Int, -64 ≤ i → i ≤ -4 → ∀ (m : Memory) (v : Word),
          write32 m (off c.sp i) v x = m x := by
        intro i hlo hhi m v
        refine write32_off (fun hw => hout ?_)
        obtain ⟨j, rfl⟩ := exists_off c.sp x
        rw [within_off] at hw ⊢
        simp only [sampleHandler]
        omega
      exact hx (by simp (disch := decide) [Cpu.sp, hne])
  leaves := by
    intro c d e hd he hmem
    simp only [sampleHandler] at hd
    split at hd
    · exact absurd hd (by simp)
    · obtain rfl := Sum.inr.inj hd
      have hesp := congrArg Context.esp he
      refine ⟨?_, fun x hx => absurd rfl hx⟩
      simp only [context, callContext, Cpu.sp, Cpu.push_regs, if_true, off_off] at hesp
      simp [sampleHandler, Cpu.sp, hesp]

/-- The first process at work, with interrupts on. -/
def sampleCore : Processor := ⟨sampleCpu, kernelCs, 0x202⟩

end JarvOs.Process.Preemption
