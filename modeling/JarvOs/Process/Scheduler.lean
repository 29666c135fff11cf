/-
# The scheduler (`kernel/process/scheduler.c`)

Process control blocks live in `process_pool` and in `idle_process`; a `process_t *` is a `Proc` or,
where it may be NULL, an `Option Proc`.  Every list of the scheduler is INTRUSIVE: the free list, the
four ready queues and the sleep list are threaded through the one `next` field of the PCBs.

The scheduler's own data are kept apart from the machine's memory (nothing here hands out the
address of a PCB), with one exception the code itself makes: `scheduler_tick` may save a stack
pointer through a NULL `prev`, and then the store goes to the word at address 60, where
`stack_ptr` would be.

`context_switch` saves the stack pointer of whoever calls it, so the value it saves is an argument
of `schedulerTick`; what it saved where, and what it loaded, is part of the result.  The registers
it pushes on the stacks are not modelled here.
-/
import JarvOs.Memory.Vmm

namespace JarvOs.Process

open JarvOs.Lib JarvOs.Memory

/-! ## 1. Data -/

/-- `process_priority_t`, from the highest to the lowest. -/
inductive Priority
  | realtime | high | normal | low
deriving DecidableEq, Repr

/-- `process_state_t` -/
inductive ProcessState
  | running | ready | sleeping | blocked | zombie | terminated
deriving DecidableEq, Repr

/-- So that a number is the index of a PCB, modulo the size of the pool. -/
instance poolSize : NeZero 64 := ⟨by decide⟩

/-- A non-NULL `process_t *`: an element of `process_pool`, or `&idle_process`. -/
inductive Proc
  | pool (i : Fin 64)
  | idle
deriving DecidableEq, Repr

/-- `process_t`.  Pointers to memory are addresses, `page_directory` 0 is NULL. -/
structure Pcb where
  pid : Nat
  name : List UInt8
  state : ProcessState
  priority : Priority
  cpuTimeMs : Nat
  memoryPages : Nat
  next : Option Proc
  prev : Option Proc
  stackPtr : Nat
  stackPhys : Nat
  pageDirectory : Nat
  entryPoint : Nat
  arg : Nat
  wakeTick : Nat
deriving DecidableEq, Repr

/-- A PCB with `state` set. -/
def Pcb.withState (c : Pcb) (st : ProcessState) : Pcb := { c with state := st }

/-- A PCB with `cpu_time_ms += deltaMs`. -/
def Pcb.charge (c : Pcb) (deltaMs : Nat) : Pcb := { c with cpuTimeMs := add32 c.cpuTimeMs deltaMs }

/-- `priority_queue_t` -/
structure Queue where
  head : Option Proc
  tail : Option Proc
deriving DecidableEq, Repr

/-- The static data of `scheduler.c`, and `tick_count`. -/
structure Sched where
  pcb : Proc → Pcb
  freeList : Option Proc
  queues : Priority → Queue
  current : Option Proc
  sleepList : Option Proc
  nextPid : Nat
  tickCount : Nat

/-- The static data before `scheduler_init`: zeroed, with `next_pid` 1. -/
def bootSched : Sched where
  pcb := fun _ => ⟨0, [], .running, .realtime, 0, 0, none, none, 0, 0, 0, 0, 0, 0⟩
  freeList := none
  queues := fun _ => ⟨none, none⟩
  current := none
  sleepList := none
  nextPid := 1
  tickCount := 0

/-- The kernel as the scheduler sees it. -/
structure Kernel where
  mach : Machine
  sched : Sched

namespace Sched

/-- An assignment to fields of `*p`. -/
def modify (s : Sched) (p : Proc) (f : Pcb → Pcb) : Sched :=
  { s with pcb := Function.update s.pcb p (f (s.pcb p)) }

/-- `p->next = n;` -/
def setNext (s : Sched) (p : Proc) (n : Option Proc) : Sched :=
  s.modify p (fun c => { c with next := n })

/-- `p->state = st;` -/
def setState (s : Sched) (p : Proc) (st : ProcessState) : Sched :=
  s.modify p (·.withState st)

/-- `queues[q] = v;` -/
def setQueue (s : Sched) (q : Priority) (v : Queue) : Sched :=
  { s with queues := Function.update s.queues q v }

/-- `current_process = p;` -/
def setCurrent (s : Sched) (p : Option Proc) : Sched := { s with current := p }

/-! ## 2. Lists -/

/-- The links `scheduler_init` makes in the pool. -/
def poolNext (i : Fin 64) : Option Proc :=
  if h : i.val + 1 < 64 then some (.pool ⟨i.val + 1, h⟩) else none

/-- `scheduler_init`.  It does not touch `sleep_list`, nor the fields of a PCB it does not name. -/
def schedulerInit (s : Sched) : Sched :=
  { s with
    pcb := fun
      | .pool i => { s.pcb (.pool i) with next := poolNext i }
      | .idle => { s.pcb .idle with
          pid := 0, name := [0x69, 0x64, 0x6C, 0x65], state := .running, priority := .low,
          cpuTimeMs := 0, memoryPages := 0, next := none, prev := none, stackPtr := 0,
          entryPoint := 0, arg := 0 }
    freeList := some (.pool 0)
    queues := fun _ => ⟨none, none⟩
    current := some .idle }

/-- `allocate_process` -/
def allocateProcess (s : Sched) : Option Proc × Sched :=
  match s.freeList with
  | none => (none, s)
  | some p => (some p, { s with freeList := (s.pcb p).next }.setNext p none)

/-- `release_process` -/
def releaseProcess (s : Sched) (p : Proc) : Sched :=
  { s.setNext p s.freeList with freeList := some p }

/-- `enqueue_process` -/
def enqueueProcess (s : Sched) (p : Proc) : Sched :=
  let prio := (s.pcb p).priority
  match (s.queues prio).tail with
  | none => (s.setQueue prio ⟨some p, some p⟩).setNext p none
  | some t => ((s.setNext t (some p)).setQueue prio ⟨(s.queues prio).head, some p⟩).setNext p none

/-- `dequeue_process` -/
def dequeueProcess (s : Sched) (prio : Priority) : Option Proc × Sched :=
  match (s.queues prio).head with
  | none => (none, s)
  | some p =>
    let head := (s.pcb p).next
    let tail := if head = none then none else (s.queues prio).tail
    (some p, (s.setQueue prio ⟨head, tail⟩).setNext p none)

/-- `enqueue_sleep` -/
def enqueueSleep (s : Sched) (p : Proc) : Sched :=
  { s.setNext p s.sleepList with sleepList := some p }

/-- `if (prev == NULL) sleep_list = next; else prev->next = next;` -/
def unlinkSleeper (s : Sched) (prev next : Option Proc) : Sched :=
  match prev with
  | none => { s with sleepList := next }
  | some p => s.setNext p next

/-- The branch of `check_sleepers` for a sleeper whose time has come. -/
def wakeSleeper (s : Sched) (prev : Option Proc) (curr : Proc) : Sched :=
  ((s.unlinkSleeper prev (s.pcb curr).next).setState curr .ready).enqueueProcess curr

/-- The loop of `check_sleepers`, with fuel. -/
def checkSleepersFrom : Nat → Sched → Option Proc → Option Proc → Option Sched
  | 0, _, _, _ => none
  | _ + 1, s, _, none => some s
  | fuel + 1, s, prev, some curr =>
    let next := (s.pcb curr).next
    if (s.pcb curr).wakeTick ≤ s.tickCount then
      checkSleepersFrom fuel (s.wakeSleeper prev curr) prev next
    else checkSleepersFrom fuel s (some curr) next

/-- `check_sleepers`.  There are 65 PCBs, so a loop that has not ended after a round for each
never ends. -/
def checkSleepers (s : Sched) : Option Sched := checkSleepersFrom 66 s none s.sleepList

/-- `pick_next_process` -/
def pickNextProcess (s : Sched) : Option Proc :=
  [Priority.realtime, .high, .normal, .low].findSome? (fun prio => (s.queues prio).head)

/-! ## 3. Calls that stay inside the scheduler -/

/-- `scheduler_yield` -/
def schedulerYield (s : Sched) : Sched :=
  match s.current with
  | none => s
  | some p =>
    if p = .idle then s
    else
      (if (s.pcb p).state = .running then s.enqueueProcess p else s).setCurrent none

/-- `scheduler_sleep_current`, up to the wait.  `wake_tick` has 32 bits, `tick_count` has 64. -/
def schedulerSleepCurrent (s : Sched) (ms : Nat) : Sched :=
  match s.current with
  | none => s
  | some p =>
    if p = .idle then s
    else
      let ticks := if ms / 10 = 0 then 1 else ms / 10
      s.modify p (fun c => { c with wakeTick := add32 s.tickCount ticks, state := .sleeping })

/-- `scheduler_destroy_process`: only the PCB is given back. -/
def schedulerDestroyProcess (s : Sched) (p : Proc) : Sched := s.releaseProcess p

/-- `sys_exit` (of `syscall.c`), up to its endless loop and without its message on the serial
port. -/
def sysExit (s : Sched) : Sched :=
  (match s.current with
    | none => s
    | some p => (s.setState p .terminated).schedulerDestroyProcess p).schedulerYield

/-- The end of `process_entry_trampoline`. -/
def entryReturned (s : Sched) (p : Proc) : Sched := s.setState p .terminated

/-- `tick_count++` of `irq0_handler`. -/
def timerTick (s : Sched) : Sched := { s with tickCount := (s.tickCount + 1) % 2 ^ 64 }

/-- What `scheduler_tick` does with the process it interrupts. -/
def preempt (s : Sched) (deltaMs : Nat) : Sched :=
  match s.current with
  | none => s
  | some p =>
    if (s.pcb p).state = .running then
      (((s.modify p (·.charge deltaMs)).setState p .ready).enqueueProcess p).setCurrent none
    else if (s.pcb p).state = .sleeping then
      ((s.modify p (·.charge deltaMs)).enqueueSleep p).setCurrent none
    else s

/-- The choice of the next process, and the scheduler with it as `current_process`. -/
def selectNext (s : Sched) : Proc × Sched :=
  match s.pickNextProcess with
  | some p =>
    (p, ((s.dequeueProcess (s.pcb p).priority).2.setState p .running).setCurrent (some p))
  | none => (.idle, s.setCurrent (some .idle))

end Sched

/-! ## 4. Calls that touch the machine -/

/-- What one `context_switch` did: the PCB it saved the old stack pointer in (`none`: the word at
address 60), and the stack pointer it loaded. -/
structure Switch where
  savedIn : Option Proc
  loaded : Nat
deriving DecidableEq, Repr

/-- `context_switch(&prev->stack_ptr, new_esp)` called with the stack pointer `esp`. -/
def contextSwitch (k : Kernel) (prev : Option Proc) (esp newEsp : Nat) :
    Option (Switch × Kernel) :=
  match prev with
  | some p => some (⟨some p, newEsp⟩,
      { k with sched := k.sched.modify p (fun c => { c with stackPtr := esp }) })
  | none => (k.mach.store32 60 esp).map (fun m => (⟨none, newEsp⟩, { k with mach := m }))

/-- `scheduler_tick`, entered so that `context_switch` would save `esp`; the switch it made, if it
made one. -/
def schedulerTick (k : Kernel) (deltaMs esp : Nat) : Option (Option Switch × Kernel) := do
  let prev := k.sched.current
  let s ← k.sched.checkSleepers
  let (curr, s) := (s.preempt deltaMs).selectNext
  if prev = some curr then some (none, { k with sched := s })
  else
    let pageDirectory := (s.pcb curr).pageDirectory
    let m := if pageDirectory ≠ 0 then vmmSwitchDirectory k.mach pageDirectory else k.mach
    let (sw, k) ← contextSwitch ⟨m, s⟩ prev esp (s.pcb curr).stackPtr
    some (some sw, k)

/-- The frame `scheduler_create_process` builds at the top of the stack page: the return address and
four zeroed registers. -/
def buildFrame (m : Machine) (sp trampoline : Nat) : Option Machine := do
  let m ← m.store32 (sub32 sp 4) trampoline
  let m ← m.store32 (sub32 sp 8) 0
  let m ← m.store32 (sub32 sp 12) 0
  let m ← m.store32 (sub32 sp 16) 0
  m.store32 (sub32 sp 20) 0

/-- The part of `scheduler_create_process` that works in the new address space: the stack page is
mapped there and the first frame is built. -/
def buildStack (L : Layout) (m : Machine) (pageDirectory stackPhys : Nat) : Option Machine := do
  let savedDir := vmmGetCurrentDirectory m
  let m := if pageDirectory ≠ 0 then vmmSwitchDirectory m pageDirectory else m
  let (_, m) ← vmmMapPage m stackPhys stackPhys pageWritable
  let m ← buildFrame m (add32 stackPhys 4096) L.trampoline
  some (vmmSwitchDirectory m savedDir)

/-- The memory `scheduler_create_process` asks for: the address space (0 is NULL) and the stack page
(0 if there is none, and then it stops there). -/
def processMemory (L : Layout) (m : Machine) : Option (Nat × Nat × Machine) := do
  let (dir, m) ← vmmCreateAddressSpace L m
  let (stackPhys, m) ← m.allocPage
  if stackPhys = 0 then some (dir, 0, m)
  else
    let m ← buildStack L m dir stackPhys
    some (dir, stackPhys, m)

/-- The fields `scheduler_create_process` sets before it asks for memory. -/
def Pcb.fresh (c : Pcb) (pid : Nat) (name : List UInt8) (priority : Priority) : Pcb :=
  { c with
    pid := pid, name := name.take 31, state := .ready, priority := priority, cpuTimeMs := 0,
    memoryPages := 0 }

/-- `scheduler_create_process`: the new process, or NULL. -/
def schedulerCreateProcess (L : Layout) (k : Kernel) (name : List UInt8) (entry arg : Nat)
    (priority : Priority) : Option (Option Proc × Kernel) :=
  match k.sched.allocateProcess with
  | (none, s) => some (none, { k with sched := s })
  | (some p, s) => do
    let s := { s with nextPid := add32 s.nextPid 1 }.modify p (·.fresh s.nextPid name priority)
    let (dir, stackPhys, m) ← processMemory L k.mach
    let s := s.modify p (fun c => { c with pageDirectory := dir, entryPoint := entry, arg := arg })
    if stackPhys = 0 then some (none, ⟨m, s.releaseProcess p⟩)
    else
      let sp := sub32 (add32 stackPhys 4096) 20
      let s := s.modify p (fun c =>
        { c with stackPhys := stackPhys, stackPtr := sp, next := none, prev := none })
      some (some p, ⟨m, s.enqueueProcess p⟩)

/-- `scheduler_fork_process` -/
def schedulerForkProcess (L : Layout) (k : Kernel) (parent : Proc) :
    Option (Option Proc × Kernel) :=
  let c := k.sched.pcb parent
  schedulerCreateProcess L k c.name c.entryPoint c.arg c.priority

end JarvOs.Process
