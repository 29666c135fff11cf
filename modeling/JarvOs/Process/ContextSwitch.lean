/-
# Context switches (`kernel/process/context_switch.asm`)

`context_switch` is entered on the stack of one process and returns on the stack of another.  Between
a process's call and its return there are the calls of all the others, so what it finds when it comes
back is a statement about MEMORY: its frame, four registers above a return address, has to lie
untouched on its stack, and `proc->stack_ptr` has to point there.

The processes' own work is not modelled: between two switches the running process may change the
registers as it likes, and every byte of its own stack or of memory that nobody has a saved frame or
a `stack_ptr` in.  `context_switch_transparent` says that then nobody notices a switch, and that a
process `scheduler_create_process` has set up starts at `process_entry_trampoline`.

Beside the system stands `saved`, what each suspended process is waiting to find again.  It is
bookkeeping: written down when a process calls `context_switch` or is created, and never read by the
code.
-/
import JarvOs.Lib.X86
import JarvOs.Process.ProcessMemory

namespace JarvOs.Process.Switching

open JarvOs.Lib JarvOs.Lib.X86 JarvOs.Memory

/-! ## 1. The code -/

/-- `context_switch` up to the save of the old stack position; the pointer to where it goes is
`old_esp_ptr`, the first argument. -/
def suspend : List Instr :=
  [.push .ebp, .push .ebx, .push .esi, .push .edi, .load .eax .esp 20, .store .eax .esp]

/-- The rest, from the load of the second argument, `new_esp`. -/
def resume : List Instr :=
  [.load .esp .esp 24, .pop .edi, .pop .esi, .pop .ebx, .pop .ebp, .ret]

/-- `context_switch(old_esp_ptr, new_esp)` -/
def contextSwitch : List Instr := suspend ++ resume

/-- The registers C code counts on across a call, and where it goes on. -/
structure Context where
  ebx : Word
  esi : Word
  edi : Word
  ebp : Word
  esp : Word
  eip : Word
deriving DecidableEq

/-- Where the processor is. -/
def context (c : Cpu) : Context :=
  ⟨c.regs .ebx, c.regs .esi, c.regs .edi, c.regs .ebp, c.sp, c.eip⟩

/-- Where the caller expects to be when a function that has just been entered returns. -/
def callContext (c : Cpu) : Context :=
  ⟨c.regs .ebx, c.regs .esi, c.regs .edi, c.regs .ebp, off c.sp 4, read32 c.mem c.sp⟩

/-- The `stack_ptr` of a suspended process. -/
def Context.frame (k : Context) : Word := off k.esp (-20)

/-- The frame of a suspended process, as its five words. -/
structure Framed (m : Memory) (k : Context) : Prop where
  edi : read32 m (off k.esp (-20)) = k.edi
  esi : read32 m (off k.esp (-16)) = k.esi
  ebx : read32 m (off k.esp (-12)) = k.ebx
  ebp : read32 m (off k.esp (-8)) = k.ebp
  eip : read32 m (off k.esp (-4)) = k.eip

theorem Framed.congr {m m' : Memory} {k : Context} (h : Framed m k)
    (hm : ∀ x, Within k.frame 20 x → m' x = m x) : Framed m' k := by
  have hslot : ∀ i : Int, -20 ≤ i → i ≤ -4 → read32 m' (off k.esp i) = read32 m (off k.esp i) := by
    intro i hlo hhi
    refine read32_congr (fun x hx => hm x ?_)
    obtain ⟨j, rfl⟩ := exists_off k.esp x
    rw [within_off] at hx
    rw [Context.frame, within_off]
    omega
  exact ⟨(hslot (-20) (by omega) (by omega)).trans h.edi,
    (hslot (-16) (by omega) (by omega)).trans h.esi, (hslot (-12) (by omega) (by omega)).trans h.ebx,
    (hslot (-8) (by omega) (by omega)).trans h.ebp, (hslot (-4) (by omega) (by omega)).trans h.eip⟩

/-- Memory after the four pushes. -/
def pushedMem (c : Cpu) : Memory :=
  write32 (write32 (write32 (write32 c.mem (off c.sp (-4)) (c.regs .ebp)) (off c.sp (-8))
    (c.regs .ebx)) (off c.sp (-12)) (c.regs .esi)) (off c.sp (-16)) (c.regs .edi)

/-- Memory after `mov [eax], esp`. -/
def switchedMem (c : Cpu) : Memory :=
  write32 (pushedMem c) (read32 c.mem (off c.sp 4)) (off c.sp (-16))

/-- The word the stack pointer is saved in lies apart from the caller's frame. -/
def SavesApart (c : Cpu) : Prop :=
  ∀ x, Within (read32 c.mem (off c.sp 4)) 4 x → ¬ Within (off c.sp (-16)) 28 x

/-- What is on the caller's stack, frame and arguments, is read past the saved stack pointer. -/
theorem SavesApart.read {c : Cpu} (h : SavesApart c) {i : Int} (hlo : -16 ≤ i) (hhi : i ≤ 8) :
    read32 (switchedMem c) (off c.sp i) = read32 (pushedMem c) (off c.sp i) := by
  refine read32_congr (fun x hx => write32_off fun hx' => h x hx' ?_)
  obtain ⟨j, rfl⟩ := exists_off c.sp x
  rw [within_off] at hx ⊢
  omega

theorem suspend_exec (c : Cpu) :
    ∃ d, exec c suspend = some d ∧ d.mem = switchedMem c ∧ d.sp = off c.sp (-16) := by
  refine ⟨_, rfl, ?_, ?_⟩
  · simp (disch := decide) [switchedMem, pushedMem, read32_write32_apart]
  · simp [Cpu.sp]

theorem resume_exec {d : Cpu} {k : Context} (hsp : read32 d.mem (off d.sp 24) = k.frame)
    (hf : Framed d.mem k) : ∃ d', exec d resume = some d' ∧ d'.mem = d.mem ∧ context d' = k := by
  refine ⟨_, rfl, rfl, ?_⟩
  simp [context, Cpu.sp, hsp, Context.frame, hf.edi, hf.esi, hf.ebx, hf.ebp, hf.eip]

/-- **One switch.**  The process whose frame `new_esp` points to goes on. -/
theorem contextSwitch_exec {c : Cpu} (h : SavesApart c) {k : Context}
    (hnew : read32 c.mem (off c.sp 8) = k.frame) (hf : Framed (switchedMem c) k) :
    ∃ d, exec c contextSwitch = some d ∧ d.mem = switchedMem c ∧ context d = k := by
  obtain ⟨d, hd, hmem, hsp⟩ := suspend_exec c
  have harg : read32 d.mem (off d.sp 24) = k.frame := by
    rw [hmem, hsp, off_off, h.read (by norm_num) (by norm_num)]
    simp (disch := decide) only [pushedMem, read32_write32_apart]
    exact hnew
  obtain ⟨d', hd', hmem', hctx⟩ := resume_exec harg (by rwa [hmem])
  refine ⟨d', ?_, hmem'.trans hmem, hctx⟩
  rw [contextSwitch, exec_append, hd, Option.bind_some, hd']

/-- The caller's own frame, and where it is. -/
theorem framed_caller {c : Cpu} (h : SavesApart c) : Framed (switchedMem c) (callContext c) := by
  constructor
  · rw [callContext, off_off, h.read (by norm_num) (by norm_num), pushedMem]
    exact read32_write32_same _ _ _
  all_goals
    rw [callContext, off_off, h.read (by norm_num) (by norm_num), pushedMem]
    simp (disch := decide) [read32_write32_apart, read32_write32_base]

/-! ## 2. Processes and their stacks -/

/-- Where the stacks and the `stack_ptr` members are: no two of them overlap. -/
structure Places (P : Type) where
  stack : P → Set Word
  slot : P → Word
  disjoint : ∀ {p q : P}, p ≠ q → ∀ {x : Word}, x ∈ stack p → x ∉ stack q
  slot_stack : ∀ {p q : P} {x : Word}, Within (slot p) 4 x → x ∉ stack q
  slot_slot : ∀ {p q : P}, p ≠ q → ∀ {x : Word}, Within (slot p) 4 x → ¬ Within (slot q) 4 x

variable {P : Type}

/-- The processor, whose stack it is on, and what the suspended processes wait to find again. -/
structure Sys (P : Type) where
  cpu : Cpu
  running : P
  saved : P → Option Context

/-- What happens: the running process works on, until the processor is as given; it calls
`context_switch` for `q`; or it sets up process `n` on a stack page. -/
inductive Op (P : Type)
  | work (c : Cpu)
  | switch (q : P)
  | create (n : P) (page : Word)

/-- The frame of `scheduler_create_process`, downwards from the top of the page. -/
def firstWords (m : Memory) (sp trampoline : Word) : Memory :=
  let m := write32 m (off sp (-4)) trampoline
  let m := write32 m (off sp (-8)) 0    -- ebp
  let m := write32 m (off sp (-12)) 0   -- ebx
  let m := write32 m (off sp (-16)) 0   -- esi
  write32 m (off sp (-20)) 0            -- edi

/-- The frame, and `proc->stack_ptr = sp`. -/
def firstFrame (m : Memory) (sp trampoline slot : Word) : Memory :=
  write32 (firstWords m sp trampoline) slot (off sp (-20))

/-- What a new process waits for: to enter `process_entry_trampoline` on an empty stack. -/
def startContext (trampoline page : Word) : Context := ⟨0, 0, 0, 0, off page 4096, trampoline⟩

/-- One event. -/
def step [DecidableEq P] (A : Places P) (trampoline : Word) (s : Sys P) : Op P → Option (Sys P)
  | .work c => some { s with cpu := c }
  | .switch q => (exec s.cpu contextSwitch).map (fun c =>
      ⟨c, q, Function.update (Function.update s.saved q none) s.running (some (callContext s.cpu))⟩)
  | .create n page => some { s with
      cpu := { s.cpu with mem := firstFrame s.cpu.mem (off page 4096) trampoline (A.slot n) }
      saved := Function.update s.saved n (some (startContext trampoline page)) }

/-- Memory in which nobody has a saved frame or a `stack_ptr`. -/
def Spare (A : Places P) (s : Sys P) (x : Word) : Prop :=
  (∀ q k, s.saved q = some k → ¬ Within k.frame 20 x) ∧ ∀ q, ¬ Within (A.slot q) 4 x

/-- A process writes to its own stack and to spare memory.  It calls
`context_switch(&self->stack_ptr, q->stack_ptr)` for a suspended process `q`, from its own stack;
and a new process gets a page of the stack that is its own. -/
def Legal (A : Places P) (s : Sys P) : Op P → Prop
  | .work c => ∀ x, c.mem x ≠ s.cpu.mem x → x ∈ A.stack s.running ∨ Spare A s x
  | .switch q => (s.saved q).isSome ∧ read32 s.cpu.mem (off s.cpu.sp 4) = A.slot s.running ∧
      read32 s.cpu.mem (off s.cpu.sp 8) = read32 s.cpu.mem (A.slot q) ∧
      ∀ x, Within (off s.cpu.sp (-16)) 28 x → x ∈ A.stack s.running
  | .create n page => n ≠ s.running ∧ s.saved n = none ∧ ∀ x, Within page 4096 x → x ∈ A.stack n

/-! ## 3. The invariant -/

/-- Every suspended process has its frame on its own stack, where its `stack_ptr` points. -/
structure Suspended (A : Places P) (m : Memory) (q : P) (k : Context) : Prop where
  own : ∀ x, Within k.frame 20 x → x ∈ A.stack q
  ptr : read32 m (A.slot q) = k.frame
  framed : Framed m k

/-- The running process has nothing saved, and the others are suspended. -/
def SwitchInv (A : Places P) (s : Sys P) : Prop :=
  s.saved s.running = none ∧ ∀ q k, s.saved q = some k → Suspended A s.cpu.mem q k

variable {A : Places P} {trampoline : Word} {s t : Sys P} {m m' : Memory} {p q : P} {k : Context}

theorem SwitchInv.ne (hs : SwitchInv A s) (hq : s.saved q = some k) : q ≠ s.running := by
  rintro rfl
  rw [hs.1] at hq
  exact absurd hq (by simp)

/-- A suspended process stays so while its frame and its `stack_ptr` are left alone. -/
theorem Suspended.congr (h : Suspended A m q k) (hf : ∀ x, Within k.frame 20 x → m' x = m x)
    (hs : ∀ x, Within (A.slot q) 4 x → m' x = m x) : Suspended A m' q k :=
  ⟨h.own, (read32_congr hs).trans h.ptr, h.framed.congr hf⟩

theorem switchInv_work (hs : SwitchInv A s) {c : Cpu} (hok : Legal A s (.work c)) :
    SwitchInv A { s with cpu := c } := by
  refine ⟨hs.1, fun q k hq => ?_⟩
  have hsusp := hs.2 q k hq
  refine hsusp.congr (fun x hx => ?_) (fun x hx => ?_)
  · by_contra hch
    rcases hok x hch with hown | ⟨hframe, -⟩
    · exact A.disjoint (hs.ne hq) (hsusp.own x hx) hown
    · exact hframe q k hq hx
  · by_contra hch
    rcases hok x hch with hown | ⟨-, hslot⟩
    · exact A.slot_stack hx hown
    · exact hslot q hx

/-- What `context_switch` writes: the caller's stack and its `stack_ptr`. -/
theorem switchedMem_off {c : Cpu} {x : Word} (hstack : ¬ Within (off c.sp (-16)) 28 x)
    (hslot : ¬ Within (read32 c.mem (off c.sp 4)) 4 x) : switchedMem c x = c.mem x := by
  have hne : ∀ i : Int, -16 ≤ i → i ≤ -4 → ¬ Within (off c.sp i) 4 x := fun i hlo hhi hx => by
    obtain ⟨j, rfl⟩ := exists_off c.sp x
    rw [within_off] at hx hstack
    omega
  rw [switchedMem, write32_off hslot, pushedMem, write32_off (hne _ (by norm_num) (by norm_num)),
    write32_off (hne _ (by norm_num) (by norm_num)), write32_off (hne _ (by norm_num) (by norm_num)),
    write32_off (hne _ (by norm_num) (by norm_num))]

theorem savesApart_of_legal (hok : Legal A s (.switch q)) : SavesApart s.cpu := by
  obtain ⟨-, harg, -, hown⟩ := hok
  intro x hx hx'
  rw [harg] at hx
  exact A.slot_stack hx (hown x hx')

variable [DecidableEq P]

/-- **One switch of the system**: the process that was waited for is back where it was, and the one
that has called is suspended. -/
theorem switch_spec (trampoline : Word) (hs : SwitchInv A s) (hok : Legal A s (.switch q))
    (hq : s.saved q = some k) :
    ∃ t, step A trampoline s (.switch q) = some t ∧ t.running = q ∧ context t.cpu = k ∧
      SwitchInv A t := by
  obtain ⟨-, harg, hnew, hown⟩ := id hok
  have happ := savesApart_of_legal hok
  -- the others' frames and `stack_ptr` are neither on this stack nor in this `stack_ptr`
  have hkeep : ∀ {r k'}, s.saved r = some k' → Suspended A (switchedMem s.cpu) r k' := by
    intro r k' hr
    have hsusp := hs.2 r k' hr
    refine hsusp.congr (fun x hx => switchedMem_off (fun hx' => ?_) (fun hx' => ?_))
      (fun x hx => switchedMem_off (fun hx' => ?_) (fun hx' => ?_))
    · exact A.disjoint (hs.ne hr) (hsusp.own x hx) (hown x hx')
    · rw [harg] at hx'
      exact A.slot_stack hx' (hsusp.own x hx)
    · exact A.slot_stack hx (hown x hx')
    · rw [harg] at hx'
      exact A.slot_slot (hs.ne hr) hx hx'
  obtain ⟨d, hd, hmem, hctx⟩ := contextSwitch_exec happ (hnew.trans (hs.2 q k hq).ptr)
    (hkeep hq).framed
  refine ⟨_, by rw [step, hd]; rfl, rfl, hctx, ?_, fun r k' hr => ?_⟩
  · simp only [Function.update_of_ne (hs.ne hq), Function.update_self]
  · simp only [hmem]
    simp only [Function.update_apply] at hr
    split at hr
    · rename_i heq
      subst heq
      obtain rfl := Option.some.inj hr
      refine ⟨fun x hx => hown x ?_, ?_, framed_caller happ⟩
      · obtain ⟨j, rfl⟩ := exists_off s.cpu.sp x
        rw [Context.frame, callContext, off_off, within_off] at hx
        rw [within_off]
        omega
      · rw [← harg, switchedMem, read32_write32_same, Context.frame, callContext, off_off]
        rfl
    · split at hr
      · exact absurd hr (by simp)
      · exact hkeep hr

/-- What setting up a process writes: its stack page and its `stack_ptr`. -/
theorem firstFrame_off {page slot x : Word} (hpage : ¬ Within page 4096 x)
    (hslot : ¬ Within slot 4 x) :
    firstFrame m (off page 4096) trampoline slot x = m x := by
  have hne : ∀ i : Int, -20 ≤ i → i ≤ -4 → ¬ Within (off (off page 4096) i) 4 x := by
    intro i hlo hhi hx
    obtain ⟨j, rfl⟩ := exists_off page x
    have hpage' : ¬ Within (off page 0) 4096 (off page j) := by rwa [off_zero]
    rw [off_off, within_off] at hx
    rw [within_off] at hpage'
    omega
  rw [firstFrame, write32_off hslot, firstWords, write32_off (hne _ (by norm_num) (by norm_num)),
    write32_off (hne _ (by norm_num) (by norm_num)), write32_off (hne _ (by norm_num) (by norm_num)),
    write32_off (hne _ (by norm_num) (by norm_num)), write32_off (hne _ (by norm_num) (by norm_num))]

/-- The bytes of the first frame are bytes of the page. -/
theorem startContext_page {page x : Word} (hx : Within (startContext trampoline page).frame 20 x) :
    Within page 4096 x := by
  obtain ⟨j, rfl⟩ := exists_off page x
  rw [Context.frame, startContext, off_off, within_off] at hx
  have : Within (off page 0) 4096 (off page j) := by
    rw [within_off]
    omega
  rwa [off_zero] at this

theorem framed_start {page slot : Word} (h : ∀ x, Within slot 4 x → ¬ Within page 4096 x) :
    Framed (firstFrame m (off page 4096) trampoline slot) (startContext trampoline page) := by
  have hwords : Framed (firstWords m (off page 4096) trampoline) (startContext trampoline page) := by
    constructor <;> simp (disch := decide) [firstWords, startContext, read32_write32_apart]
  -- `stack_ptr` is elsewhere
  exact hwords.congr (fun x hx => write32_off fun hx' => h x hx' (startContext_page hx))

theorem switchInv_create (hs : SwitchInv A s) {n : P} {page : Word}
    (hok : Legal A s (.create n page)) (hst : step A trampoline s (.create n page) = some t) :
    SwitchInv A t := by
  obtain ⟨hn, -, hpage⟩ := hok
  obtain rfl := Option.some.inj hst
  refine ⟨?_, fun r k hr => ?_⟩
  · simp only [Function.update_of_ne (Ne.symm hn)]
    exact hs.1
  · simp only [Function.update_apply] at hr
    split at hr
    · rename_i heq
      subst heq
      obtain rfl := Option.some.inj hr
      refine ⟨fun x hx => hpage x (startContext_page hx), ?_,
        framed_start (fun x hx hx' => A.slot_stack hx (hpage x hx'))⟩
      exact read32_write32_same _ _ _
    · rename_i hne
      have hsusp := hs.2 r k hr
      refine hsusp.congr (fun x hx => firstFrame_off (fun hx' => ?_) (fun hx' => ?_))
        (fun x hx => firstFrame_off (fun hx' => ?_) (fun hx' => ?_))
      · exact A.disjoint hne (hsusp.own x hx) (hpage x hx')
      · exact A.slot_stack hx' (hsusp.own x hx)
      · exact A.slot_stack hx (hpage x hx')
      · exact A.slot_slot hne hx hx'

theorem switchInv_step (hs : SwitchInv A s) {o : Op P} (hok : Legal A s o)
    (hst : step A trampoline s o = some t) : SwitchInv A t := by
  cases o with
  | work c =>
    obtain rfl := Option.some.inj hst
    exact switchInv_work hs hok
  | switch q =>
    obtain ⟨k, hq⟩ := Option.isSome_iff_exists.mp hok.1
    obtain ⟨t', ht', -, -, hinv⟩ := switch_spec trampoline hs hok hq
    rwa [Option.some.inj (hst.symm.trans ht')]
  | create n page => exact switchInv_create hs hok hst

/-! ## 4. Whole histories -/

/-- The kernel before there is a second process. -/
def boot (c : Cpu) (p : P) : Sys P := ⟨c, p, fun _ => none⟩

/-- Legal, and not a switch to `p`. -/
def Away (A : Places P) (p : P) (s : Sys P) (o : Op P) : Prop := Legal A s o ∧ o ≠ .switch p

theorem switch_saved (hst : step A trampoline s (.switch q) = some t) : t.saved =
    Function.update (Function.update s.saved q none) s.running (some (callContext s.cpu)) := by
  rw [step, Option.map_eq_some_iff] at hst
  obtain ⟨c, -, rfl⟩ := hst
  rfl

/-- Nothing but a switch to it changes what a process waits for. -/
theorem saved_step (hs : SwitchInv A s) (hp : s.saved p = some k) {o : Op P} (hok : Away A p s o)
    (hst : step A trampoline s o = some t) : t.saved p = some k := by
  obtain ⟨hok, hne⟩ := hok
  cases o with
  | work c =>
    obtain rfl := Option.some.inj hst
    exact hp
  | switch q =>
    have hpq : p ≠ q := fun h => hne (h ▸ rfl)
    rw [switch_saved hst, Function.update_of_ne (hs.ne hp), Function.update_of_ne hpq]
    exact hp
  | create n page =>
    obtain rfl := Option.some.inj hst
    have hpn : p ≠ n := by
      rintro rfl
      exact absurd (hp.symm.trans hok.2.1) (by simp)
    simp only [Function.update_of_ne hpn]
    exact hp

theorem switchInv_reach {c₀ : Cpu} {p₀ : P}
    (h : Reach (step A trampoline) (Legal A) (boot c₀ p₀) s) : SwitchInv A s :=
  h.inv ⟨rfl, fun q k hq => absurd hq (by simp [boot])⟩
    (fun _ _ _ hs hok hst => switchInv_step hs hok hst)

/-- A process that waits for `k` is at `k` when it is switched to. -/
theorem resumes (hs : SwitchInv A s) (hp : s.saved p = some k)
    (h : Reach (step A trampoline) (Away A p) s t) (hok : Legal A t (.switch p)) :
    ∃ u, step A trampoline t (.switch p) = some u ∧ u.running = p ∧ context u.cpu = k := by
  obtain ⟨hinv, hsaved⟩ := h.inv (I := fun t => SwitchInv A t ∧ t.saved p = some k) ⟨hs, hp⟩
    (fun _ _ _ hs hok hst => ⟨switchInv_step hs.1 hok.1 hst, saved_step hs.1 hs.2 hok hst⟩)
  obtain ⟨u, hu, hrun, hctx, -⟩ := switch_spec trampoline hinv hok hsaved
  exact ⟨u, hu, hrun, hctx⟩

/-- **Context switches are transparent.**  In every state a legal history reaches: if the running
process calls `context_switch`, then after any legal events that do not switch to it the next switch
to it brings back the registers `ebx`, `esi`, `edi`, `ebp` it had, its stack pointer after the return
and its return address.  And a process that is set up on a page starts, at the first switch to it,
at `process_entry_trampoline` with these registers zero and the stack pointer at the top of the
page. -/
theorem context_switch_transparent (A : Places P) (trampoline : Word) {c₀ : Cpu} {p₀ : P} {s : Sys P}
    (hs : Reach (step A trampoline) (Legal A) (boot c₀ p₀) s) :
    (∀ q t u, Legal A s (.switch q) → step A trampoline s (.switch q) = some t →
      Reach (step A trampoline) (Away A s.running) t u → Legal A u (.switch s.running) →
      ∃ v, step A trampoline u (.switch s.running) = some v ∧ v.running = s.running ∧
        context v.cpu = callContext s.cpu) ∧
    (∀ n page t u, Legal A s (.create n page) → step A trampoline s (.create n page) = some t →
      Reach (step A trampoline) (Away A n) t u → Legal A u (.switch n) →
      ∃ v, step A trampoline u (.switch n) = some v ∧ v.running = n ∧
        context v.cpu = ⟨0, 0, 0, 0, off page 4096, trampoline⟩) := by
  have hinv := switchInv_reach hs
  refine ⟨fun q t u hok hst hreach hback => ?_, fun n page t u hok hst hreach hin => ?_⟩
  · refine resumes (switchInv_step hinv hok hst) ?_ hreach hback
    rw [switch_saved hst, Function.update_self]
  · refine resumes (switchInv_step hinv hok hst) ?_ hreach hin
    obtain rfl := Option.some.inj hst
    exact Function.update_self ..

section TwoStacks

variable {p q : Bool}

theorem stackPages_disjoint (hpq : p ≠ q) {x : Word}
    (hx : Within (if p then 0x2000 else 0x1000) 4096 x) :
    ¬ Within (if q then 0x2000 else 0x1000) 4096 x := by
  cases p <;> cases q <;> simp [Within] at * <;> bv_omega

theorem slots_below_stacks {x : Word} (hx : Within (if p then 0x104 else 0x100) 4 x) :
    ¬ Within (if q then 0x2000 else 0x1000) 4096 x := by
  cases p <;> cases q <;> simp [Within] at * <;> bv_omega

theorem slots_disjoint (hpq : p ≠ q) {x : Word} (hx : Within (if p then 0x104 else 0x100) 4 x) :
    ¬ Within (if q then 0x104 else 0x100) 4 x := by
  cases p <;> cases q <;> simp [Within] at * <;> bv_omega

end TwoStacks

/-- Two stack pages, and two `stack_ptr` members below them. -/
def twoStacks : Places Bool where
  stack p := {x | Within (if p then 0x2000 else 0x1000) 4096 x}
  slot p := if p then 0x104 else 0x100
  disjoint := stackPages_disjoint
  slot_stack := slots_below_stacks
  slot_slot := slots_disjoint

/-- The first process at work, on the first page. -/
def sampleCpu : Cpu where
  regs r := if r = .esp then 0x1F00 else 7
  segs _ := 0x10
  eip := 0x100200
  mem _ := 0
  zeroExtends := true

/-- It has set up the second process and pushed the arguments of a switch to it. -/
def sampleCall : Memory :=
  write32 (write32 (firstFrame sampleCpu.mem (off 0x2000 4096) 0x100000 0x104) 0x1F04 0x100) 0x1F08
    0x2FEC

theorem sampleCall_legal : Legal twoStacks (P := Bool)
    ⟨{ sampleCpu with mem := firstFrame sampleCpu.mem (off 0x2000 4096) 0x100000 0x104 }, false,
      Function.update (fun _ => none) true (some (startContext 0x100000 0x2000))⟩
    (.work { sampleCpu with mem := sampleCall }) := by
  intro x hx
  refine Or.inl ?_
  have hx' : Within (0x1F04 : Word) 4 x ∨ Within (0x1F08 : Word) 4 x := by
    by_contra hno
    rw [not_or] at hno
    exact hx (by simp only [sampleCall, write32_off hno.1, write32_off hno.2])
  have hstack : Within (0x1000 : Word) 4096 x := by
    simp only [Within] at hx' ⊢
    bv_omega
  exact hstack

/-- The second process starts. -/
theorem context_switch_transparent_start : ∃ v,
    step twoStacks 0x100000 ⟨{ sampleCpu with mem := sampleCall }, false,
      Function.update (fun _ => none) true (some (startContext 0x100000 0x2000))⟩ (.switch true) =
        some v ∧
    v.running = true ∧ context v.cpu = ⟨0, 0, 0, 0, 0x3000, 0x100000⟩ := by
  have hcreate : Legal twoStacks (boot sampleCpu false) (.create true 0x2000) :=
    ⟨by decide, rfl, fun x hx => hx⟩
  refine (context_switch_transparent twoStacks 0x100000 .refl).2 true 0x2000 _ _ hcreate rfl
    (.tail .refl ⟨sampleCall_legal, by simp⟩ rfl) ⟨rfl, by decide +kernel, by decide +kernel, ?_⟩
  intro x hx
  have hx' : Within (0x1EF0 : Word) 28 x := hx
  have hstack : Within (0x1000 : Word) 4096 x := by
    simp only [Within] at hx' ⊢
    bv_omega
  exact hstack

/-! ## 5. The first frame on the page tables -/

/-- The bytes of physical memory. -/
def flat (mem : Mem) : Memory := fun x => (mem x.toNat).toBitVec

theorem flat_setWord (mem : Mem) {a : Nat} (ha : a + 4 ≤ 2 ^ 32) (v : Nat) :
    flat (setWord mem a v) = write32 (flat mem) (BitVec.ofNat 32 a) (BitVec.ofNat 32 v) := by
  funext x
  have hsub : (x - BitVec.ofNat 32 a).toNat = (2 ^ 32 - a + x.toNat) % 2 ^ 32 := by
    rw [BitVec.toNat_sub, BitVec.toNat_ofNat, Nat.mod_eq_of_lt (show a < 2 ^ 32 by omega)]
  have hx := x.isLt
  simp only [flat, setWord, write32, Within, hsub]
  by_cases hin : a ≤ x.toNat ∧ x.toNat < a + 4
  · obtain ⟨k, hk⟩ : ∃ k, x.toNat = a + k := ⟨x.toNat - a, by omega⟩
    have hmod : (2 ^ 32 - a + x.toNat) % 2 ^ 32 = k := by omega
    have hk4 : k < 4 := by omega
    rw [if_pos hin, hmod, if_pos hk4, hk, Nat.add_sub_cancel_left]
    refine BitVec.eq_of_toNat_eq ?_
    rw [← UInt8.toNat, toNat_byteOf, BitVec.extractLsb'_toNat, BitVec.toNat_ofNat,
      Nat.shiftRight_eq_div_pow]
    interval_cases k <;> omega
  · rw [if_neg hin, if_neg (by omega)]

theorem off_ofNat_sub {a n : Nat} : off (BitVec.ofNat 32 (a + n)) (-(n : Int)) = BitVec.ofNat 32 a := by
  rw [off, BitVec.ofInt_neg, BitVec.ofInt_natCast, BitVec.ofNat_add]
  ring

/-- **`scheduler_create_process` builds this frame** through the page tables. -/
theorem buildFrame_flat {L : Layout} {T : Prop} {Low : Nat → Nat → Prop} {m : Machine}
    {spaces : List Nat} {q trampoline : Nat} (hS : LowSpec T Low) (hM : MachInv L Low m spaces)
    (hlow : q < 20480) (hq : ¬ InUse L (tables m.mem) spaces q) (ht : trampoline < 2 ^ 32) :
    Ensures T (Process.buildFrame m (add32 (4096 * q) 4096) trampoline) (fun m' =>
      flat m'.mem = firstWords (flat m.mem) (BitVec.ofNat 32 (4096 * q + 4096))
        (BitVec.ofNat 32 trampoline)) := by
  have hslot : ∀ a n : Nat, a + n = 4096 →
      off (BitVec.ofNat 32 (4096 * q + 4096)) (-(n : Int)) = BitVec.ofNat 32 (4096 * q + a) := by
    intro a n han
    rw [← han, ← Nat.add_assoc, off_ofNat_sub]
  refine (buildFrame_spec hS hM hlow hq ht).mono ?_
  rintro m' ⟨-, hmem⟩
  have h4 := hslot 4092 4 rfl
  have h8 := hslot 4088 8 rfl
  have h12 := hslot 4084 12 rfl
  have h16 := hslot 4080 16 rfl
  have h20 := hslot 4076 20 rfl
  push_cast at h4 h8 h12 h16 h20
  rw [hmem, frameMem, flat_setWord _ (by omega), flat_setWord _ (by omega), flat_setWord _ (by omega),
    flat_setWord _ (by omega), flat_setWord _ (by omega), firstWords, h4, h8, h12, h16, h20]
  rfl

end JarvOs.Process.Switching
