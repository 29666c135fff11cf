/-
# Ring 3 (`kernel/core/usermode.c`)

The only way down to ring 3 is to return from an interrupt: `enter_usermode` builds the frame of one that
never happened, with the user's selectors in it, and executes `iret`.  The way back up is a gate of the
interrupt descriptor table, on the stack the TSS names.  Five files have a part in that: the selectors are
those of `gdt.c`, the stack is set by `tss.c`, the gates by `idt.c`, and the way through the kernel is
`syscall_stub.asm`.

`softInt_ring3` is what keeps ring 3 out: of the 256 vectors, `int n` passes for one.

`ring3_run` is what the user sees, over any number of system calls and any code in between.  A call comes
back with every register but `eax`, the stack and the flags as they were; the kernel starts each one at the
same address of the same stack, so nothing piles up there.  But the `cli` of `enter_usermode` is never taken
back: the flags it pushes have IF clear, ring 3 may not set it, and every return restores it clear.  From
the first instruction of ring 3 on no timer interrupt gets through.
-/
import JarvOs.Core.InterruptStubs
import JarvOs.Core.Interrupts
import JarvOs.Lib.Trace

namespace JarvOs.Core

open JarvOs.Lib JarvOs.Lib.X86 JarvOs.Syscall

/-! ## 1. Rings -/

/-- The processor with its stack segment. -/
structure Ringed where
  core : Processor
  ss : BitVec 16

/-- The ring: the low bits of `cs`. -/
def Ringed.cpl (r : Ringed) : BitVec 2 := r.core.cs.extractLsb' 0 2

def IdtEntry.kind (e : IdtEntry) : BitVec 4 := e.flags.extractLsb' 0 4

def IdtEntry.dpl (e : IdtEntry) : BitVec 2 := e.flags.extractLsb' 5 2

def IdtEntry.present (e : IdtEntry) : Bool := e.flags.getLsbD 7

/-- The flags behind a gate: an interrupt gate clears IF, a trap gate does not. -/
def IdtEntry.newFlags (e : IdtEntry) (eflags : Word) : Word :=
  if e.kind = 0xE#4 then gateFlags eflags else eflags &&& ~~~0x00034100#32

/-- A gate to ring 0.  From an outer ring the stack is the one of the TSS, and the old one is pushed
first. -/
def Ringed.enter (r : Ringed) (tss : TssEntry) (e : IdtEntry) : Ringed :=
  let outer := r.core.cpu.set .esp tss.esp0
  let outer := outer.push (outer.upper ++ r.ss)
  let outer := outer.push r.core.cpu.sp
  let d := if r.cpl = 0 then r.core.cpu else outer
  let d := d.push r.core.eflags
  let d := d.push (d.upper ++ r.core.cs)
  let d := d.push r.core.cpu.eip
  { core := ⟨{ d with eip := e.handler }, e.sel, e.newFlags r.core.eflags⟩
    ss := if r.cpl = 0 then r.ss else tss.ss0.setWidth 16 }

/-- `int n`, or the exception it raises instead.  There are no task gates here. -/
def Ringed.softInt (r : Ringed) (idt : Idt) (tss : TssEntry) (n : BitVec 8) : Except Nat Ringed :=
  let e := idt.get n.toFin
  if e.kind ≠ 0xE#4 ∧ e.kind ≠ 0xF#4 then .error 13
  else if e.dpl < r.cpl then .error 13
  else if e.present then .ok (r.enter tss e)
  else .error 11

/-- On the way to an outer ring the selectors of inner ones are lost. -/
def outward (s : Segments) (cpl : BitVec 2) (sel : BitVec 16) : BitVec 16 :=
  if sel >>> 3 = 0 then sel
  else
    match s.selected sel with
    | some d => if d.dpl < cpl then 0 else sel
    | none => sel

/-- `iretd`: an outer ring gets its stack back as well. -/
def Ringed.iretd (s : Segments) (r : Ringed) : Ringed :=
  let m := r.core.cpu.mem
  let sp := r.core.cpu.sp
  let back := r.core.iretd
  let cpl := back.cs.extractLsb' 0 2
  if cpl ≤ r.cpl then { r with core := back }
  else
    { core := { back with cpu := { back.cpu.set .esp (read32 m (off sp 12)) with
        segs := fun g => outward s cpl (back.cpu.segs g) } }
      ss := (read32 m (off sp 16)).setWidth 16 }

/-! ## 2. The code -/

/-- `cli` -/
def cli (eflags : Word) : Word := eflags &&& ~~~0x00000200#32

/-- `enter_usermode` behind its `cli` and up to the `iret`; `eflags` is what `pushf` pushes. -/
def usermodeFrame (eflags entry userStackTop : Word) : List Instr :=
  [.movLow .eax 0x23, .movSeg .ds .eax, .movSeg .es .eax, .movSeg .fs .eax, .movSeg .gs .eax,
    .pushImm 0x23, .pushImm userStackTop, .pushImm eflags, .pop .eax, .push .eax, .pushImm 0x1B,
    .pushImm entry]

/-- `enter_usermode` -/
def enterUsermode (s : Segments) (r : Ringed) (entry userStackTop : Word) : Option Ringed :=
  let eflags := cli r.core.eflags
  (exec r.core.cpu (usermodeFrame eflags entry userStackTop)).map
    (fun d => Ringed.iretd s { r with core := ⟨d, r.core.cs, eflags⟩ })

/-- `int 0x80`, the stub, and its `iretd`. -/
def Ringed.syscall (K : Linked) (s : Segments) (idt : Idt) (r : Ringed) : Option Ringed :=
  match r.softInt idt s.tss 0x80#8 with
  | .ok r' => (exec r'.core.cpu (syscallStub K)).map
      (fun d => Ringed.iretd s { r' with core := { r'.core with cpu := d } })
  | .error _ => none

/-! ## 3. Gates -/

variable {r r' : Ringed} {s : Segments} {isr : Nat → Word} {stub : Word} {idt : Idt} {tss : TssEntry}

/-- **Ring 3 gets into ring 0 by `int 0x80` and by no other `int n`**, at `syscall_stub` and on the stack
of the TSS; every other vector is a general protection fault. -/
theorem softInt_ring3 (hr : r.cpl = 3#2) (isr : Nat → Word) (stub : Word) (idt : Idt) (tss : TssEntry)
    (n : BitVec 8) : r.softInt (idtInit isr stub idt) tss n =
      if n = 0x80#8 then .ok (r.enter tss (gate stub kernelCs 0xEE#8)) else .error 13 := by
  have hn := n.isLt
  have hentry : (idtInit isr stub idt).get n.toFin = _ := idtInit_getElem isr stub idt hn
  have hring0 : ∀ base, (gate base kernelCs 0x8E#8).dpl = 0#2 :=
    fun _ => (by decide : (0x8E#8).extractLsb' 5 2 = 0#2)
  have hring3 : ∀ base, (gate base kernelCs 0xEE#8).dpl = 3#2 :=
    fun _ => (by decide : (0xEE#8).extractLsb' 5 2 = 3#2)
  have hkind0 : ∀ base, (gate base kernelCs 0x8E#8).kind = 0xE#4 :=
    fun _ => (by decide : (0x8E#8).extractLsb' 0 4 = 0xE#4)
  have hkind3 : ∀ base, (gate base kernelCs 0xEE#8).kind = 0xE#4 :=
    fun _ => (by decide : (0xEE#8).extractLsb' 0 4 = 0xE#4)
  have hpresent : ∀ base, (gate base kernelCs 0xEE#8).present = true :=
    fun _ => (by decide : (0xEE#8).getLsbD 7 = true)
  have hnone : (gate 0#32 0#16 0#8).kind = 0#4 := (by decide : (0#8).extractLsb' 0 4 = 0#4)
  rw [Ringed.softInt]
  simp only [hentry]
  by_cases h48 : n.toNat < 48
  · have hne : n ≠ 0x80#8 := by
      rintro rfl
      exact absurd h48 (by decide)
    rw [if_pos h48, hkind0, hring0, hr, if_neg (by decide), if_pos (by decide), if_neg hne]
  · rw [if_neg h48]
    by_cases h80 : n.toNat = 0x80
    · have hn80 : n = 0x80#8 := BitVec.eq_of_toNat_eq h80
      rw [if_pos h80, hkind3, hring3, hr, hpresent, if_neg (by decide), if_neg (by decide), if_pos rfl,
        if_pos hn80]
    · have hne : n ≠ 0x80#8 := by
        rintro rfl
        exact h80 rfl
      rw [if_neg h80, hnone, if_pos (by decide), if_neg hne]

/-- The processor of `atOne`, in ring 3. -/
def atOneUser : Ringed := ⟨{ atOne with cs := userCs }, userDs⟩

/-- A table of interrupts, with the stubs at fixed addresses. -/
def bootedIdt : Idt := idtInit (fun _ => 0x101000) 0x101400 (Vector.replicate 256 (gate 0#32 0#16 0#8))

/-- The timer's vector is not for ring 3. -/
theorem softInt_ring3_timer : atOneUser.cpl = 3#2 ∧
    atOneUser.softInt bootedIdt ⟨0x180000, 0x10, 104⟩ 32#8 = .error 13 :=
  ⟨by decide, (softInt_ring3 (r := atOneUser) (by decide) _ _ _ _ 32#8).trans (if_neg (by decide))⟩

/-! ## 4. Down to ring 3 -/

/-- The five words of the frame. -/
theorem usermodeFrame_exec (c : Cpu) (eflags entry top : Word) :
    ∃ d, exec c (usermodeFrame eflags entry top) = some d ∧ d.sp = off c.sp (-20) ∧
      read32 d.mem d.sp = entry ∧ read32 d.mem (off d.sp 4) = 0x1B ∧
      read32 d.mem (off d.sp 8) = eflags ∧ read32 d.mem (off d.sp 12) = top ∧
      read32 d.mem (off d.sp 16) = 0x23 ∧ ∀ g, d.segs g = userDs := by
  have hlow : ∀ x : BitVec 16, (x ++ 0x23#16).setWidth 16 = userDs :=
    fun x => BitVec.setWidth_append_eq_right
  refine ⟨_, rfl, ?_, ?_, ?_, ?_, ?_, ?_, fun g => ?_⟩
  · simp [Cpu.sp]
  · simp [Cpu.sp]
  · simp (disch := decide) [Cpu.sp, read32_write32_apart]
  · simp (disch := decide) [Cpu.sp, read32_write32_apart]
  · simp (disch := decide) [Cpu.sp, read32_write32_apart]
  · simp (disch := decide) [Cpu.sp, read32_write32_apart]
  · cases g <;> (simp; exact hlow _)

/-- A selector that ring 3 may have: of its own ring, or none. -/
def UserSelector (s : Segments) (sel : BitVec 16) : Prop := outward s 3#2 sel = sel

/-- In ring 3, with interrupts off for good: IF and IOPL, bits 9, 12 and 13 of the flags, are clear. -/
structure InRing3 (s : Segments) (u : Ringed) : Prop where
  cs : u.core.cs = userCs
  ss : u.ss = userDs
  segs : ∀ g, UserSelector s (u.core.cpu.segs g)
  flags : u.core.eflags &&& 0x00003200#32 = 0

theorem InRing3.cpl {u : Ringed} (h : InRing3 s u) : u.cpl = 3#2 := by
  rw [Ringed.cpl, h.cs]
  decide

theorem InRing3.interruptible {u : Ringed} (h : InRing3 s u) : u.core.interruptible = false := by
  have hbit := congrArg (fun w : Word => w.getLsbD 9) h.flags
  simpa [Processor.interruptible] using hbit

/-- The user's data segment is one. -/
theorem userSelector_userDs {tssAt esp0 : Word} (hb : Booted tssAt esp0 s) : UserSelector s userDs := by
  have hsel := hb.segment (userDs, flat 0xF2#8) (by decide)
  rw [UserSelector, outward, if_neg (by decide), hsel]
  decide

/-- **`enter_usermode`** ends in ring 3, at the given address and on the given stack. -/
theorem enterUsermode_ring3 {tssAt esp0 : Word} (hb : Booted tssAt esp0 s) (hring : r.cpl = 0#2)
    (hiopl : r.core.eflags &&& 0x00003000#32 = 0) (entry top : Word) :
    ∃ u, enterUsermode s r entry top = some u ∧ InRing3 s u ∧ u.core.cpu.eip = entry ∧
      u.core.cpu.sp = top := by
  obtain ⟨d, hd, -, heip, hcs, hflags, hsp, hss, hsegs⟩ :=
    usermodeFrame_exec r.core.cpu (cli r.core.eflags) entry top
  have hring' : ({ r with core := ⟨d, r.core.cs, cli r.core.eflags⟩ } : Ringed).cpl = 0#2 := hring
  have hcpl : ((read32 d.mem (off d.sp 4)).setWidth 16).extractLsb' 0 2 = 3#2 := by
    rw [hcs]
    decide
  refine ⟨_, by rw [enterUsermode, hd, Option.map_some], ?_⟩
  simp only [Ringed.iretd, Processor.iretd, hring', hcpl]
  rw [if_neg (by decide)]
  refine ⟨⟨?_, ?_, fun g => ?_, ?_⟩, heip, ?_⟩
  · simp only [hcs]
    decide
  · simp only [hss]
    decide
  · simp only [Cpu.drop_segs, hsegs]
    rw [userSelector_userDs hb]
    exact userSelector_userDs hb
  · simp only [hflags, cli]
    rw [BitVec.and_assoc, show ~~~0x00000200#32 &&& 0x00003200#32 = 0x00003000#32 by decide, hiopl]
  · simp [Cpu.sp, hsp]

/-! ## 5. A system call -/

/-- The frame of an interrupt from an outer ring, on the stack of the TSS. -/
theorem enter_frame (hr : r.cpl ≠ 0) (tss : TssEntry) (e : IdtEntry) :
    (r.enter tss e).core.cpu.sp = off tss.esp0 (-20) ∧
    (∀ q, q ≠ .esp → (r.enter tss e).core.cpu.regs q = r.core.cpu.regs q) ∧
    (r.enter tss e).core.cpu.segs = r.core.cpu.segs ∧
    read32 (r.enter tss e).core.cpu.mem (off tss.esp0 (-20)) = r.core.cpu.eip ∧
    (read32 (r.enter tss e).core.cpu.mem (off tss.esp0 (-16))).setWidth 16 = r.core.cs ∧
    read32 (r.enter tss e).core.cpu.mem (off tss.esp0 (-12)) = r.core.eflags ∧
    read32 (r.enter tss e).core.cpu.mem (off tss.esp0 (-8)) = r.core.cpu.sp ∧
    (read32 (r.enter tss e).core.cpu.mem (off tss.esp0 (-4))).setWidth 16 = r.ss := by
  simp only [Ringed.enter, if_neg hr]
  refine ⟨?_, fun q hq => ?_, rfl, ?_, ?_, ?_, ?_, ?_⟩
  · simp [Cpu.sp]
  · simp [hq]
  · simp [Cpu.sp]
  · simp (disch := decide) [Cpu.sp, read32_write32_apart, Cpu.setWidth_upper]
  · simp (disch := decide) [Cpu.sp, read32_write32_apart]
  · simp (disch := decide) [Cpu.sp, read32_write32_apart]
  · simp (disch := decide) [Cpu.sp, read32_write32_apart, Cpu.setWidth_upper]

variable {K : Linked}

/-- If the stub comes to its `iretd`, the handler has returned. -/
theorem handler_returned {d c' : Cpu} {is : List Instr} (h : exec d (callHandler K ++ is) = some c') :
    ∃ q, K.syscallHandler (entered K d) = some q := by
  have hhead : exec d (callHandler K) =
      (K.syscallHandler (entered K d)).bind (fun q => exec q [.addSp 4]) := rfl
  rw [exec_append, hhead, Option.bind_assoc] at h
  obtain ⟨q, hq, -⟩ := Option.bind_eq_some_iff.mp h
  exact ⟨q, hq⟩

/-- The stub keeps everything but `eax`, and the 20 bytes it was entered with. -/
theorem stub_keeps (hA : SerialOk K.halSerialWrite) (hH : HandlerOk K.syscallHandler) {c c' : Cpu}
    (h : exec c (syscallStub K) = some c') : c'.sp = c.sp ∧ (∀ q, q ≠ .eax → c'.regs q = c.regs q) ∧
      c'.segs = c.segs ∧ ∀ k : Int, 0 ≤ k → k < 20 → c'.mem (off c.sp k) = c.mem (off c.sp k) := by
  obtain ⟨d, hd, hsp, hholds, habove⟩ := beforeHandler_exec hA c
  rw [syscallStub, List.append_assoc, List.append_assoc, exec_append, hd, Option.bind_some] at h
  obtain ⟨q, hq⟩ := handler_returned h
  obtain ⟨c₂, hc₂, hcsp, hregs, -, hsegs, hframe⟩ := afterHandler_exec hA hH hholds hq
  rw [List.append_assoc] at hc₂
  obtain rfl := Option.some.inj (h.symm.trans hc₂)
  have hbal : c'.sp = c.sp := by
    rw [hcsp, hsp, off_off]
    exact off_zero _
  refine ⟨hbal, fun q hq => ?_, hsegs, fun k h0 hk => ?_⟩
  · cases q with
    | esp => exact hbal
    | _ => exact hregs _ hq (by decide)
  · have hk' := hframe (48 + k) (by omega) (by omega)
    rw [hsp, off_off, show -48 + (48 + k) = k by omega] at hk'
    exact hk'.trans (habove k h0 hk)

/-- Everything but `eax` and memory is the same. -/
structure SameButEax (u t : Ringed) : Prop where
  regs : ∀ q, q ≠ .eax → t.core.cpu.regs q = u.core.cpu.regs q
  segs : t.core.cpu.segs = u.core.cpu.segs
  eip : t.core.cpu.eip = u.core.cpu.eip
  cs : t.core.cs = u.core.cs
  eflags : t.core.eflags = u.core.eflags
  ss : t.ss = u.ss

/-- **A system call** that comes back. -/
theorem syscall_returns (hA : SerialOk K.halSerialWrite) (hH : HandlerOk K.syscallHandler) {u t : Ringed}
    (hu : InRing3 s u) (h : u.syscall K s (idtInit isr stub idt) = some t) : SameButEax u t := by
  have hcpl : u.cpl ≠ 0 := by
    rw [hu.cpl]
    decide
  rw [Ringed.syscall, softInt_ring3 hu.cpl, if_pos rfl] at h
  obtain ⟨c', hc', rfl⟩ := Option.map_eq_some_iff.mp h
  obtain ⟨hsp, hregs, hsegs, heip, hcs, hflags, husp, huss⟩ :=
    enter_frame hcpl s.tss (gate stub kernelCs 0xEE#8)
  obtain ⟨hbal, hkeep, hsegs', hframe⟩ := stub_keeps hA hH hc'
  have hread : ∀ i : Int, 0 ≤ i → i ≤ 16 → read32 c'.mem (off c'.sp i) =
      read32 (u.enter s.tss (gate stub kernelCs 0xEE#8)).core.cpu.mem (off s.tss.esp0 (-20 + i)) := by
    intro i h0 hi
    rw [hbal, ← off_off, ← hsp]
    exact read32_bytes (fun k hk hk' => hframe k (by omega) (by omega))
  have hcs' : ((read32 c'.mem (off c'.sp 4)).setWidth 16) = userCs := by
    rw [hread 4 (by norm_num) (by norm_num), ← hu.cs]
    exact hcs
  have hring : ({ u.enter s.tss (gate stub kernelCs 0xEE#8) with
      core := { (u.enter s.tss (gate stub kernelCs 0xEE#8)).core with cpu := c' } } : Ringed).cpl = 0#2 := by
    simp only [Ringed.cpl, Ringed.enter, gate]
    decide
  have hout : ¬ userCs.extractLsb' 0 2 ≤ 0#2 := by decide
  have huser : userCs.extractLsb' 0 2 = 3#2 := by decide
  simp only [Ringed.iretd, Processor.iretd, hring, hcs']
  rw [if_neg hout, huser]
  have hread0 := hread 0 (by norm_num) (by norm_num)
  rw [off_zero] at hread0
  refine ⟨fun q hq => ?_, funext fun g => ?_, hread0.trans heip, hu.cs.symm,
    (hread 8 (by norm_num) (by norm_num)).trans hflags, ?_⟩
  · rcases eq_or_ne q .esp with rfl | hesp
    · simp only [Cpu.set_regs, if_true]
      exact (hread 12 (by norm_num) (by norm_num)).trans husp
    · simp only [Cpu.set_regs, if_neg hesp, Cpu.drop_regs, hkeep q hq, hregs q hesp]
  · simp only [Cpu.drop_segs, hsegs', hsegs]
    exact hu.segs g
  · exact (congrArg (BitVec.setWidth 16) (hread 16 (by norm_num) (by norm_num))).trans huss

/-! ## 6. A run in ring 3 -/

/-- What happens in ring 3: its own code brings the processor to `r`, or it makes a system call. -/
inductive UserOp
  | work (r : Ringed)
  | syscall

def userStep (K : Linked) (s : Segments) (idt : Idt) (u : Ringed) : UserOp → Option Ringed
  | .work r => some r
  | .syscall => u.syscall K s idt

/-- Code in ring 3 does not leave it, and has no selector of another ring.  `cli` and `sti` fault there,
and `popf` keeps IF and IOPL. -/
def UserLegal (s : Segments) (u : Ringed) : UserOp → Prop
  | .work r => r.core.cs = u.core.cs ∧ r.ss = u.ss ∧ (∀ g, UserSelector s (r.core.cpu.segs g)) ∧
      r.core.eflags &&& 0x00003200#32 = u.core.eflags &&& 0x00003200#32
  | .syscall => True

theorem inRing3_step (hA : SerialOk K.halSerialWrite) (hH : HandlerOk K.syscallHandler) {u t : Ringed}
    {o : UserOp} (hu : InRing3 s u) (hok : UserLegal s u o)
    (h : userStep K s (idtInit isr stub idt) u o = some t) : InRing3 s t := by
  cases o with
  | work r =>
    obtain rfl := Option.some.inj h
    obtain ⟨hcs, hss, hsegs, hflags⟩ := hok
    exact ⟨hcs.trans hu.cs, hss.trans hu.ss, hsegs, hflags.trans hu.flags⟩
  | syscall =>
    rw [userStep] at h
    have hsame := syscall_returns hA hH hu h
    refine ⟨hsame.cs.trans hu.cs, hsame.ss.trans hu.ss, fun g => ?_, ?_⟩
    · rw [hsame.segs]
      exact hu.segs g
    · rw [hsame.eflags]
      exact hu.flags

/-- **From `enter_usermode` on**, whatever the user's code does and however many calls it makes: the
processor is in ring 3 and takes no interrupt, the kernel is entered at the top of its stack, and a call
that comes back has changed nothing but `eax`. -/
theorem ring3_run {tssAt esp0 entry top : Word} {u₀ u : Ringed} (hA : SerialOk K.halSerialWrite)
    (hH : HandlerOk K.syscallHandler) (hb : Booted tssAt esp0 s) (hring : r.cpl = 0#2)
    (hiopl : r.core.eflags &&& 0x00003000#32 = 0) (h₀ : enterUsermode s r entry top = some u₀)
    (hu : Reach (userStep K s (idtInit isr stub idt)) (UserLegal s) u₀ u) :
    u.cpl = 3#2 ∧ u.core.interruptible = false ∧
    (∀ e, (u.enter s.tss e).core.cpu.sp = off esp0 (-20)) ∧
    ∀ t, u.syscall K s (idtInit isr stub idt) = some t → SameButEax u t := by
  obtain ⟨u₁, h₁, hin₁, -⟩ := enterUsermode_ring3 hb hring hiopl entry top
  obtain rfl := Option.some.inj (h₀.symm.trans h₁)
  have hin : InRing3 s u := hu.inv hin₁ (fun _ _ _ hs hok hstep => inRing3_step hA hH hs hok hstep)
  have hcpl : u.cpl ≠ 0 := by
    rw [hin.cpl]
    decide
  refine ⟨hin.cpl, hin.interruptible, fun e => ?_, fun t ht => syscall_returns hA hH hin ht⟩
  rw [(enter_frame hcpl s.tss e).1, hb.stack.2]

/-- Where the handler always returns, so does the call. -/
theorem syscall_comes_back (hA : SerialOk K.halSerialWrite) (hH : HandlerOk K.syscallHandler)
    (hret : ∀ c, ∃ q, K.syscallHandler c = some q) {u : Ringed} (hu : InRing3 s u) :
    ∃ t, u.syscall K s (idtInit isr stub idt) = some t := by
  rw [Ringed.syscall, softInt_ring3 hu.cpl, if_pos rfl]
  obtain ⟨d, hd, -, hholds, -⟩ :=
    beforeHandler_exec hA (u.enter s.tss (gate stub kernelCs 0xEE#8)).core.cpu
  obtain ⟨q, hq⟩ := hret (entered K d)
  obtain ⟨c', hc', -⟩ := afterHandler_exec hA hH hholds hq
  have hstub : exec (u.enter s.tss (gate stub kernelCs 0xEE#8)).core.cpu (syscallStub K) = some c' := by
    rw [syscallStub, List.append_assoc, List.append_assoc, exec_append, hd, Option.bind_some,
      ← List.append_assoc, hc']
  simp only [hstub, Option.map_some]
  exact ⟨_, rfl⟩

/-- The tables after boot, with the kernel's stack at 0x180000. -/
def bootedSegments : Segments :=
  tssSetKernelStack (tssInit 0x110000 (gdtInit 0x110100
    ⟨Vector.replicate 6 0#64, ⟨0, 0⟩, ⟨0, 0, 0⟩, ⟨0, 0⟩, 0, 0, 0⟩)) 0x180000

/-- From ring 0 with interrupts on to ring 3, and one call later. -/
theorem ring3_run_call : ∃ u₀ t,
    enterUsermode bootedSegments ⟨{ atOne with eflags := 0x202 }, kernelDs⟩ 0x400000 0x410000 = some u₀ ∧
    u₀.syscall answering bootedSegments bootedIdt = some t ∧
    t.cpl = 3#2 ∧ t.core.interruptible = false ∧ SameButEax u₀ t := by
  have hb : Booted 0x110000 0x180000 bootedSegments := (tssInit_booted _ _ _).setKernelStack _
  have hring : (⟨{ atOne with eflags := 0x202 }, kernelDs⟩ : Ringed).cpl = 0#2 := by decide
  obtain ⟨u₀, h₀, hin, -⟩ := enterUsermode_ring3 hb hring (by decide) 0x400000 0x410000
  have hback : ∃ t, u₀.syscall answering bootedSegments bootedIdt = some t :=
    syscall_comes_back answering_serialOk answering_handlerOk (fun _ => ⟨_, rfl⟩) hin
  obtain ⟨t, ht⟩ := hback
  have hreach : Reach (userStep answering bootedSegments bootedIdt) (UserLegal bootedSegments) u₀ t :=
    .tail .refl (o := .syscall) trivial ht
  obtain ⟨-, -, -, hsame⟩ := ring3_run answering_serialOk answering_handlerOk hb hring (by decide) h₀ .refl
  obtain ⟨hcpl, hoff, -⟩ := ring3_run answering_serialOk answering_handlerOk hb hring (by decide) h₀ hreach
  exact ⟨u₀, t, h₀, ht, hcpl, hoff, hsame t ht⟩

end JarvOs.Core
