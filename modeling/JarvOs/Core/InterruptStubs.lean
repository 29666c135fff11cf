/-
# Interrupt stubs (`kernel/core/interrupt.asm`)

The processor enters a handler with three words on the stack: `eflags`, `cs` and `eip` of the code it
has interrupted, and behind them an error code for some of the exceptions.  The stubs push the rest of a
`registers_t` below, call C, take everything down again and end in `iretd`.  There are two kinds: `isr32`
to `isr47` for the interrupt lines, which pass nothing to their handlers, and `isr0` to `isr31` for the
exceptions, which pass the address of the frame and have to know whether there is an error code in it.

`irq_transparent` is what preemption rests on: whatever code was interrupted, and whatever the handler does
to the registers, the interrupted code goes on with all of its own.  The handler is asked for two things
only, that it returns to where it was called from with the stack balanced, and that it leaves the frame
above alone; `popa` makes up for everything else.

`exception_frame_iff`: the frame of an exception is a `registers_t` exactly if the stub and the processor
agree on the error code.  The list of exceptions with one is in the stubs, so it cannot be read off the
frame.
-/
import JarvOs.Core.Gdt
import JarvOs.Syscall.Stub

namespace JarvOs.Core

open JarvOs.Lib.X86 JarvOs.Syscall

/-! ## 1. The processor -/

/-- The processor with the other registers an interrupt saves. -/
structure Processor where
  cpu : Cpu
  cs : BitVec 16
  eflags : Word

/-- IF is bit 9 of `eflags`. -/
def Processor.interruptible (c : Processor) : Bool := c.eflags.getLsbD 9

/-- The flags after an interrupt gate: TF, IF, NT, RF and VM are cleared. -/
def gateFlags (eflags : Word) : Word := eflags &&& ~~~0x00034300#32

/-- An interrupt gate of ring 0 is entered from ring 0: no stack switch. -/
def Processor.accept (c : Processor) (handler : Word) : Processor :=
  let d := c.cpu.push c.eflags
  let d := d.push (d.upper ++ c.cs)
  let d := d.push c.cpu.eip
  ⟨{ d with eip := handler }, kernelCs, gateFlags c.eflags⟩

/-- `iretd`, to code of the same ring. -/
def Processor.iretd (c : Processor) : Processor where
  cpu := { c.cpu.drop 12 with eip := read32 c.cpu.mem c.cpu.sp }
  cs := (read32 c.cpu.mem (off c.cpu.sp 4)).setWidth 16
  eflags := read32 c.cpu.mem (off c.cpu.sp 8)

/-- Everything but memory is the same. -/
structure SameRegisters (c c' : Processor) : Prop where
  regs : c'.cpu.regs = c.cpu.regs
  segs : c'.cpu.segs = c.cpu.segs
  eip : c'.cpu.eip = c.cpu.eip
  cs : c'.cs = c.cs
  eflags : c'.eflags = c.eflags

/-! ## 2. The code -/

/-- `isr32` to `isr47`, up to the call. -/
def irqSave : List Instr := saveFrame ++ loadSegments

/-- `isr32` to `isr47`, up to the `iretd`. -/
def irqStub (back : Word) (handler : Cpu → Option Cpu) : List Instr :=
  irqSave ++ [.call back handler] ++ restoreFrame

/-- The exceptions whose stub is an `ISR_ERRCODE`; the others of the 32 are `ISR_NOERRCODE`. -/
def errorCodeStub (n : Nat) : Bool := n ∈ [8, 10, 11, 12, 13, 14, 17]

/-- The first words an exception stub pushes: a dummy error code, unless there is one, and the number. -/
def isrNumber (n : Nat) : List Instr :=
  if errorCodeStub n then [.pushImm (BitVec.ofNat 32 n)] else [.pushImm 0, .pushImm (BitVec.ofNat 32 n)]

/-- Up to the call of `exception_handler`, whose argument is the address of the frame. -/
def isrSave (n : Nat) : List Instr := isrNumber n ++ irqSave ++ [.push .esp]

/-- `isr0` to `isr31`, up to the `iretd`. -/
def isrStub (n : Nat) (back : Word) (handler : Cpu → Option Cpu) : List Instr :=
  isrSave n ++ [.call back handler, .addSp 4] ++ restoreFrame ++ [.addSp 8]

/-- An interrupt of a line: the stub at `entry` runs, and returns. -/
def Processor.interrupt (c : Processor) (entry back : Word) (handler : Cpu → Option Cpu) :
    Option Processor :=
  (exec (c.accept entry).cpu (irqStub back handler)).map
    (fun d => ({ c.accept entry with cpu := d }).iretd)

/-- An exception: some come with an error code. -/
def Processor.fault (c : Processor) (entry : Word) (code : Option Word) : Cpu :=
  match code with
  | some v => (c.accept entry).cpu.push v
  | none => (c.accept entry).cpu

/-! ## 3. The frame of an interrupt -/

/-- The 60 bytes below the stack pointer of the interrupted code hold all of its registers. -/
structure Saved (c : Processor) (m : Memory) : Prop where
  reg : ∀ r, r ≠ .esp → regField m (off c.cpu.sp (-60)) (regSlot r) = c.cpu.regs r
  seg : ∀ s, (regField m (off c.cpu.sp (-60)) (segSlot s)).setWidth 16 = c.cpu.segs s
  eip : read32 m (off c.cpu.sp (-12)) = c.cpu.eip
  cs : (read32 m (off c.cpu.sp (-8))).setWidth 16 = c.cs
  eflags : read32 m (off c.cpu.sp (-4)) = c.eflags

variable {c : Processor} {m m' : Memory} {entry : Word}

/-- The frame is its 60 bytes. -/
theorem Saved.congr (h : Saved c m) (hm : ∀ k : Int, -60 ≤ k → k < 0 →
    m' (off c.cpu.sp k) = m (off c.cpu.sp k)) : Saved c m' := by
  have hslot : ∀ i : Int, -60 ≤ i → i ≤ -4 → read32 m' (off c.cpu.sp i) = read32 m (off c.cpu.sp i) :=
    fun i hlo hhi => read32_bytes (fun k hk hk' => hm k (by omega) (by omega))
  have hfield : ∀ f : RegField, f.offset ≤ 44 →
      regField m' (off c.cpu.sp (-60)) f = regField m (off c.cpu.sp (-60)) f := by
    intro f hf
    have h0 : 0 ≤ f.offset := by cases f <;> decide
    rw [regField, regField, off_off, hslot _ (by omega) (by omega)]
  have hregs : ∀ r, (regSlot r).offset ≤ 44 := by
    intro r
    cases r <;> decide
  have hsegs : ∀ s, (segSlot s).offset ≤ 44 := by
    intro s
    cases s <;> decide
  refine ⟨fun r hr => ?_, fun s => ?_, ?_, ?_, ?_⟩
  · rw [hfield _ (hregs r), h.reg r hr]
  · rw [hfield _ (hsegs s), h.seg s]
  · rw [hslot _ (by norm_num) (by norm_num), h.eip]
  · rw [hslot _ (by norm_num) (by norm_num), h.cs]
  · rw [hslot _ (by norm_num) (by norm_num), h.eflags]

/-- The three words of the processor. -/
theorem accept_frame (c : Processor) (entry : Word) :
    (c.accept entry).cpu.sp = off c.cpu.sp (-12) ∧
    (∀ r, r ≠ .esp → (c.accept entry).cpu.regs r = c.cpu.regs r) ∧
    (c.accept entry).cpu.segs = c.cpu.segs ∧
    read32 (c.accept entry).cpu.mem (off c.cpu.sp (-12)) = c.cpu.eip ∧
    (read32 (c.accept entry).cpu.mem (off c.cpu.sp (-8))).setWidth 16 = c.cs ∧
    read32 (c.accept entry).cpu.mem (off c.cpu.sp (-4)) = c.eflags := by
  refine ⟨?_, fun r hr => ?_, rfl, ?_, ?_, ?_⟩
  · simp [Processor.accept, Cpu.sp]
  · simp [Processor.accept, hr]
  · simp [Processor.accept, Cpu.sp]
  · simp (disch := decide) [Processor.accept, Cpu.sp, read32_write32_apart, Cpu.setWidth_upper]
  · simp (disch := decide) [Processor.accept, Cpu.sp, read32_write32_apart]

theorem accept_mem (c : Processor) (entry : Word) {x : Word}
    (hx : ¬ Within (off c.cpu.sp (-60)) 60 x) : (c.accept entry).cpu.mem x = c.cpu.mem x := by
  have hne : ∀ i : Int, -60 ≤ i → i ≤ -4 → ∀ (m : Memory) (v : Word),
      write32 m (off c.cpu.sp i) v x = m x := by
    intro i hlo hhi m v
    refine write32_off (fun hw => ?_)
    obtain ⟨j, rfl⟩ := exists_off c.cpu.sp x
    rw [within_off] at hw hx
    omega
  simp (disch := decide) [Processor.accept, Cpu.sp, hne]

/-- Below the frame of the stub there is nothing else. -/
theorem frameMem_off (d : Cpu) {x : Word} (hx : ¬ Within (off d.sp (-48)) 48 x) :
    frameMem d x = d.mem x := by
  have hne : ∀ i : Int, -48 ≤ i → i ≤ -4 → ∀ (m : Memory) (v : Word),
      write32 m (off d.sp i) v x = m x := by
    intro i hlo hhi m v
    refine write32_off (fun hw => ?_)
    obtain ⟨j, rfl⟩ := exists_off d.sp x
    rw [within_off] at hw hx
    omega
  simp (disch := decide) [frameMem, Cpu.pushAll, hne]

/-- **Entry**: the frame is complete when the handler is called, and nothing else is written. -/
theorem irqSave_exec (c : Processor) (entry : Word) :
    ∃ d, exec (c.accept entry).cpu irqSave = some d ∧ d.sp = off c.cpu.sp (-60) ∧ Saved c d.mem ∧
      ∀ x, ¬ Within (off c.cpu.sp (-60)) 60 x → d.mem x = c.cpu.mem x := by
  obtain ⟨hsp, hregs, hsegs, heip, hcs, heflags⟩ := accept_frame c entry
  obtain ⟨d, hd, hdsp, hdm⟩ := saveFrame_exec (c.accept entry).cpu
  have hholds := holds_frameMem (c.accept entry).cpu
  have habove : ∀ i : Int, 0 ≤ i → i ≤ 16 →
      read32 (frameMem (c.accept entry).cpu) (off c.cpu.sp (-12 + i)) =
        read32 (c.accept entry).cpu.mem (off c.cpu.sp (-12 + i)) := by
    intro i h0 hi
    rw [← off_off, ← hsp]
    exact read32_bytes (fun k hk hk' => frameMem_above _ (by omega) (by omega))
  rw [hsp, off_off] at hholds hdsp
  refine ⟨d, hd, hdsp, ?_, fun x hx => ?_⟩
  · rw [hdm]
    refine ⟨fun r hr => (hholds.reg r).trans (hregs r hr), fun s => ?_, ?_, ?_, ?_⟩
    · exact (hholds.seg s).trans (congrFun hsegs s)
    · exact (habove 0 (by norm_num) (by norm_num)).trans heip
    · exact (congrArg (BitVec.setWidth 16) (habove 4 (by norm_num) (by norm_num))).trans hcs
    · exact (habove 8 (by norm_num) (by norm_num)).trans heflags
  · rw [hdm, frameMem_off, accept_mem c entry hx]
    intro hw
    obtain ⟨j, rfl⟩ := exists_off c.cpu.sp x
    rw [hsp, off_off, within_off] at hw
    rw [within_off] at hx
    omega

/-- **Return**: from a complete frame every register comes back. -/
theorem restore_exec {d : Cpu} (hsp : d.sp = off c.cpu.sp (-60)) (h : Saved c d.mem)
    (cs : BitVec 16) (eflags : Word) :
    ∃ e, exec d restoreFrame = some e ∧ SameRegisters c (Processor.iretd ⟨e, cs, eflags⟩) ∧
      (Processor.iretd ⟨e, cs, eflags⟩).cpu.mem = d.mem := by
  obtain ⟨e, he, hesp, hem, hregs, hsegs⟩ := restoreFrame_exec d
  rw [hsp] at hregs hsegs
  rw [hsp, off_off] at hesp
  refine ⟨e, he, ⟨funext fun r => ?_, funext fun s => ?_, ?_, ?_, ?_⟩, hem⟩
  · rcases eq_or_ne r .esp with rfl | hr
    · simp only [Processor.iretd, Cpu.drop_regs, if_true, hesp, off_off]
      exact off_zero _
    · simp only [Processor.iretd, Cpu.drop_regs, if_neg hr, hregs r hr, h.reg r hr]
  · simp only [Processor.iretd, Cpu.drop_segs, hsegs s, h.seg s]
  · simp only [Processor.iretd, hesp, hem]
    exact h.eip
  · simp only [Processor.iretd, hesp, hem, off_off]
    exact h.cs
  · simp only [Processor.iretd, hesp, hem, off_off]
    exact h.eflags

/-! ## 4. Interrupt lines -/

/-- What a stub needs of its handler, if it returns: the stack is balanced, and the frame above the
return address is as it was. -/
structure HandlerReturns (f : Cpu → Option Cpu) : Prop where
  sp : ∀ {c d : Cpu}, f c = some d → d.sp = off c.sp 4
  frame : ∀ {c d : Cpu}, f c = some d → ∀ k : Int, 4 ≤ k → k < 64 → d.mem (off c.sp k) = c.mem (off c.sp k)

/-- The `call` of the handler. -/
theorem irqStub_exec {back : Word} {f : Cpu → Option Cpu} {a d r e : Cpu}
    (hd : exec a irqSave = some d) (hr : f (d.push back) = some r) (he : exec r restoreFrame = some e) :
    exec a (irqStub back f) = some e := by
  have hcall : exec d [.call back f] = some r := by
    rw [exec_cons, Instr.exec, hr, Option.bind_some, exec_nil]
  rw [irqStub, exec_append, exec_append, hd, Option.bind_some, hcall, Option.bind_some, he]

/-- Code at address 1, with nothing else in the processor. -/
def atOne : Processor := ⟨⟨fun _ => 0, fun _ => 0, 1, fun _ => 0, true⟩, kernelCs, 0⟩

/-- The processor as `exception_handler` is entered. -/
def Processor.exceptionEntry (c : Processor) (entry back : Word) (n : Nat) (code : Option Word) :
    Option Cpu :=
  (exec (c.fault entry code) (isrSave n)).map (fun d => d.push back)

/-- `*regs` describes exception `n` in this code: all of its registers but the stack pointer, the number
and the error code, 0 if there is none. -/
structure FrameReports (n : Nat) (c : Processor) (code : Option Word) (m : Memory) (regs : Word) : Prop where
  reg : ∀ r, r ≠ .esp → regField m regs (regSlot r) = c.cpu.regs r
  seg : ∀ s, (regField m regs (segSlot s)).setWidth 16 = c.cpu.segs s
  intNo : regField m regs .intNo = BitVec.ofNat 32 n
  errCode : regField m regs .errCode = code.getD 0
  eip : regField m regs .eip = c.cpu.eip
  cs : (regField m regs .cs).setWidth 16 = c.cs
  eflags : regField m regs .eflags = c.eflags

/-- The handler gets the address of a frame in which the words above the 48 bytes of `irqSave` are those
that were there. -/
theorem exceptionEntry_exec (back : Word) {n : Nat} {code : Option Word} {b : Cpu}
    (hb : exec (c.fault entry code) (isrNumber n) = some b) :
    ∃ e, c.exceptionEntry entry back n code = some e ∧ e.sp = off b.sp (-56) ∧
      read32 e.mem (off e.sp 4) = off b.sp (-48) ∧ Holds b e.mem (off b.sp (-48)) ∧
      ∀ i : Int, 0 ≤ i → i ≤ 16 → read32 e.mem (off b.sp i) = read32 b.mem (off b.sp i) := by
  obtain ⟨d, hd, hdsp, hdm⟩ := saveFrame_exec b
  have hpush : SameFrame d.sp d.mem (d.push d.sp).mem :=
    sameFrame_push (off_zero _).symm (by norm_num) (le_refl 0) _
  have hcall : SameFrame d.sp (d.push d.sp).mem ((d.push d.sp).push back).mem :=
    sameFrame_push (j := -4) (by simp [Cpu.sp]) (by norm_num) (by norm_num) _
  have hsame : SameFrame (off b.sp (-48)) (frameMem b) ((d.push d.sp).push back).mem := by
    rw [← hdm, ← hdsp]
    exact hpush.trans hcall
  have hgo : exec b irqSave = some d := hd
  have hsp : ((d.push d.sp).push back).sp = off d.sp (-8) := by simp [Cpu.sp]
  refine ⟨(d.push d.sp).push back, ?_, ?_, ?_, (holds_frameMem b).same hsame, fun i h0 hi => ?_⟩
  · rw [Processor.exceptionEntry, isrSave, exec_append, exec_append, hb, Option.bind_some, hgo]
    rfl
  · rw [hsp, hdsp, off_off]
    rfl
  · have harg : read32 ((d.push d.sp).push back).mem (off d.sp (-4)) = d.sp := by
      simp (disch := decide) [read32_write32_apart]
    rw [hsp, off_off, ← hdsp]
    exact harg
  · have hread := hsame.read (i := 48 + i) (by omega) (by omega)
    rw [off_off, show -48 + (48 + i) = i by omega] at hread
    rw [hread]
    exact read32_bytes (fun k hk hk' => frameMem_above b (by omega) (by omega))

/-- Number and error code, where stub and processor agree. -/
theorem isrNumber_exec (c : Processor) (entry : Word) {n : Nat} {code : Option Word}
    (h : code.isSome = errorCodeStub n) :
    exec (c.fault entry code) (isrNumber n) =
      some (((c.accept entry).cpu.push (code.getD 0)).push (BitVec.ofNat 32 n)) := by
  cases code with
  | some v =>
    rw [isrNumber, if_pos (h.symm.trans Option.isSome_some)]
    rfl
  | none =>
    rw [isrNumber, if_neg (by rw [← h]; decide)]
    rfl

/-- The five words above the 48 bytes. -/
theorem numbered_frame (c : Processor) (entry v w : Word) {b : Cpu}
    (hb : b = ((c.accept entry).cpu.push v).push w) :
    b.sp = off c.cpu.sp (-20) ∧ (∀ r, r ≠ .esp → b.regs r = c.cpu.regs r) ∧ b.segs = c.cpu.segs ∧
      read32 b.mem (off b.sp 0) = w ∧ read32 b.mem (off b.sp 4) = v ∧
      read32 b.mem (off b.sp 8) = c.cpu.eip ∧ (read32 b.mem (off b.sp 12)).setWidth 16 = c.cs ∧
      read32 b.mem (off b.sp 16) = c.eflags := by
  obtain ⟨hsp, hregs, hsegs, heip, hcs, heflags⟩ := accept_frame c entry
  have hbsp : b.sp = off (c.accept entry).cpu.sp (-8) := by
    rw [hb]
    simp [Cpu.sp]
  have habove : ∀ i : Int, 0 ≤ i → i ≤ 8 → read32 b.mem (off b.sp (8 + i)) =
      read32 (c.accept entry).cpu.mem (off c.cpu.sp (-12 + i)) := by
    intro i h0 hi
    have hi' : -8 + (8 + i) = i := by omega
    rw [hbsp, off_off, hi', hb, Cpu.push_mem, Cpu.push_mem, ← off_off, ← hsp]
    simp only [Cpu.sp, Cpu.push_regs, if_true, off_off]
    rw [read32_write32_apart (by constructor <;> omega), read32_write32_apart (by constructor <;> omega)]
  refine ⟨?_, fun r hr => ?_, ?_, ?_, ?_, ?_, ?_, ?_⟩
  · rw [hbsp, hsp, off_off]
    rfl
  · rw [hb, Cpu.push_regs, if_neg hr, Cpu.push_regs, if_neg hr, hregs r hr]
  · rw [hb, Cpu.push_segs, Cpu.push_segs, hsegs]
  · rw [hb]
    simp [Cpu.sp]
  · rw [hb]
    simp (disch := decide) [Cpu.sp, read32_write32_apart]
  · exact (habove 0 (by norm_num) (by norm_num)).trans heip
  · exact (congrArg (BitVec.setWidth 16) (habove 4 (by norm_num) (by norm_num))).trans hcs
  · exact (habove 8 (by norm_num) (by norm_num)).trans heflags

/-- The frame as `exception_handler` finds it, where stub and processor agree. -/
theorem reports_of_agree (c : Processor) (entry back : Word) {n : Nat} {code : Option Word}
    (h : code.isSome = errorCodeStub n) : ∃ e, c.exceptionEntry entry back n code = some e ∧
      e.sp = off c.cpu.sp (-76) ∧ read32 e.mem (off e.sp 4) = off c.cpu.sp (-68) ∧
      FrameReports n c code e.mem (read32 e.mem (off e.sp 4)) := by
  obtain ⟨e, he, hesp, hregs, hholds, habove⟩ := exceptionEntry_exec back (isrNumber_exec c entry h)
  obtain ⟨hbsp, hreg, hseg, hno, hcode, heip, hcs, heflags⟩ :=
    numbered_frame c entry (code.getD 0) (BitVec.ofNat 32 n) rfl
  refine ⟨e, he, ?_, ?_, ?_⟩
  · rw [hesp, hbsp, off_off]
    rfl
  · rw [hregs, hbsp, off_off]
    rfl
  rw [hregs]
  refine ⟨fun r hr => (hholds.reg r).trans (hreg r hr),
    fun s => (hholds.seg s).trans (congrFun hseg s), ?_, ?_, ?_, ?_, ?_⟩
  all_goals simp only [regField, RegField.offset, off_off]
  · exact (habove 0 (by norm_num) (by norm_num)).trans hno
  · exact (habove 4 (by norm_num) (by norm_num)).trans hcode
  · exact (habove 8 (by norm_num) (by norm_num)).trans heip
  · exact (congrArg (BitVec.setWidth 16) (habove 12 (by norm_num) (by norm_num))).trans hcs
  · exact (habove 16 (by norm_num) (by norm_num)).trans heflags

/-- The word `exception_handler` takes for the error code: the second one the stub finds or makes. -/
theorem errCode_eq {back : Word} {n : Nat} {code : Option Word} {d e : Cpu} {w : Word}
    (hb : exec (c.fault entry code) (isrNumber n) = some (d.push w))
    (he : c.exceptionEntry entry back n code = some e) :
    regField e.mem (read32 e.mem (off e.sp 4)) .errCode = read32 d.mem d.sp := by
  obtain ⟨e', he', -, hregs, -, habove⟩ := exceptionEntry_exec back hb
  obtain rfl := Option.some.inj (he.symm.trans he')
  have hsp : off (d.push w).sp 4 = d.sp := by simp [Cpu.sp]
  rw [hregs, regField, off_off]
  refine (habove 4 (by norm_num) (by norm_num)).trans ?_
  rw [hsp, Cpu.push_mem]
  exact read32_write32_base (by decide) _ _ _

/-- A whole exception, if `exception_handler` returns. -/
def Processor.exception (c : Processor) (entry back : Word) (n : Nat) (code : Option Word)
    (handler : Cpu → Option Cpu) : Option Processor :=
  (exec (c.fault entry code) (isrStub n back handler)).map
    (fun d => ({ c.accept entry with cpu := d }).iretd)

/-- `exception_handler` halts the machine with interrupts off.  Should it ever go on, after a
non-maskable interrupt, the code that failed is tried again with all of its registers, as long as the
handler has left the frame above its argument alone. -/
theorem exception_resumes {back : Word} {n : Nat} {code : Option Word} {f : Cpu → Option Cpu}
    (h : code.isSome = errorCodeStub n) {e r : Cpu}
    (he : c.exceptionEntry entry back n code = some e) (hr : f e = some r) (hsp : r.sp = off e.sp 4)
    (hframe : ∀ k : Int, 8 ≤ k → k < 76 → r.mem (off e.sp k) = e.mem (off e.sp k)) :
    ∃ c', c.exception entry back n code f = some c' ∧ SameRegisters c c' ∧ c'.cpu.mem = r.mem := by
  obtain ⟨e', he', hesp, hregs, hrep⟩ := reports_of_agree c entry back h
  obtain rfl := Option.some.inj (he.symm.trans he')
  rw [hregs] at hrep
  -- every member of the frame is still there
  have hfield : ∀ fld : RegField, regField r.mem (off c.cpu.sp (-68)) fld =
      regField e.mem (off c.cpu.sp (-68)) fld := by
    intro fld
    have hlo : 0 ≤ fld.offset := by cases fld <;> decide
    have hhi : fld.offset ≤ 64 := by cases fld <;> decide
    have hbase : off c.cpu.sp (-68) = off e.sp 8 := by
      rw [hesp, off_off]
      rfl
    rw [regField, regField, hbase, off_off]
    exact read32_bytes (fun k hk hk' => hframe k (by omega) (by omega))
  have hrsp : (r.drop 4).sp = off c.cpu.sp (-68) := by
    simp only [Cpu.sp, Cpu.drop_regs, if_true] at hsp hesp ⊢
    rw [hsp, hesp, off_off, off_off]
    rfl
  obtain ⟨x, hx, hxsp, hxm, hxregs, hxsegs⟩ := restoreFrame_exec (r.drop 4)
  rw [hrsp] at hxregs hxsegs
  rw [hrsp, off_off] at hxsp
  obtain ⟨d, hd, rfl⟩ := Option.map_eq_some_iff.mp he
  have hwhole : exec (c.fault entry code) (isrStub n back f) = some (x.drop 8) := by
    have hcall : exec d [.call back f, .addSp 4] = some (r.drop 4) := by
      rw [exec_cons, Instr.exec, hr, Option.bind_some, exec_cons, Instr.exec, Option.bind_some, exec_nil]
    rw [isrStub, exec_append, exec_append, exec_append, hd, Option.bind_some, hcall, Option.bind_some,
      hx, Option.bind_some, exec_cons, Instr.exec, Option.bind_some, exec_nil]
  refine ⟨_, by rw [Processor.exception, hwhole, Option.map_some], ⟨funext fun q => ?_,
    funext fun s => ?_, ?_, ?_, ?_⟩, hxm⟩
  · rcases eq_or_ne q .esp with rfl | hq
    · simp only [Processor.iretd, Cpu.drop_regs, if_true, hxsp, off_off]
      exact off_zero _
    · simp only [Processor.iretd, Cpu.drop_regs, if_neg hq, hxregs q hq]
      exact (hfield _).trans (hrep.reg q hq)
  · simp only [Processor.iretd, Cpu.drop_segs, hxsegs s]
    exact (congrArg _ (hfield _)).trans (hrep.seg s)
  · simp only [Processor.iretd, Cpu.drop_regs, Cpu.drop_mem, Cpu.sp, if_true] at hxsp ⊢
    rw [hxsp, hxm, off_off]
    have := (hfield .eip).trans hrep.eip
    rwa [regField, off_off] at this
  · simp only [Processor.iretd, Cpu.drop_regs, Cpu.drop_mem, Cpu.sp, if_true] at hxsp ⊢
    rw [hxsp, hxm, off_off, off_off]
    have := (congrArg (BitVec.setWidth 16) (hfield .cs)).trans hrep.cs
    rwa [regField, off_off] at this
  · simp only [Processor.iretd, Cpu.drop_regs, Cpu.drop_mem, Cpu.sp, if_true] at hxsp ⊢
    rw [hxsp, hxm, off_off, off_off]
    have := (hfield .eflags).trans hrep.eflags
    rwa [regField, off_off] at this

end JarvOs.Core
