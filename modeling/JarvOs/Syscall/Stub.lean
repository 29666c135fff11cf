/-
# The system call stub (`kernel/interrupt/syscall_stub.asm`)

`int 0x80` enters `syscall_stub` with the caller's registers still in place and the interrupt frame
(`eip`, `cs`, `eflags`, and from ring 3 `esp`, `ss`) on the stack.  The stub pushes twelve words in
front of it and passes the address of the last one to `syscall_handler`, which reads them as a
`registers_t`: the push order of the assembly and the member order of the C struct have to be the
same list.  Around the handler the stub calls `hal_serial_write` twice, on the same stack.

The C functions are given by what they do to the processor.  `SerialOk` and `HandlerOk` are all the
stub needs of them: they return with the stack pointer they were entered with, less the return
address, and of the 17 words from the frame up the handler writes `regs->eax` and nothing else.
-/
import JarvOs.Lib.X86

namespace JarvOs.Syscall

open JarvOs.Lib.X86

/-! ## 1. The code -/

/-- The members of `registers_t`. -/
inductive RegField
  | gs | fs | es | ds | edi | esi | ebp | esp | ebx | edx | ecx | eax | intNo | errCode | eip | cs
  | eflags
deriving DecidableEq, Repr

/-- Where a member lies; all of them are 32 bits wide. -/
def RegField.offset : RegField → Int
  | .gs => 0
  | .fs => 4
  | .es => 8
  | .ds => 12
  | .edi => 16
  | .esi => 20
  | .ebp => 24
  | .esp => 28
  | .ebx => 32
  | .edx => 36
  | .ecx => 40
  | .eax => 44
  | .intNo => 48
  | .errCode => 52
  | .eip => 56
  | .cs => 60
  | .eflags => 64

/-- `regs->field` -/
def regField (m : Memory) (regs : Word) (f : RegField) : Word := read32 m (off regs f.offset)

/-- What the stub is linked with: the strings "A" and "C", the addresses behind its three `call`s, and
the two C functions. -/
structure Linked where
  msgA : Word
  msgC : Word
  backA : Word
  backHandler : Word
  backC : Word
  halSerialWrite : Cpu → Option Cpu
  syscallHandler : Cpu → Option Cpu

/-- The twelve words of the frame. -/
def saveFrame : List Instr := [.pushad, .pushSeg .ds, .pushSeg .es, .pushSeg .fs, .pushSeg .gs]

/-- The kernel's data segment everywhere. -/
def loadSegments : List Instr :=
  [.movLow .eax 0x10, .movSeg .ds .eax, .movSeg .es .eax, .movSeg .fs .eax, .movSeg .gs .eax]

/-- `hal_serial_write(msg, 1)` -/
def checkpoint (K : Linked) (msg back : Word) : List Instr :=
  [.pushImm 1, .pushImm msg, .call back K.halSerialWrite, .addSp 8]

/-- Up to the call of the handler. -/
def beforeHandler (K : Linked) : List Instr :=
  saveFrame ++ loadSegments ++ checkpoint K K.msgA K.backA

/-- `syscall_handler(regs)` -/
def callHandler (K : Linked) : List Instr :=
  [.push .esp, .call K.backHandler K.syscallHandler, .addSp 4]

/-- The frame taken down again. -/
def restoreFrame : List Instr := [.popSeg .gs, .popSeg .fs, .popSeg .es, .popSeg .ds, .popad]

/-- `syscall_stub`, up to its `iretd`. -/
def syscallStub (K : Linked) : List Instr :=
  beforeHandler K ++ callHandler K ++ checkpoint K K.msgC K.backC ++ restoreFrame

/-- `push esp` and the `call`. -/
def entered (K : Linked) (c : Cpu) : Cpu := (c.push c.sp).push K.backHandler

/-- The processor as `syscall_handler` is entered. -/
def handlerEntry (K : Linked) (c : Cpu) : Option Cpu :=
  (exec c (beforeHandler K)).map (entered K)

/-! ## 2. The C functions -/

/-- `hal_serial_write` returns, and leaves the 17 words above its arguments alone. -/
structure SerialOk (f : Cpu → Option Cpu) : Prop where
  returns : ∀ c, (f c).isSome
  sp : ∀ {c d : Cpu}, f c = some d → d.sp = off c.sp 4
  frame : ∀ {c d : Cpu}, f c = some d → ∀ k : Int, 0 ≤ k → k < 68 →
    d.mem (off c.sp (12 + k)) = c.mem (off c.sp (12 + k))

/-- `syscall_handler` may not return; of the frame right above its argument it writes `regs->eax`
only. -/
structure HandlerOk (f : Cpu → Option Cpu) : Prop where
  sp : ∀ {c d : Cpu}, f c = some d → d.sp = off c.sp 4
  frame : ∀ {c d : Cpu}, f c = some d → read32 c.mem (off c.sp 4) = off c.sp 8 →
    ∀ k : Int, 0 ≤ k → k < 68 →
    ¬ (RegField.eax.offset ≤ k ∧ k < RegField.eax.offset + 4) →
    d.mem (off c.sp (8 + k)) = c.mem (off c.sp (8 + k))

/-- The 17 words from `a` on are the same. -/
def SameFrame (a : Word) (m m' : Memory) : Prop :=
  ∀ k : Int, 0 ≤ k → k < 68 → m' (off a k) = m (off a k)

theorem SameFrame.trans {a : Word} {m₁ m₂ m₃ : Memory} (h : SameFrame a m₁ m₂)
    (h' : SameFrame a m₂ m₃) : SameFrame a m₁ m₃ :=
  fun k h0 hk => (h' k h0 hk).trans (h k h0 hk)

theorem SameFrame.read {a : Word} {m m' : Memory} (h : SameFrame a m m') {i : Int} (h0 : 0 ≤ i)
    (hi : i ≤ 64) : read32 m' (off a i) = read32 m (off a i) :=
  read32_bytes (fun k hk hk' => h k (by omega) (by omega))

/-! ## 3. The parts of the stub -/

variable {K : Linked} {c d e : Cpu}

/-- A push leaves what is above the stack pointer alone. -/
theorem sameFrame_push {a : Word} {j : Int} (hsp : c.sp = off a j) (hj : -100 ≤ j) (hj' : j ≤ 0)
    (v : Word) : SameFrame a c.mem (c.push v).mem := by
  intro k h0 hk
  rw [Cpu.push_mem, write32_off]
  rw [hsp, off_off, within_off]
  omega

/-- **A checkpoint** returns, with the stack as it was. -/
theorem checkpoint_exec (hK : SerialOk K.halSerialWrite) (c : Cpu) (msg back : Word) :
    ∃ d, exec c (checkpoint K msg back) = some d ∧ d.sp = c.sp ∧ SameFrame c.sp c.mem d.mem := by
  obtain ⟨d, hd⟩ := Option.isSome_iff_exists.mp (hK.returns (((c.push 1).push msg).push back))
  refine ⟨d.drop 8, ?_, ?_, ?_⟩
  · simp only [checkpoint, exec_cons, exec_nil, Instr.exec, Option.bind_some, hd]
  · simp [Cpu.sp, hK.sp hd]
  · have h1 : SameFrame c.sp c.mem (c.push 1).mem :=
      sameFrame_push (off_zero _).symm (by norm_num) (le_refl 0) 1
    have h2 : SameFrame c.sp (c.push 1).mem ((c.push 1).push msg).mem :=
      sameFrame_push (j := -4) (by simp [Cpu.sp]) (by norm_num) (by norm_num) msg
    have h3 : SameFrame c.sp ((c.push 1).push msg).mem (((c.push 1).push msg).push back).mem :=
      sameFrame_push (j := -8) (by simp [Cpu.sp]) (by norm_num) (by norm_num) back
    have h4 : SameFrame c.sp (((c.push 1).push msg).push back).mem d.mem := fun k h0 hk => by
      have := hK.frame hd k h0 hk
      simpa [Cpu.sp] using this
    exact ((h1.trans h2).trans h3).trans h4

@[simp] theorem entered_sp : (entered K c).sp = off c.sp (-8) := by simp [entered, Cpu.sp]

/-- The argument of the handler is the address of the frame. -/
@[simp] theorem entered_arg : read32 (entered K c).mem (off c.sp (-4)) = c.sp := by
  simp (disch := decide) [entered, read32_write32_apart]

theorem entered_frame : SameFrame c.sp c.mem (entered K c).mem := by
  have h : SameFrame c.sp c.mem (c.push c.sp).mem :=
    sameFrame_push (off_zero _).symm (by norm_num) (le_refl 0) _
  exact h.trans (sameFrame_push (j := -4) (by simp [Cpu.sp]) (by norm_num) (by norm_num) _)

/-- **The handler** gets the address of the frame; if it returns, the stack is as it was and so is
the frame, but for `eax`. -/
theorem callHandler_exec (hK : HandlerOk K.syscallHandler)
    (hd : K.syscallHandler (entered K c) = some d) :
    ∃ d', exec c (callHandler K) = some d' ∧ d'.sp = c.sp ∧ d'.mem = d.mem ∧
      ∀ k : Int, 0 ≤ k → k < 68 → ¬ (44 ≤ k ∧ k < 48) → d.mem (off c.sp k) = c.mem (off c.sp k) := by
  refine ⟨d.drop 4, ?_, ?_, rfl, ?_⟩
  · simp only [callHandler, exec_cons, exec_nil, Instr.exec, Option.bind_some]
    rw [show (c.push (c.regs .esp)).push K.backHandler = entered K c from rfl, hd, Option.bind_some]
  · simp [Cpu.sp, hK.sp hd]
  · intro k h0 hk hout
    have hframe := hK.frame hd (by simp) k h0 hk hout
    rw [entered_sp, off_off, show -8 + (8 + k) = k by omega] at hframe
    exact hframe.trans (entered_frame k h0 hk)

/-! ## 4. Setting the frame up and taking it down -/

/-- The member a general register is saved in. -/
def regSlot : Reg → RegField
  | .eax => .eax
  | .ecx => .ecx
  | .edx => .edx
  | .ebx => .ebx
  | .esp => .esp
  | .ebp => .ebp
  | .esi => .esi
  | .edi => .edi

/-- The member a segment register is saved in. -/
def segSlot : Seg → RegField
  | .ds => .ds
  | .es => .es
  | .fs => .fs
  | .gs => .gs

/-- The frame at `regs` holds the caller's registers.  A selector is the lower half of its member,
and the whole of it where the processor clears the rest. -/
structure Holds (c : Cpu) (m : Memory) (regs : Word) : Prop where
  reg : ∀ r, regField m regs (regSlot r) = c.regs r
  seg : ∀ s, (regField m regs (segSlot s)).setWidth 16 = c.segs s
  wide : c.zeroExtends = true → ∀ s, regField m regs (segSlot s) = (c.segs s).setWidth 32

theorem SameFrame.regField {regs : Word} {m m' : Memory} (h : SameFrame regs m m') (f : RegField) :
    regField m' regs f = regField m regs f := by
  cases f <;> exact h.read (by decide) (by decide)

theorem Holds.same {m m' : Memory} {regs : Word} (h : Holds c m regs) (hm : SameFrame regs m m') :
    Holds c m' regs where
  reg := fun r => (hm.regField _).trans (h.reg r)
  seg := fun s => by rw [hm.regField, h.seg s]
  wide := fun hz s => (hm.regField _).trans (h.wide hz s)

/-- Memory after the twelve pushes. -/
def frameMem (c : Cpu) : Memory :=
  ((((c.pushAll.pushSeg .ds).pushSeg .es).pushSeg .fs).pushSeg .gs).mem

/-- The word pushed for a selector, under whatever the processor adds to it. -/
theorem frameMem_seg (c : Cpu) (s : Seg) : ∃ d : Cpu, d.zeroExtends = c.zeroExtends ∧
    regField (frameMem c) (off c.sp (-48)) (segSlot s) = d.upper ++ c.segs s := by
  cases s
  · refine ⟨c.pushAll, rfl, ?_⟩
    simp (disch := decide) [regField, segSlot, RegField.offset, frameMem, Cpu.pushAll,
      read32_write32_apart]
  · refine ⟨c.pushAll.pushSeg .ds, rfl, ?_⟩
    simp (disch := decide) [regField, segSlot, RegField.offset, frameMem, Cpu.pushAll,
      read32_write32_apart]
  · refine ⟨(c.pushAll.pushSeg .ds).pushSeg .es, rfl, ?_⟩
    simp (disch := decide) [regField, segSlot, RegField.offset, frameMem, Cpu.pushAll,
      read32_write32_apart]
  · refine ⟨((c.pushAll.pushSeg .ds).pushSeg .es).pushSeg .fs, rfl, ?_⟩
    simp [regField, segSlot, RegField.offset, frameMem, Cpu.pushAll]

/-- **The pushes of the stub are the members of `registers_t`**, last one first. -/
theorem holds_frameMem (c : Cpu) : Holds c (frameMem c) (off c.sp (-48)) := by
  refine ⟨fun r => ?_, fun s => ?_, fun hz s => ?_⟩
  · cases r <;>
      simp (disch := decide) [regField, regSlot, RegField.offset, frameMem, Cpu.pushAll,
        read32_write32_apart]
  · obtain ⟨d, -, hd⟩ := frameMem_seg c s
    rw [hd, Cpu.setWidth_upper]
  · obtain ⟨d, hdz, hd⟩ := frameMem_seg c s
    rw [hd, Cpu.upper_append _ _ (hdz.trans hz)]

/-- The interrupt frame lies above. -/
theorem frameMem_above (c : Cpu) {k : Int} (h0 : 0 ≤ k) (hk : k < 20) :
    frameMem c (off c.sp k) = c.mem (off c.sp k) := by
  have hne : ∀ i : Int, -48 ≤ i → i ≤ -4 → ∀ (m : Memory) (v : Word),
      write32 m (off c.sp i) v (off c.sp k) = m (off c.sp k) := by
    intro i hlo hhi m v
    refine write32_off ?_
    rw [within_off]
    omega
  simp (disch := decide) [frameMem, Cpu.pushAll, hne]

theorem saveFrame_exec (c : Cpu) : ∃ d, exec c (saveFrame ++ loadSegments) = some d ∧
    d.sp = off c.sp (-48) ∧ d.mem = frameMem c := by
  refine ⟨_, rfl, ?_, rfl⟩
  simp [Cpu.sp, Cpu.pushAll]

theorem restoreFrame_exec (d : Cpu) : ∃ d', exec d restoreFrame = some d' ∧
    d'.sp = off d.sp 48 ∧ d'.mem = d.mem ∧
    (∀ r, r ≠ .esp → d'.regs r = regField d.mem d.sp (regSlot r)) ∧
    ∀ s, d'.segs s = (regField d.mem d.sp (segSlot s)).setWidth 16 := by
  refine ⟨_, rfl, ?_, rfl, fun r hr => ?_, fun s => ?_⟩
  · simp [Cpu.sp, Cpu.popAll]
  · cases r <;> simp [regField, regSlot, RegField.offset, Cpu.popAll, Cpu.sp] at hr ⊢
  · cases s <;> simp [regField, segSlot, RegField.offset, Cpu.popAll, Cpu.sp]

/-! ## 5. The whole stub -/

/-- Up to the handler: the frame of the caller lies at the stack pointer, under the interrupt frame. -/
theorem beforeHandler_exec (hA : SerialOk K.halSerialWrite) (c : Cpu) :
    ∃ d, exec c (beforeHandler K) = some d ∧ d.sp = off c.sp (-48) ∧ Holds c d.mem d.sp ∧
      ∀ k : Int, 0 ≤ k → k < 20 → d.mem (off c.sp k) = c.mem (off c.sp k) := by
  obtain ⟨b, hb, hbsp, hbm⟩ := saveFrame_exec c
  obtain ⟨d, hd, hdsp, hdm⟩ := checkpoint_exec hA b K.msgA K.backA
  rw [hbsp, hbm] at hdm
  refine ⟨d, ?_, hdsp.trans hbsp, ?_, ?_⟩
  · rw [beforeHandler, exec_append, hb, Option.bind_some, hd]
  · rw [hdsp, hbsp]
    exact (holds_frameMem c).same hdm
  · intro k h0 hk
    have habove := hdm (48 + k) (by omega) (by omega)
    rw [off_off, show -48 + (48 + k) = k by omega] at habove
    exact habove.trans (frameMem_above c h0 hk)

/-- From the handler's return on: what the stub pops is what it pushed, but for `eax`. -/
theorem afterHandler_exec (hA : SerialOk K.halSerialWrite) (hH : HandlerOk K.syscallHandler)
    {d r : Cpu} (hd : Holds c d.mem d.sp) (hr : K.syscallHandler (entered K d) = some r) :
    ∃ c', exec d (callHandler K ++ checkpoint K K.msgC K.backC ++ restoreFrame) = some c' ∧
      c'.sp = off d.sp 48 ∧ (∀ q, q ≠ .eax → q ≠ .esp → c'.regs q = c.regs q) ∧
      c'.regs .eax = regField r.mem d.sp .eax ∧ c'.segs = c.segs ∧
      ∀ k : Int, 48 ≤ k → k < 68 → c'.mem (off d.sp k) = d.mem (off d.sp k) := by
  obtain ⟨a, ha, hasp, ham, hframe⟩ := callHandler_exec hH hr
  obtain ⟨b, hb, hbsp, hbm⟩ := checkpoint_exec hA a K.msgC K.backC
  obtain ⟨c', hc, hcsp, hcm, hregs, hsegs⟩ := restoreFrame_exec b
  rw [hasp, ham] at hbm
  rw [hbsp, hasp] at hcsp hregs hsegs
  have hkept : ∀ f, f ≠ .eax → regField b.mem d.sp f = regField d.mem d.sp f := by
    intro f hf
    rw [hbm.regField]
    refine read32_bytes (fun k hk hk' => hframe k ?_ ?_ ?_)
    all_goals cases f <;> simp only [RegField.offset, ne_eq, not_true_eq_false] at hf hk hk' <;> omega
  refine ⟨c', ?_, hcsp, ?_, ?_, ?_, ?_⟩
  · rw [exec_append, exec_append, ha, Option.bind_some, hb, Option.bind_some, hc]
  · intro q hq hsp
    rw [hregs q hsp, hkept _ (by cases q <;> simp [regSlot] at hq ⊢), hd.reg]
  · rw [hregs .eax (by decide)]
    exact hbm.regField .eax
  · funext s
    rw [hsegs s, hkept _ (by cases s <;> simp [segSlot]), hd.seg]
  · intro k hlo hhi
    rw [hcm, hbm k (by omega) hhi]
    exact hframe k (by omega) hhi (by omega)

/-- **Stub and handler agree on the frame.**  Whatever the registers of the caller hold, the handler
is entered with a `registers_t` that holds them.  If it returns, the stub comes to its `iretd` with the
stack pointer and the interrupt frame as `int 0x80` left them, every register of the caller restored,
and in `eax` the word the handler left in `regs->eax`. -/
theorem syscall_frame_agrees (hA : SerialOk K.halSerialWrite) (hH : HandlerOk K.syscallHandler)
    (c : Cpu) : ∃ e, handlerEntry K c = some e ∧ ∃ regs, regs = read32 e.mem (off e.sp 4) ∧
      Holds c e.mem regs ∧
      ∀ r, K.syscallHandler e = some r → ∃ c', exec c (syscallStub K) = some c' ∧
        c'.sp = c.sp ∧ (∀ k : Int, 0 ≤ k → k < 20 → c'.mem (off c.sp k) = c.mem (off c.sp k)) ∧
        (∀ q, q ≠ .eax → c'.regs q = c.regs q) ∧ c'.regs .eax = regField r.mem regs .eax ∧
        c'.segs = c.segs := by
  obtain ⟨d, hd, hsp, hholds, habove⟩ := beforeHandler_exec hA c
  refine ⟨entered K d, ?_, d.sp, ?_, hholds.same entered_frame, ?_⟩
  · rw [handlerEntry, hd, Option.map_some]
  · simp
  · intro r hr
    obtain ⟨c', hc, hcsp, hregs, heax, hsegs, hframe⟩ := afterHandler_exec hA hH hholds hr
    have hbal : c'.sp = c.sp := by
      rw [hcsp, hsp, off_off]
      exact off_zero _
    refine ⟨c', ?_, hbal, ?_, ?_, heax, hsegs⟩
    · rw [syscallStub, List.append_assoc, List.append_assoc, exec_append, hd, Option.bind_some,
        ← List.append_assoc, hc]
    · intro k h0 hk
      have hk' := hframe (48 + k) (by omega) (by omega)
      rw [hsp, off_off, show -48 + (48 + k) = k by omega] at hk'
      exact hk'.trans (habove k h0 hk)
    · intro q hq
      cases q with
      | esp => exact hbal
      | _ => exact hregs _ hq (by decide)

/-- A serial port that takes every byte, and a handler whose answer to every call is 5. -/
def answering : Linked where
  msgA := 0x110000
  msgC := 0x110004
  backA := 0x101020
  backHandler := 0x10102C
  backC := 0x101040
  halSerialWrite := fun c => some c.ret
  syscallHandler := fun c => some (c.store (off (read32 c.mem (off c.sp 4)) 44) 5).ret

theorem answering_serialOk : SerialOk answering.halSerialWrite where
  returns := fun _ => rfl
  sp := by
    rintro c _ ⟨⟩
    simp [Cpu.sp]
  frame := by
    rintro c _ ⟨⟩ k - -
    rfl

theorem answering_handlerOk : HandlerOk answering.syscallHandler where
  sp := by
    rintro c _ ⟨⟩
    simp [Cpu.sp]
  frame := by
    rintro c _ ⟨⟩ harg k h0 hk hout
    simp only [Cpu.ret_mem, Cpu.store_mem, harg, off_off, RegField.offset] at hout ⊢
    refine write32_off ?_
    rw [within_off]
    omega

/-- A caller with 7 in its registers and its stack at 2 MiB. -/
def sampleCaller : Cpu where
  regs r := if r = .esp then 0x200000 else 7
  segs _ := 0x23
  eip := 0x101000
  mem _ := 0
  zeroExtends := true

theorem syscall_frame_agrees_sample : ∃ c', exec sampleCaller (syscallStub answering) = some c' ∧
    c'.sp = 0x200000 ∧ c'.regs .ebx = 7 ∧ c'.regs .eax = 5 := by
  obtain ⟨e, -, regs, hregs, -, hret⟩ :=
    syscall_frame_agrees answering_serialOk answering_handlerOk sampleCaller
  obtain ⟨c', hc, hsp, -, hother, heax, -⟩ := hret _ rfl
  refine ⟨c', hc, hsp, hother .ebx (by decide), heax.trans ?_⟩
  subst hregs
  exact read32_write32_same ..

end JarvOs.Syscall
