/-
# What an exception leaves on the serial line (`exception_handler` in `kernel/core/idt.c`)

An exception in the kernel ends in a report on the serial port: the name of the exception, the address and
the cause of a page fault, and where the code was.  The report is all there is to go by, so it had better say
what happened.

`readReport` reads such a report.  `report_read_back` is the round trip with `exception_handler`: nothing of
what it is to say is lost or ambiguous, though three of its strings go out with their terminating zero.
`exception_reported` is the way all through: from the code that failed, over the stub and `registers_t`, to
the text.  It holds for the exceptions whose stub agrees with the processor about the error code; vectors from
19 on have no name.
-/
import JarvOs.Core.InterruptStubs
import JarvOs.Lib.Format
import JarvOs.Shell.Console

namespace JarvOs.Core

open JarvOs.Lib JarvOs.Lib.X86 JarvOs.Syscall
open JarvOs.Shell (literal)

/-! ## 1. The code -/

/-- `hal_serial_write` of so many bytes of a string constant, the zero at its end included. -/
def serialConstant (s : String) (len : Nat) : List UInt8 := (literal s ++ [0x00]).take len

/-- `exception_names` -/
def exceptionNames : List String :=
  ["Divide By Zero", "Debug", "NMI", "Breakpoint", "Overflow",
   "Bound Range Exceeded", "Invalid Opcode", "Device Not Available",
   "Double Fault", "Coprocessor Segment Overrun", "Invalid TSS",
   "Segment Not Present", "Stack Fault", "General Protection Fault",
   "Page Fault", "Unknown Interrupt", "Coprocessor Fault",
   "Alignment Check", "Machine Check"]

/-- `serial_hex` -/
def serialHex (val : Word) : List UInt8 :=
  let buf := (List.range 8).foldl (fun (buf : List UInt8) i =>
    buf.set (2 + i) ((literal "0123456789ABCDEF").getD ((val >>> ((7 - i) * 4)) &&& 0xF#32).toNat 0x00))
    (literal "0x00000000" ++ [0x00])
  buf.take 10

/-- `exception_handler`: what it sends. -/
def exceptionHandler (regs : RegField → Word) (cr2 : Word) : List UInt8 :=
  serialConstant "\n*** EXCEPTION: " 17 ++
  (if (regs .intNo).toNat < 19 then literal (exceptionNames.getD (regs .intNo).toNat "") else []) ++
  (if regs .intNo = 14#32 then
    serialConstant "\nFault address: " 17 ++ serialHex cr2 ++
    serialConstant "\nCause: " 8 ++
    (if regs .errCode &&& 0x1#32 ≠ 0#32 then serialConstant "protection-violation" 21
      else serialConstant "not-present" 12) ++
    serialConstant ", " 2 ++
    (if regs .errCode &&& 0x2#32 ≠ 0#32 then serialConstant "write" 5 else serialConstant "read" 4) ++
    serialConstant ", " 2 ++
    (if regs .errCode &&& 0x4#32 ≠ 0#32 then serialConstant "user-mode" 9
      else serialConstant "kernel-mode" 11)
    else []) ++
  serialConstant "\nEIP: " 6 ++ serialHex (regs .eip) ++ serialConstant "\nSystem halted.\n" 16

/-! ## 2. Reading a report -/

/-- What is said about a page fault. -/
structure FaultReport where
  addr : Word
  protection : Bool
  write : Bool
  user : Bool
deriving DecidableEq, Repr

/-- What a report says. -/
structure Report where
  vector : Option Nat
  fault : Option FaultReport
  eip : Word
deriving DecidableEq, Repr

/-- `0x` and eight digits. -/
def readHex : Format.Reader UInt8 Word :=
  Format.fixed 10 (fun bs => (ofHex (bs.drop 2)).map (BitVec.ofNat 32))

/-- The lines about a page fault, from the address on. -/
def readFault : Format.Reader UInt8 FaultReport := fun bs => do
  let (addr, bs) ← readHex bs
  let (_, bs) ← Format.constant (serialConstant "\nCause: " 8) bs
  let (protection, bs) ← Format.oneOf (serialConstant "protection-violation" 21)
    (serialConstant "not-present" 12) bs
  let (_, bs) ← Format.constant (serialConstant ", " 2) bs
  let (write, bs) ← Format.oneOf (serialConstant "write" 5) (serialConstant "read" 4) bs
  let (_, bs) ← Format.constant (serialConstant ", " 2) bs
  let (user, bs) ← Format.oneOf (serialConstant "user-mode" 9) (serialConstant "kernel-mode" 11) bs
  let (_, bs) ← Format.constant [0x0A] bs
  return (⟨addr, protection, write, user⟩, bs)

/-- A report. -/
def readReport (bs : List UInt8) : Option Report := do
  let (_, bs) ← Format.constant (serialConstant "\n*** EXCEPTION: " 17) bs
  let (name, bs) ← Format.line 0x0A bs
  let (fault, bs) ← match Format.constant (serialConstant "Fault address: " 16) bs with
    | some (_, bs) => (readFault bs).map (fun p => (some p.1, p.2))
    | none => some (none, bs)
  let (_, bs) ← Format.constant (serialConstant "EIP: " 5) bs
  let (eip, bs) ← readHex bs
  if bs = serialConstant "\nSystem halted.\n" 16 then
    return ⟨(exceptionNames.map literal).idxOf? name, fault, eip⟩
  else none

/-- What is to be said about exception `n` with an error code. -/
def toReport (n : Nat) (errCode cr2 eip : Word) : Report :=
  ⟨if n < 19 then some n else none,
   if n = 14 then some ⟨cr2, errCode.getLsbD 0, errCode.getLsbD 1, errCode.getLsbD 2⟩ else none, eip⟩

/-! ## 3. The round trip -/

theorem serialHex_eq (val : Word) : serialHex val = literal "0x" ++ hexWord val := by
  have hdigit : ∀ i, (literal "0123456789ABCDEF").getD (nibble val i) 0x00 = hexDigit (nibble val i) :=
    fun i => Shell.hexTable_getD ⟨nibble val i, nibble_lt val i⟩
  have hbuf : literal "0x00000000" ++ [0x00] =
      [0x30, 0x78, 0x30, 0x30, 0x30, 0x30, 0x30, 0x30, 0x30, 0x30, 0x00] := by decide
  have hrange : List.range 8 = [0, 1, 2, 3, 4, 5, 6, 7] := by decide
  have hfront : literal "0x" = [0x30, 0x78] := by decide
  simp only [hexWord, List.map_cons, List.map_nil, ← hdigit, hfront]
  simp only [serialHex, hbuf, hrange, nibble]
  rfl

theorem readHex_serialHex : Format.ReadsBack serialHex readHex := by
  refine Format.fixed_readsBack (fun val => by rw [serialHex_eq]; rfl) (fun val => ?_)
  rw [serialHex_eq, List.drop_left' (by decide), ofHex_hexWord, Option.map_some, BitVec.ofNat_toNat,
    BitVec.setWidth_eq]

/-- A test of one bit, as the code makes it. -/
theorem and_twoPow_ne_zero (w : Word) {i : Nat} (hi : i < 32) :
    w &&& BitVec.twoPow 32 i ≠ 0#32 ↔ w.getLsbD i = true := by
  rw [BitVec.and_twoPow]
  split_ifs with h
  · refine iff_of_true (fun h0 => ?_) h
    have hbit := congrArg (BitVec.getLsbD · i) h0
    simp [hi] at hbit
  · exact iff_of_false (fun h0 => h0 rfl) h

/-- **The lines about a page fault.** -/
theorem readFault_append (f : FaultReport) (rest : List UInt8) :
    readFault (serialHex f.addr ++ (serialConstant "\nCause: " 8 ++
      ((if f.protection then serialConstant "protection-violation" 21
        else serialConstant "not-present" 12) ++
      (serialConstant ", " 2 ++ ((if f.write then serialConstant "write" 5 else serialConstant "read" 4) ++
      (serialConstant ", " 2 ++ ((if f.user then serialConstant "user-mode" 9
        else serialConstant "kernel-mode" 11) ++ 0x0A :: rest))))))) = some (f, rest) := by
  have hprot := Format.oneOf_readsBack (serialConstant "protection-violation" 21)
    (serialConstant "not-present" 12) (x := 0x70) (y := 0x6E) (by decide) (by decide) (by decide)
  have hwrite := Format.oneOf_readsBack (serialConstant "write" 5) (serialConstant "read" 4)
    (x := 0x77) (y := 0x72) (by decide) (by decide) (by decide)
  have huser := Format.oneOf_readsBack (serialConstant "user-mode" 9)
    (serialConstant "kernel-mode" 11) (x := 0x75) (y := 0x6B) (by decide) (by decide) (by decide)
  have hend : Format.constant [0x0A] (0x0A :: rest) = some ((), rest) := Format.constant_append [0x0A] rest
  simp only [readFault, readHex_serialHex f.addr, Format.constant_append, hprot f.protection, hwrite f.write,
    huser f.user, hend, Option.bind_eq_bind, Option.bind_some, Option.pure_def]

/-- The line with the name tells the vector, if it has one. -/
theorem exceptionName_spec (n : Nat) :
    0x0A ∉ (if n < 19 then literal (exceptionNames.getD n "") else []) ∧
    (exceptionNames.map literal).idxOf? (if n < 19 then literal (exceptionNames.getD n "") else []) =
      if n < 19 then some n else none := by
  have hnames : ∀ i : Fin 19, 0x0A ∉ literal (exceptionNames.getD i "") ∧
      (exceptionNames.map literal).idxOf? (literal (exceptionNames.getD i "")) = some i.val := by
    decide +kernel
  split_ifs with h
  · exact hnames ⟨n, h⟩
  · exact ⟨List.not_mem_nil, by decide +kernel⟩

/-- **What `exception_handler` sends can be read.** -/
theorem report_read_back (regs : RegField → Word) (cr2 : Word) :
    readReport (exceptionHandler regs cr2) =
      some (toReport (regs .intNo).toNat (regs .errCode) cr2 (regs .eip)) := by
  obtain ⟨hline, hvector⟩ := exceptionName_spec (regs .intNo).toNat
  have heip : serialConstant "\nEIP: " 6 = 0x0A :: serialConstant "EIP: " 5 := by decide
  have haddr : serialConstant "\nFault address: " 17 = 0x0A :: serialConstant "Fault address: " 16 := by
    decide
  have h14 : regs .intNo = 14#32 ↔ (regs .intNo).toNat = 14 := by
    rw [← BitVec.toNat_inj]
    rfl
  rw [exceptionHandler, toReport, ← hvector]
  generalize (if (regs .intNo).toNat < 19 then literal (exceptionNames.getD (regs .intNo).toNat "") else []) =
    name at hline ⊢
  by_cases hpf : (regs .intNo).toNat = 14
  · have hlines := readFault_append ⟨cr2, (regs .errCode).getLsbD 0, (regs .errCode).getLsbD 1,
      (regs .errCode).getLsbD 2⟩
      (serialConstant "EIP: " 5 ++ (serialHex (regs .eip) ++ serialConstant "\nSystem halted.\n" 16))
    have hpresent : regs .errCode &&& 0x1#32 ≠ 0#32 ↔ (regs .errCode).getLsbD 0 = true :=
      and_twoPow_ne_zero (regs .errCode) (i := 0) (by decide)
    have hwrite : regs .errCode &&& 0x2#32 ≠ 0#32 ↔ (regs .errCode).getLsbD 1 = true :=
      and_twoPow_ne_zero (regs .errCode) (i := 1) (by decide)
    have huser : regs .errCode &&& 0x4#32 ≠ 0#32 ↔ (regs .errCode).getLsbD 2 = true :=
      and_twoPow_ne_zero (regs .errCode) (i := 2) (by decide)
    rw [if_pos (h14.mpr hpf), if_pos hpf]
    simp only [List.append_assoc, heip, haddr, List.cons_append, hpresent, hwrite, huser]
    simp only [readReport, Format.constant_append, Option.bind_eq_bind, Option.bind_some,
      Format.line_append hline, hlines, Option.map_some, readHex_serialHex (regs .eip), if_true,
      Option.pure_def]
  · have hother : ∀ rest, Format.constant (serialConstant "Fault address: " 16)
        (serialConstant "EIP: " 5 ++ rest) = none :=
      Format.constant_other (x := 0x46) (y := 0x45) (by decide) (by decide) (by decide)
    rw [if_neg (fun h => hpf (h14.mp h)), if_neg hpf]
    simp only [List.append_assoc, List.nil_append, heip, List.cons_append]
    simp only [readReport, Format.constant_append, Option.bind_eq_bind, Option.bind_some,
      Format.line_append hline, hother, readHex_serialHex (regs .eip), if_true, Option.pure_def]

/-- **From the code that failed to the serial line.**  Whatever the processor was doing, an exception whose
stub agrees with the processor about the error code is reported with its vector, its cause and the address of
the instruction. -/
theorem exception_reported (c : Processor) (entry back cr2 : Word) {n : Nat} (hn : n < 32)
    {code : Option Word} (hcode : code.isSome = errorCodeStub n) :
    ∃ e, c.exceptionEntry entry back n code = some e ∧
      readReport (exceptionHandler (regField e.mem (read32 e.mem (off e.sp 4))) cr2) =
        some (toReport n (code.getD 0) cr2 c.cpu.eip) := by
  obtain ⟨e, he, -, -, hframe⟩ := reports_of_agree c entry back hcode
  refine ⟨e, he, ?_⟩
  rw [report_read_back, hframe.intNo, hframe.errCode, hframe.eip, BitVec.toNat_ofNat,
    Nat.mod_eq_of_lt (by omega)]

/-- A write to a missing page, by the code at address 1. -/
theorem exception_reported_page : ∃ e, atOne.exceptionEntry 0x101000 0x101020 14 (some 2#32) = some e ∧
    readReport (exceptionHandler (regField e.mem (read32 e.mem (off e.sp 4))) 0xDEAD#32) =
      some ⟨some 14, some ⟨0xDEAD#32, false, true, false⟩, 1#32⟩ :=
  exception_reported atOne 0x101000 0x101020 0xDEAD#32 (n := 14) (by decide) rfl

end JarvOs.Core
