/-
# Interrupt lines (`kernel/drivers/pic.c`, `kernel/core/idt.c`)

The way from a line of a device to its handler leads over two interrupt controllers, whose lines are
masked and whose vectors are chosen by writes to their ports, and over the interrupt descriptor table.
`pic.c` programs the controllers, `idt_init` fills the table, and nobody checks that the two agree.

A controller is what it does with a write (`Pic.command`, `Pic.data`), as far as the kernel's writes go.
Its data port is ONE port with four meanings: after the word that starts an initialisation it takes the
three words that follow, and only then it is the mask.  So what a write to it does depends on every
write before, and `picInit_programmed` has to hold from ANY state, in the middle of an initialisation
too.

`line_reaches_handler` puts the two together.  After `pic_init`, `idt_init` and any calls of
`pic_enable_irq` and `pic_disable_irq`, a line gets through if and only if it was enabled last, and a
line of the second controller only if line 2 was as well; it then enters `isr(32 + line)` through a ring
0 gate, and no line arrives as an exception.  `eoi_restores` is the way back: a handler's acknowledgement
leaves both controllers as they were before the interrupt.
-/
import JarvOs.Core.Gdt

namespace JarvOs.Core

open JarvOs.Lib

/-! ## 1. The controllers -/

/-- What the data port takes next. -/
inductive PicStage
  | icw2 | icw3 | icw4 | ready
deriving DecidableEq, Repr

/-- An interrupt controller (8259A), one of two. -/
structure Pic where
  stage : PicStage
  wantsIcw4 : Bool
  offset : BitVec 8
  cascade : BitVec 8
  mode : BitVec 8
  mask : BitVec 8
  inService : BitVec 8
deriving DecidableEq, Repr

/-- A write to the command port: bit 4 starts an initialisation; 0x20 is the end of the interrupt of
highest priority, which is the lowest line in service. -/
def Pic.command (p : Pic) (v : BitVec 8) : Pic :=
  if v.getLsbD 4 then { p with stage := .icw2, wantsIcw4 := v.getLsbD 0, mask := 0#8 }
  else if v = 0x20#8 then { p with inService := p.inService &&& (p.inService - 1#8) }
  else p

/-- A write to the data port.  The low three bits of a vector are the line. -/
def Pic.data (p : Pic) (v : BitVec 8) : Pic :=
  match p.stage with
  | .icw2 => { p with stage := .icw3, offset := v &&& 0xF8#8 }
  | .icw3 => { p with stage := if p.wantsIcw4 then .icw4 else .ready, cascade := v }
  | .icw4 => { p with stage := .ready, mode := v }
  | .ready => { p with mask := v }

/-- The vector of line `i`, if it is not masked. -/
def Pic.line (p : Pic) (i : Nat) : Option (BitVec 8) :=
  if p.stage = .ready ∧ p.mask.getLsbD i = false then some (p.offset ||| BitVec.ofNat 8 i) else none

structure Pics where
  master : Pic
  slave : Pic
deriving DecidableEq, Repr

/-- `outb`; ports of other devices are not modelled. -/
def Pics.outb (s : Pics) (port : BitVec 16) (v : BitVec 8) : Pics :=
  if port = 0x20#16 then { s with master := s.master.command v }
  else if port = 0x21#16 then { s with master := s.master.data v }
  else if port = 0xA0#16 then { s with slave := s.slave.command v }
  else if port = 0xA1#16 then { s with slave := s.slave.data v }
  else s

/-- `inb` from one of the data ports: the mask. -/
def Pics.inb (s : Pics) (port : BitVec 16) : BitVec 8 :=
  if port = 0x21#16 then s.master.mask else s.slave.mask

/-- What the processor is told when line `irq` is raised.  The second controller speaks through the line
of the first that both of them were told of. -/
def Pics.vector (s : Pics) (irq : Nat) : Option (BitVec 8) :=
  if irq < 8 then s.master.line irq
  else if s.master.cascade.getLsbD s.slave.cascade.toNat then do
    let _ ← s.master.line s.slave.cascade.toNat
    s.slave.line (irq - 8)
  else none

/-- The processor takes the interrupt of line `irq`. -/
def Pics.accept (s : Pics) (irq : Nat) : Pics :=
  if irq < 8 then
    { s with master := { s.master with inService := s.master.inService ||| BitVec.twoPow 8 irq } }
  else
    { master := { s.master with
        inService := s.master.inService ||| BitVec.twoPow 8 s.slave.cascade.toNat }
      slave := { s.slave with inService := s.slave.inService ||| BitVec.twoPow 8 (irq - 8) } }

/-! ## 2. The code -/

/-- `io_wait` -/
def ioWait (s : Pics) : Pics := s.outb 0x80#16 0#8

/-- `pic_init` -/
def picInit (s : Pics) : Pics :=
  let s := ioWait (s.outb 0x20#16 (0x10#8 ||| 0x01#8))
  let s := ioWait (s.outb 0xA0#16 (0x10#8 ||| 0x01#8))
  let s := ioWait (s.outb 0x21#16 0x20#8)
  let s := ioWait (s.outb 0xA1#16 0x28#8)
  let s := ioWait (s.outb 0x21#16 0x04#8)
  let s := ioWait (s.outb 0xA1#16 0x02#8)
  let s := ioWait (s.outb 0x21#16 0x01#8)
  let s := ioWait (s.outb 0xA1#16 0x01#8)
  let s := s.outb 0x21#16 0xFF#8
  s.outb 0xA1#16 0xFF#8

/-- `pic_send_eoi` -/
def picSendEoi (s : Pics) (irq : Nat) : Pics :=
  let s := if irq ≥ 8 then s.outb 0xA0#16 0x20#8 else s
  s.outb 0x20#16 0x20#8

/-- What `irqN_handler` does to the controllers, before anything else. -/
def irqHandlerEoi (s : Pics) (irq : Nat) : Pics :=
  if irq < 8 then s.outb 0x20#16 0x20#8 else (s.outb 0xA0#16 0x20#8).outb 0x20#16 0x20#8

/-- `pic_enable_irq` and `pic_disable_irq`: the port and the bit, and what becomes of the mask. -/
def picModify (f : BitVec 8 → BitVec 8 → BitVec 8) (s : Pics) (irq : Nat) : Pics :=
  if irq < 8 then s.outb 0x21#16 (f (s.inb 0x21#16) (1#8 <<< irq))
  else s.outb 0xA1#16 (f (s.inb 0xA1#16) (1#8 <<< (irq - 8)))

/-- `pic_enable_irq` -/
def picEnableIrq : Pics → Nat → Pics := picModify (fun mask bit => mask &&& ~~~bit)

/-- `pic_disable_irq` -/
def picDisableIrq : Pics → Nat → Pics := picModify (fun mask bit => mask ||| bit)

/-- `struct idt_entry` -/
structure IdtEntry where
  baseLow : BitVec 16
  sel : BitVec 16
  zero : BitVec 8
  flags : BitVec 8
  baseHigh : BitVec 16
deriving DecidableEq, Repr

/-- `idt_entries` -/
abbrev Idt := Vector IdtEntry 256

/-- The entry `idt_set_gate` writes. -/
def gate (base : BitVec 32) (sel : BitVec 16) (flags : BitVec 8) : IdtEntry where
  baseLow := (base &&& 0xFFFF#32).setWidth 16
  baseHigh := ((base >>> 16) &&& 0xFFFF#32).setWidth 16
  sel := sel
  zero := 0#8
  flags := flags

/-- `idt_set_gate` -/
def idtSetGate (idt : Idt) (num : BitVec 8) (base : BitVec 32) (sel : BitVec 16) (flags : BitVec 8) :
    Idt := idt.set num.toNat (gate base sel flags) num.isLt

/-- `idt_init`, where `isrN` is at `isr N`: a loop, then 48 calls one after the other, and one more. -/
def idtInit (isr : Nat → BitVec 32) (syscallStub : BitVec 32) (idt : Idt) : Idt :=
  let idt := (List.range 256).foldl (fun idt i => idtSetGate idt (BitVec.ofNat 8 i) 0#32 0#16 0#8) idt
  let idt := (List.range 48).foldl
    (fun idt i => idtSetGate idt (BitVec.ofNat 8 i) (isr i) 0x08#16 0x8E#8) idt
  idtSetGate idt 0x80#8 syscallStub 0x08#16 0xEE#8

/-! ## 3. Masks -/

/-- A call that masks or unmasks a line. -/
inductive LineOp
  | enable (irq : Nat)
  | disable (irq : Nat)
deriving DecidableEq, Repr

def LineOp.irq : LineOp → Nat
  | .enable irq => irq
  | .disable irq => irq

def lineStep (s : Pics) : LineOp → Pics
  | .enable irq => picEnableIrq s irq
  | .disable irq => picDisableIrq s irq

/-- The lines that were enabled last. -/
def enabledStep (on : Finset Nat) : LineOp → Finset Nat
  | .enable irq => insert irq on
  | .disable irq => on.erase irq

/-- A controller that is initialised, with the lines `base`, `base + 1`, … of which `on` are enabled. -/
structure Programmed (on : Finset Nat) (base : Nat) (offset cascade : BitVec 8) (p : Pic) : Prop where
  ready : p.stage = .ready
  offset : p.offset = offset
  cascade : p.cascade = cascade
  mask : ∀ i < 8, p.mask.getLsbD i = decide (base + i ∉ on)

/-- Both, as `pic_init` programs them. -/
structure BothProgrammed (on : Finset Nat) (s : Pics) : Prop where
  master : Programmed on 0 0x20#8 0x04#8 s.master
  slave : Programmed on 8 0x28#8 0x02#8 s.slave

section Masks

variable {on on' : Finset Nat} {base : Nat} {offset cascade : BitVec 8} {p : Pic} {s : Pics}
  {irq i : Nat}

theorem getLsbD_enable {m : BitVec 8} (hi : i < 8) (k : Nat) :
    (m &&& ~~~(1#8 <<< k)).getLsbD i = (m.getLsbD i && decide (i ≠ k)) := by
  rw [← BitVec.twoPow_eq, BitVec.getLsbD_and, BitVec.getLsbD_not, BitVec.getLsbD_twoPow]
  rcases eq_or_ne i k with rfl | hne
  · simp [hi]
  · simp [hi, hne, hne.symm]

theorem getLsbD_disable {m : BitVec 8} (hi : i < 8) (k : Nat) :
    (m ||| (1#8 <<< k)).getLsbD i = (m.getLsbD i || decide (i = k)) := by
  rw [← BitVec.twoPow_eq, BitVec.getLsbD_or, BitVec.getLsbD_twoPow]
  rcases eq_or_ne i k with rfl | hne
  · simp [hi]
  · simp [hne, hne.symm]

/-- A write to the data port of a controller that is ready is a write to its mask. -/
theorem Programmed.data (h : Programmed on base offset cascade p) {v : BitVec 8}
    (hv : ∀ i < 8, v.getLsbD i = decide (base + i ∉ on')) :
    Programmed on' base offset cascade (p.data v) := by
  have hdata : p.data v = { p with mask := v } := by simp only [Pic.data, h.ready]
  rw [hdata]
  exact ⟨h.ready, h.offset, h.cascade, hv⟩

/-- Lines of the other controller do not matter. -/
theorem Programmed.congr (h : Programmed on base offset cascade p)
    (hon : ∀ i < 8, base + i ∈ on' ↔ base + i ∈ on) : Programmed on' base offset cascade p := by
  refine ⟨h.ready, h.offset, h.cascade, fun i hi => ?_⟩
  rw [h.mask i hi, decide_eq_decide, hon i hi]

/-- **Initialisation** works from any state, and masks every line. -/
theorem picInit_programmed (s : Pics) : BothProgrammed ∅ (picInit s) := by
  have hones : ∀ i < 8, (0xFF#8).getLsbD i = true := by decide
  constructor
  · refine ⟨rfl, rfl, rfl, fun i hi => ?_⟩
    simp [picInit, ioWait, Pics.outb, Pic.command, Pic.data, hones i hi]
  · refine ⟨rfl, rfl, rfl, fun i hi => ?_⟩
    simp [picInit, ioWait, Pics.outb, Pic.command, Pic.data, hones i hi]

/-- **One call**: `f` does to the bit of the line what `g` does to the set. -/
theorem BothProgrammed.modify (h : BothProgrammed on s) (hirq : irq < 16)
    {f : BitVec 8 → BitVec 8 → BitVec 8}
    (hother : ∀ x, x ≠ irq → (x ∈ on' ↔ x ∈ on))
    (hf : ∀ (m : BitVec 8) (base k : Nat), irq = base + k →
      (∀ i < 8, m.getLsbD i = decide (base + i ∉ on)) →
      ∀ i < 8, (f m (1#8 <<< k)).getLsbD i = decide (base + i ∉ on')) :
    BothProgrammed on' (picModify f s irq) := by
  rcases Nat.lt_or_ge irq 8 with hlt | hge
  · have hstep : picModify f s irq =
        { s with master := s.master.data (f s.master.mask (1#8 <<< irq)) } := by
      rw [picModify, if_pos hlt]
      rfl
    rw [hstep]
    exact ⟨h.master.data (hf _ 0 irq (Nat.zero_add irq).symm h.master.mask),
      h.slave.congr (fun i _ => hother _ (by omega))⟩
  · have hstep : picModify f s irq =
        { s with slave := s.slave.data (f s.slave.mask (1#8 <<< (irq - 8))) } := by
      rw [picModify, if_neg (by omega)]
      rfl
    rw [hstep]
    exact ⟨h.master.congr (fun i hi => hother _ (by omega)),
      h.slave.data (hf _ 8 (irq - 8) (by omega) h.slave.mask)⟩

theorem BothProgrammed.enable (h : BothProgrammed on s) (hirq : irq < 16) :
    BothProgrammed (insert irq on) (picEnableIrq s irq) := by
  refine h.modify hirq (fun x hx => ?_) (fun m base k hk hm i hi => ?_)
  · rw [Finset.mem_insert, or_iff_right hx]
  · rw [getLsbD_enable hi, hm i hi, hk, ← Bool.decide_and, decide_eq_decide, Finset.mem_insert,
      not_or, and_comm, Nat.add_left_cancel_iff]

theorem BothProgrammed.disable (h : BothProgrammed on s) (hirq : irq < 16) :
    BothProgrammed (on.erase irq) (picDisableIrq s irq) := by
  refine h.modify hirq (fun x hx => ?_) (fun m base k hk hm i hi => ?_)
  · rw [Finset.mem_erase, and_iff_right hx]
  · rw [getLsbD_disable hi, hm i hi, hk, ← Bool.decide_or, decide_eq_decide, Finset.mem_erase,
      not_and_or, not_not, or_comm, Nat.add_left_cancel_iff]

theorem BothProgrammed.step (h : BothProgrammed on s) {op : LineOp} (hop : op.irq < 16) :
    BothProgrammed (enabledStep on op) (lineStep s op) := by
  cases op with
  | enable irq => exact h.enable hop
  | disable irq => exact h.disable hop

/-- **Any calls** after that. -/
theorem BothProgrammed.run : ∀ {ops : List LineOp} {on : Finset Nat} {s : Pics},
    BothProgrammed on s → (∀ op ∈ ops, op.irq < 16) →
      BothProgrammed (ops.foldl enabledStep on) (ops.foldl lineStep s)
  | [], _, _, h, _ => h
  | op :: ops, on, s, h, hops => by
    have hstep := h.step (hops op List.mem_cons_self)
    exact hstep.run (fun o ho => hops o (List.mem_cons_of_mem op ho))

theorem Programmed.line (h : Programmed on base offset cascade p) (hi : i < 8) :
    p.line i = if base + i ∈ on then some (offset ||| BitVec.ofNat 8 i) else none := by
  simp only [Pic.line, h.ready, h.offset, h.mask i hi, true_and, decide_eq_false_iff_not, not_not]

/-- Which lines get through, and with which vector. -/
theorem BothProgrammed.vector (h : BothProgrammed on s) (hirq : irq < 16) :
    s.vector irq =
      if irq ∈ on ∧ (8 ≤ irq → 2 ∈ on) then some (BitVec.ofNat 8 (32 + irq)) else none := by
  have hlow : ∀ i < 8, 0x20#8 ||| BitVec.ofNat 8 i = BitVec.ofNat 8 (32 + i) := by decide
  have hhigh : ∀ i < 8, 0x28#8 ||| BitVec.ofNat 8 i = BitVec.ofNat 8 (40 + i) := by decide
  rcases Nat.lt_or_ge irq 8 with hlt | hge
  · have hcascade : 8 ≤ irq → 2 ∈ on := fun h8 => absurd h8 (by omega)
    rw [Pics.vector, if_pos hlt, h.master.line hlt, Nat.zero_add, hlow irq hlt]
    simp only [and_iff_left hcascade]
  · obtain ⟨i, rfl⟩ : ∃ i, irq = 8 + i := ⟨irq - 8, by omega⟩
    have hi : i < 8 := by omega
    have hbit : (0x04#8).getLsbD (0x02#8).toNat = true := rfl
    have hline : s.master.line (0x02#8).toNat = if 2 ∈ on then some 0x22#8 else none :=
      h.master.line (by decide)
    have hnum : 32 + (8 + i) = 40 + i := by omega
    rw [Pics.vector, if_neg (by omega), h.master.cascade, h.slave.cascade, if_pos hbit, hline,
      Nat.add_sub_cancel_left, h.slave.line hi, hhigh i hi, hnum]
    by_cases h2 : 2 ∈ on
    · simp [h2]
    · simp [h2]

end Masks

/-! ## 4. Gates -/

/-- Where a gate leads. -/
def IdtEntry.handler (e : IdtEntry) : BitVec 32 := e.baseHigh ++ e.baseLow

theorem handler_gate (base : BitVec 32) (sel : BitVec 16) (flags : BitVec 8) :
    (gate base sel flags).handler = base := by
  have hlow : (base &&& 0xFFFF#32).setWidth 16 = base.extractLsb' 0 16 :=
    (setWidth_mask 16 base 16).trans (BitVec.setWidth_eq _)
  have hhigh : ((base >>> 16) &&& 0xFFFF#32).setWidth 16 = base.extractLsb' 16 16 :=
    (setWidth_shift_mask 16 base 16 16).trans (BitVec.setWidth_eq _)
  rw [IdtEntry.handler, gate, hlow, hhigh]
  exact (BitVec.extractLsb'_append_extractLsb'_eq_extractLsb' rfl).trans BitVec.extractLsb'_eq_self

/-- Gates written one after the other, up to number `n`. -/
theorem getElem_setGates (base : Nat → BitVec 32) (sel : BitVec 16) (flags : BitVec 8) (idt : Idt)
    {v : Nat} (hv : v < 256) : ∀ {n : Nat}, n ≤ 256 →
      ((List.range n).foldl (fun idt i => idtSetGate idt (BitVec.ofNat 8 i) (base i) sel flags) idt)[v] =
        if v < n then gate (base v) sel flags else idt[v]
  | 0, _ => by simp
  | n + 1, hn => by
    have hnum : (BitVec.ofNat 8 n).toNat = n := Nat.mod_eq_of_lt (by omega)
    have ih := getElem_setGates base sel flags idt hv (n := n) (by omega)
    rw [List.range_succ, List.foldl_append, List.foldl_cons, List.foldl_nil]
    simp only [idtSetGate, hnum, Vector.getElem_set]
    rcases Nat.lt_trichotomy v n with hlt | rfl | hgt
    · rw [if_neg (by omega), if_pos (by omega)]
      simpa [idtSetGate, hlt] using ih
    · simp
    · have hge : ¬ v < n := by omega
      rw [if_neg (by omega), if_neg (by omega)]
      simpa [idtSetGate, hge] using ih

/-- **The table**: exceptions and lines have gates of ring 0, the system call one of ring 3, and nothing
else has a gate. -/
theorem idtInit_getElem (isr : Nat → BitVec 32) (syscallStub : BitVec 32) (idt : Idt) {v : Nat}
    (hv : v < 256) : (idtInit isr syscallStub idt)[v] =
      if v < 48 then gate (isr v) kernelCs 0x8E#8
      else if v = 0x80 then gate syscallStub kernelCs 0xEE#8 else gate 0#32 0#16 0#8 := by
  have hclear := getElem_setGates (fun _ => 0#32) 0#16 0#8 idt hv (le_refl 256)
  rw [if_pos hv] at hclear
  rw [idtInit, idtSetGate, Vector.getElem_set, getElem_setGates isr 0x08#16 0x8E#8 _ hv (by decide),
    hclear]
  by_cases h48 : v < 48
  · have hne : (0x80#8).toNat ≠ v := by
      change 128 ≠ v
      omega
    rw [if_neg hne, if_pos h48, if_pos h48]
    rfl
  · rw [if_neg h48, if_neg h48]
    exact if_congr ⟨Eq.symm, Eq.symm⟩ rfl rfl

/-! ## 5. From the line to the handler and back -/

/-- **Every line that gets through reaches its handler.**  After `pic_init` from any state, `idt_init`
and any calls that mask and unmask lines: line `irq` gets through if and only if it was enabled last
and, on the second controller, line 2 was too; its vector is no exception, and the gate there is
present, of ring 0, in the code segment of the kernel, and leads to `isr(32 + irq)`. -/
theorem line_reaches_handler (s : Pics) (isr : Nat → BitVec 32) (syscallStub : BitVec 32) (idt : Idt)
    {ops : List LineOp} (hops : ∀ op ∈ ops, op.irq < 16) {irq : Nat} (hirq : irq < 16) :
    ((∃ v, (ops.foldl lineStep (picInit s)).vector irq = some v) ↔
      irq ∈ ops.foldl enabledStep ∅ ∧ (8 ≤ irq → 2 ∈ ops.foldl enabledStep ∅)) ∧
    ∀ v, (ops.foldl lineStep (picInit s)).vector irq = some v →
      32 ≤ v.toNat ∧ ∃ e, (idtInit isr syscallStub idt)[v.toNat]? = some e ∧
        e.handler = isr (32 + irq) ∧ e.sel = kernelCs ∧ e.flags = 0x8E#8 := by
  have hvector := ((picInit_programmed s).run hops).vector hirq
  rw [hvector]
  refine ⟨by simp, fun v hv => ?_⟩
  obtain ⟨-, hv⟩ := Option.ite_none_right_eq_some.mp hv
  obtain rfl := Option.some.inj hv
  have hnum : (BitVec.ofNat 8 (32 + irq)).toNat = 32 + irq := Nat.mod_eq_of_lt (by omega)
  have hlt : 32 + irq < 256 := by omega
  have hgate := idtInit_getElem isr syscallStub idt hlt
  rw [if_pos (by omega)] at hgate
  rw [hnum]
  refine ⟨by omega, gate (isr (32 + irq)) kernelCs 0x8E#8, ?_, handler_gate .., rfl, rfl⟩
  rw [Vector.getElem?_eq_getElem hlt, hgate]

/-- `hal_init` enables timer and keyboard: no other line gets through. -/
theorem halInit_lines (s : Pics) {irq : Nat} (hirq : irq < 16) :
    (∃ v, (picEnableIrq (picEnableIrq (picInit s) 0) 1).vector irq = some v) ↔ irq = 0 ∨ irq = 1 := by
  have htimer := (picInit_programmed s).enable (by decide : 0 < 16)
  have hon := htimer.enable (by decide : 1 < 16)
  have hset : ∀ i < 16, (i ∈ insert 1 (insert 0 (∅ : Finset Nat)) ∧
      (8 ≤ i → 2 ∈ insert 1 (insert 0 (∅ : Finset Nat)))) ↔ i = 0 ∨ i = 1 := by decide
  rw [hon.vector hirq, ← hset irq hirq]
  simp

/-- The one line in service is taken out. -/
theorem eoi_twoPow {p : Pic} (hidle : p.inService = 0#8) {i : Nat} (hi : i < 8) :
    ({ p with inService := p.inService ||| BitVec.twoPow 8 i } : Pic).command 0x20#8 = p := by
  have hone : ∀ i < 8, (0#8 ||| BitVec.twoPow 8 i) &&& ((0#8 ||| BitVec.twoPow 8 i) - 1#8) = 0#8 := by
    decide
  have heoi : ∀ q : Pic, q.command 0x20#8 = { q with inService := q.inService &&& (q.inService - 1#8) } :=
    fun _ => rfl
  rw [heoi]
  simp only [hidle, hone i hi]
  rw [← hidle]

/-- **The acknowledgement of a handler** leaves the controllers as they were before its interrupt. -/
theorem eoi_restores {on : Finset Nat} {s : Pics} (h : BothProgrammed on s)
    (hmaster : s.master.inService = 0#8) (hslave : s.slave.inService = 0#8) {irq : Nat}
    (hirq : irq < 16) : irqHandlerEoi (s.accept irq) irq = s := by
  rcases Nat.lt_or_ge irq 8 with hlt | hge
  · rw [irqHandlerEoi, if_pos hlt, Pics.accept, if_pos hlt, Pics.outb, if_pos rfl]
    simp only [eoi_twoPow hmaster hlt]
  · have hcascade : s.slave.cascade.toNat < 8 := by rw [h.slave.cascade]; decide
    have hslaveEoi : ∀ t : Pics, t.outb 0xA0#16 0x20#8 = { t with slave := t.slave.command 0x20#8 } :=
      fun _ => rfl
    have hmasterEoi : ∀ t : Pics, t.outb 0x20#16 0x20#8 = { t with master := t.master.command 0x20#8 } :=
      fun _ => rfl
    rw [irqHandlerEoi, if_neg (by omega), Pics.accept, if_neg (by omega), hslaveEoi, hmasterEoi]
    have hline : irq - 8 < 8 := by omega
    simp only [eoi_twoPow hmaster hcascade, eoi_twoPow hslave hline]

/-- The handlers do by hand what `pic_send_eoi` is for. -/
theorem irqHandlerEoi_eq (s : Pics) (irq : Nat) : irqHandlerEoi s irq = picSendEoi s irq := by
  rcases Nat.lt_or_ge irq 8 with hlt | hge
  · rw [irqHandlerEoi, picSendEoi, if_pos hlt, if_neg (by omega)]
  · rw [irqHandlerEoi, picSendEoi, if_neg (by omega), if_pos hge]

end JarvOs.Core
