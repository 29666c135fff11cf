/-
# Hand-written x86 code

The part of a 32-bit x86 processor that a kernel's own assembly uses: the general and the segment
registers, byte-addressed memory, and the instructions that move words between them and the stack.
Addresses wrap at 2^32 and nothing is assumed about alignment, so a statement about such code needs
no hypothesis about where the stack is.

Code is a list of instructions run in order (`exec`); `call` runs a C function that is given as what
it does to the processor, or `none` if it never returns.  `off a k` is the address `k` bytes from
`a`: with the simp lemmas here, every stack slot of a piece of code becomes `off sp k` for the stack
pointer `sp` it was entered with and a literal `k`, and a read either finds the last write to its
slot or goes past it.
-/
import Mathlib

namespace JarvOs.Lib.X86

/-! ## 1. Memory -/

/-- Registers, addresses and stack slots. -/
abbrev Word := BitVec 32

/-- Memory, by bytes. -/
abbrev Memory := Word → BitVec 8

/-- The address `k` bytes from `a`. -/
def off (a : Word) (k : Int) : Word := a + BitVec.ofInt 32 k

@[simp] theorem off_zero (a : Word) : off a 0 = a := by simp [off]

@[simp] theorem off_off (a : Word) (i j : Int) : off (off a i) j = off a (i + j) := by
  simp [off, BitVec.ofInt_add, BitVec.add_assoc]

theorem exists_off (a x : Word) : ∃ k : Int, x = off a k := by
  refine ⟨(x - a).toNat, ?_⟩
  rw [off, BitVec.ofInt_natCast, BitVec.ofNat_toNat, BitVec.setWidth_eq]
  ring

/-- `x` is one of the `n` bytes from `a` on. -/
def Within (a : Word) (n : Nat) (x : Word) : Prop := (x - a).toNat < n

instance (a : Word) (n : Nat) (x : Word) : Decidable (Within a n x) :=
  inferInstanceAs (Decidable (_ < _))

theorem Within.exists_off {a x : Word} {n : Nat} (h : Within a n x) : ∃ k : Nat, k < n ∧ x = off a k := by
  refine ⟨(x - a).toNat, h, ?_⟩
  rw [off, BitVec.ofInt_natCast, BitVec.ofNat_toNat, BitVec.setWidth_eq]
  ring

theorem off_sub_off (a : Word) (i j : Int) :
    ((off a j - off a i).toNat : Int) = (j - i) % 2 ^ 32 := by
  have h : off a j - off a i = BitVec.ofInt 32 (j - i) := by
    simp only [off, Int.sub_eq_add_neg, BitVec.ofInt_add, BitVec.ofInt_neg]
    ring
  rw [h, BitVec.toNat_ofInt]
  norm_num [Int.toNat_of_nonneg, Int.emod_nonneg]

theorem within_off {a : Word} {i j : Int} {n : Nat} :
    Within (off a i) n (off a j) ↔ (j - i) % 2 ^ 32 < n := by
  rw [Within, ← off_sub_off a i j]
  norm_cast

/-- The little-endian word at an address. -/
def read32 (m : Memory) (a : Word) : Word := m (off a 3) ++ m (off a 2) ++ m (off a 1) ++ m a

/-- Storing a word. -/
def write32 (m : Memory) (a v : Word) : Memory :=
  fun x => if Within a 4 x then v.extractLsb' (8 * (x - a).toNat) 8 else m x

theorem write32_off {m : Memory} {a v x : Word} (h : ¬ Within a 4 x) : write32 m a v x = m x :=
  if_neg h

/-- A word depends on its four bytes. -/
theorem read32_bytes {m m' : Memory} {a : Word} {i : Int}
    (h : ∀ k, i ≤ k → k < i + 4 → m' (off a k) = m (off a k)) :
    read32 m' (off a i) = read32 m (off a i) := by
  simp only [read32, off_off]
  rw [h (i + 3) (by omega) (by omega), h (i + 2) (by omega) (by omega),
    h (i + 1) (by omega) (by omega), h i (by omega) (by omega)]

theorem read32_congr {m m' : Memory} {a : Word} (h : ∀ x, Within a 4 x → m' x = m x) :
    read32 m' a = read32 m a := by
  have hw : ∀ k : Int, 0 ≤ k → k < 4 → Within a 4 (off a k) := fun k h0 h4 => by
    have : Within (off a 0) 4 (off a k) := within_off.mpr (by omega)
    rwa [off_zero] at this
  have := read32_bytes (a := a) (i := 0) (fun k h0 h4 => h _ (hw k h0 (by omega)))
  rwa [off_zero] at this

@[simp] theorem read32_write32_same (m : Memory) (a v : Word) : read32 (write32 m a v) a = v := by
  have hb : ∀ k : Nat, k < 4 → write32 m a v (off a k) = v.extractLsb' (8 * k) 8 := fun k hk => by
    have hd : (off a k - a).toNat = k := by
      have := off_sub_off a 0 k
      rw [off_zero] at this
      omega
    rw [write32, if_pos (by rw [Within, hd]; exact hk), hd]
  have h0 := hb 0 (by omega)
  have h1 := hb 1 (by omega)
  have h2 := hb 2 (by omega)
  have h3 := hb 3 (by omega)
  rw [Nat.cast_zero, off_zero] at h0
  norm_cast at h1 h2 h3
  rw [read32, h0, h1, h2, h3]
  ext i hi
  simp only [BitVec.getElem_append, BitVec.getElem_extractLsb']
  rw [← BitVec.getLsbD_eq_getElem hi]
  split_ifs <;> (congr 1; omega)

/-- Slots at these distances from one address do not overlap. -/
def Apart (i j : Int) : Prop := 4 ≤ (j - i) % 2 ^ 32 ∧ 4 ≤ (i - j) % 2 ^ 32

instance (i j : Int) : Decidable (Apart i j) := inferInstanceAs (Decidable (_ ∧ _))

theorem read32_write32_apart {i j : Int} (h : Apart i j) (m : Memory) (a v : Word) :
    read32 (write32 m (off a i) v) (off a j) = read32 m (off a j) := by
  refine read32_congr (fun x hx => write32_off fun hx' => ?_)
  -- a byte of both slots: its distances from the two differ by the distance of the slots
  obtain ⟨k, rfl⟩ := exists_off a x
  rw [within_off] at hx hx'
  obtain ⟨h1, h2⟩ := h
  omega

theorem read32_write32_base {i : Int} (h : Apart i 0) (m : Memory) (a v : Word) :
    read32 (write32 m (off a i) v) a = read32 m a := by
  have := read32_write32_apart h m a v
  rwa [off_zero] at this

/-! ## 2. The processor -/

/-- The general registers, in the order of `pushad`. -/
inductive Reg
  | eax | ecx | edx | ebx | esp | ebp | esi | edi
deriving DecidableEq, Repr

/-- The segment registers that code may load. -/
inductive Seg
  | ds | es | fs | gs
deriving DecidableEq, Repr

/-- The processor and its memory.  Processors differ in what `push` of a segment register leaves in
the upper half of the slot: zeros (`zeroExtends`), or what was there before. -/
structure Cpu where
  regs : Reg → Word
  segs : Seg → BitVec 16
  eip : Word
  mem : Memory
  zeroExtends : Bool

namespace Cpu

/-- The stack pointer. -/
abbrev sp (c : Cpu) : Word := c.regs .esp

/-- Loading a register. -/
def set (c : Cpu) (r : Reg) (v : Word) : Cpu := { c with regs := Function.update c.regs r v }

/-- Storing a word. -/
def store (c : Cpu) (a v : Word) : Cpu := { c with mem := write32 c.mem a v }

/-- Loading a segment register. -/
def setSeg (c : Cpu) (s : Seg) (v : BitVec 16) : Cpu :=
  { c with segs := Function.update c.segs s v }

/-- Pushing a word. -/
def push (c : Cpu) (v : Word) : Cpu :=
  (c.set .esp (off c.sp (-4))).store (off c.sp (-4)) v

/-- `add esp, n` -/
def drop (c : Cpu) (n : Int) : Cpu := c.set .esp (off c.sp n)

/-- `pop r` -/
def pop (c : Cpu) (r : Reg) : Cpu := (c.drop 4).set r (read32 c.mem c.sp)

/-- `ret` -/
def ret (c : Cpu) : Cpu := { c.drop 4 with eip := read32 c.mem c.sp }

/-- The upper half of the slot a segment register is pushed to. -/
def upper (c : Cpu) : BitVec 16 :=
  if c.zeroExtends then 0 else (read32 c.mem (off c.sp (-4))).extractLsb' 16 16

/-- `push` of a segment register. -/
def pushSeg (c : Cpu) (s : Seg) : Cpu := c.push (c.upper ++ c.segs s)

/-- `pop` of a segment register. -/
def popSeg (c : Cpu) (s : Seg) : Cpu := (c.drop 4).setSeg s ((read32 c.mem c.sp).setWidth 16)

/-- `pushad`: the stack pointer is pushed as it was before. -/
def pushAll (c : Cpu) : Cpu :=
  [Reg.eax, .ecx, .edx, .ebx, .esp, .ebp, .esi, .edi].foldl (fun d r => d.push (c.regs r)) c

/-- `popad`: the stack pointer in the frame is skipped. -/
def popAll (c : Cpu) : Cpu :=
  (((((((c.pop .edi).pop .esi).pop .ebp).drop 4).pop .ebx).pop .edx).pop .ecx).pop .eax

section Fields

variable (c : Cpu) (r r' : Reg) (s s' : Seg) (a v : Word) (w : BitVec 16) (n : Int)

@[simp] theorem set_regs : (c.set r v).regs r' = if r' = r then v else c.regs r' :=
  Function.update_apply ..

@[simp] theorem set_segs : (c.set r v).segs = c.segs := rfl

@[simp] theorem set_mem : (c.set r v).mem = c.mem := rfl

@[simp] theorem store_regs : (c.store a v).regs = c.regs := rfl

@[simp] theorem store_segs : (c.store a v).segs = c.segs := rfl

@[simp] theorem store_mem : (c.store a v).mem = write32 c.mem a v := rfl

@[simp] theorem setSeg_regs : (c.setSeg s w).regs = c.regs := rfl

@[simp] theorem setSeg_segs : (c.setSeg s w).segs s' = if s' = s then w else c.segs s' :=
  Function.update_apply ..

@[simp] theorem setSeg_mem : (c.setSeg s w).mem = c.mem := rfl

@[simp] theorem push_regs : (c.push v).regs r = if r = .esp then off c.sp (-4) else c.regs r :=
  set_regs ..

@[simp] theorem push_segs : (c.push v).segs = c.segs := rfl

@[simp] theorem push_mem : (c.push v).mem = write32 c.mem (off c.sp (-4)) v := rfl

@[simp] theorem push_zeroExtends : (c.push v).zeroExtends = c.zeroExtends := rfl

@[simp] theorem pushSeg_regs : (c.pushSeg s).regs r = if r = .esp then off c.sp (-4) else c.regs r :=
  set_regs ..

@[simp] theorem pushSeg_segs : (c.pushSeg s).segs = c.segs := rfl

@[simp] theorem pushSeg_mem : (c.pushSeg s).mem =
    write32 c.mem (off c.sp (-4)) (c.upper ++ c.segs s) := rfl

@[simp] theorem pushSeg_zeroExtends : (c.pushSeg s).zeroExtends = c.zeroExtends := rfl

theorem setWidth_upper : (c.upper ++ w).setWidth 16 = w := by
  apply BitVec.eq_of_toNat_eq
  rw [BitVec.toNat_setWidth, BitVec.toNat_append, Nat.shiftLeft_eq, Nat.mul_comm,
    ← Nat.two_pow_add_eq_or_of_lt w.isLt, Nat.mul_add_mod, Nat.mod_eq_of_lt w.isLt]

theorem upper_append (h : c.zeroExtends = true) : c.upper ++ w = w.setWidth 32 := by
  rw [upper, if_pos h]
  exact (BitVec.setWidth_eq_append (by decide)).symm

@[simp] theorem drop_regs : (c.drop n).regs r = if r = .esp then off c.sp n else c.regs r :=
  set_regs ..

@[simp] theorem drop_segs : (c.drop n).segs = c.segs := rfl

@[simp] theorem drop_mem : (c.drop n).mem = c.mem := rfl

@[simp] theorem pop_regs : (c.pop r).regs r' =
    if r' = r then read32 c.mem c.sp else if r' = .esp then off c.sp 4 else c.regs r' := by
  simp only [pop, set_regs, drop_regs]

@[simp] theorem pop_segs : (c.pop r).segs = c.segs := rfl

@[simp] theorem pop_mem : (c.pop r).mem = c.mem := rfl

@[simp] theorem popSeg_regs : (c.popSeg s).regs r = if r = .esp then off c.sp 4 else c.regs r :=
  drop_regs ..

@[simp] theorem popSeg_segs : (c.popSeg s).segs s' =
    if s' = s then (read32 c.mem c.sp).setWidth 16 else c.segs s' := setSeg_segs ..

@[simp] theorem popSeg_mem : (c.popSeg s).mem = c.mem := rfl

@[simp] theorem ret_regs : c.ret.regs r = if r = .esp then off c.sp 4 else c.regs r := drop_regs ..

@[simp] theorem ret_mem : c.ret.mem = c.mem := rfl

@[simp] theorem ret_eip : c.ret.eip = read32 c.mem c.sp := rfl

end Fields

end Cpu

/-! ## 3. Instructions -/

/-- Instructions; `call` with the address it returns to and what the function does from its first
instruction to its `ret`. -/
inductive Instr
  | push (r : Reg)
  | pushImm (v : Word)
  | pushSeg (s : Seg)
  | pop (r : Reg)
  | popSeg (s : Seg)
  | pushad
  | popad
  | load (r base : Reg) (d : Int)
  | store (base r : Reg)
  | movLow (r : Reg) (v : BitVec 16)
  | movSeg (s : Seg) (r : Reg)
  | addSp (n : Int)
  | call (back : Word) (f : Cpu → Option Cpu)
  | ret

/-- One instruction. -/
def Instr.exec (c : Cpu) : Instr → Option Cpu
  | .push r => some (c.push (c.regs r))
  | .pushImm v => some (c.push v)
  | .pushSeg s => some (c.pushSeg s)
  | .pop r => some (c.pop r)
  | .popSeg s => some (c.popSeg s)
  | .pushad => some c.pushAll
  | .popad => some c.popAll
  | .load r base d => some (c.set r (read32 c.mem (off (c.regs base) d)))
  | .store base r => some (c.store (c.regs base) (c.regs r))
  | .movLow r v => some (c.set r ((c.regs r).extractLsb' 16 16 ++ v))
  | .movSeg s r => some (c.setSeg s ((c.regs r).setWidth 16))
  | .addSp n => some (c.drop n)
  | .call back f => f (c.push back)
  | .ret => some c.ret

/-- Instructions in order. -/
def exec (c : Cpu) (is : List Instr) : Option Cpu := is.foldlM Instr.exec c

theorem exec_nil (c : Cpu) : exec c [] = some c := rfl

theorem exec_cons (c : Cpu) (i : Instr) (is : List Instr) :
    exec c (i :: is) = (i.exec c).bind (fun d => exec d is) := rfl

theorem exec_append (c : Cpu) (is js : List Instr) :
    exec c (is ++ js) = (exec c is).bind (fun d => exec d js) := List.foldlM_append

end JarvOs.Lib.X86
